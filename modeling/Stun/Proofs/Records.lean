import Stun.Span

/-!
# Attributes on the wire

A record is an attribute as it stands in a message: type, value, and the bytes that fill the value
up to a multiple of four. `Span.scan` accepts exactly the areas that are records one after the
other, no more of them than the limit admits, and gives each record its place. An area is cut into
records in one way only.
-/
namespace Stun

namespace Number

/-- A limit admits `n` attributes unless the index of the last of them comes up to it. -/
def Admits (limit : Number) (n : Nat) : Prop := n = 0 ∨ limit.reachedBy (n - 1) = false

instance (limit : Number) (n : Nat) : Decidable (limit.Admits n) :=
  inferInstanceAs (Decidable (_ ∨ _))

theorem not_reachedBy_of_le {limit : Number} {k n : Nat} (hk : k ≤ n)
    (hn : limit.reachedBy n = false) : limit.reachedBy k = false := by
  cases limit with
  | integer l => simp only [reachedBy, decide_eq_false_iff_not] at hn ⊢; omega
  | fraction m h odd =>
    simp only [reachedBy, decide_eq_false_iff_not] at hn ⊢
    have hmul : (k : Int) * 2 ^ (h + 1) ≤ n * 2 ^ (h + 1) :=
      Int.mul_le_mul_of_nonneg_right (Int.ofNat_le.2 hk) (Int.pow_nonneg (by decide))
    omega
  | infinity negative => exact hn
  | nan => rfl

theorem admits_iff {limit : Number} {n : Nat} :
    limit.Admits n ↔ ∀ k < n, limit.reachedBy k = false := by
  constructor
  · rintro (rfl | hlast) k hk
    · omega
    · exact not_reachedBy_of_le (by omega) hlast
  · intro h
    by_cases hn : n = 0
    · exact Or.inl hn
    · exact Or.inr (h (n - 1) (by omega))

theorem Admits.of_le {limit : Number} {k n : Nat} (hk : k ≤ n) (hn : limit.Admits n) :
    limit.Admits k :=
  admits_iff.2 fun i hi => admits_iff.1 hn i (by omega)

theorem nan_admits (n : Nat) : nan.Admits n := Or.inr rfl

end Number

/-- Spans that cover the bytes from one offset up to another without gaps. -/
def Span.Chained : Nat → Nat → List Span → Prop
  | start, stop, [] => start = stop
  | start, stop, s :: rest => s.start = start ∧ Span.Chained s.stop stop rest

structure Record where
  type : BitVec 16
  value : List UInt8
  padding : List UInt8
  value_lt : value.length < 2 ^ 16
  length_padding : value.length + padding.length = padded value.length

namespace Record

theorem ext_fields {r r' : Record} (ht : r.type = r'.type) (hv : r.value = r'.value)
    (hp : r.padding = r'.padding) : r = r' := by
  cases r; cases r'; simp_all

variable (r : Record)

def encode : List UInt8 :=
  BigEndian.encode 2 r.type.toNat ++ BigEndian.encode 2 r.value.length ++ r.value ++ r.padding

def size : Nat := 4 + padded r.value.length

@[simp] theorem length_encode : r.encode.length = r.size := by
  have := r.length_padding
  simp only [encode, size, List.length_append, BigEndian.length_encode]
  omega

/-- The place of a record that starts at an offset. -/
def span (start : Nat) : Span := ⟨r.type, start, r.value.length⟩

@[simp] theorem stop_span (start : Nat) : (r.span start).stop = start + r.size := by
  simp only [Span.stop, Span.valueStart, span, size]
  omega

theorem stop_sub_valueStop (start : Nat) :
    (r.span start).stop - (r.span start).valueStop = r.padding.length := by
  have := r.length_padding
  simp only [Span.stop, Span.valueStop, span]
  omega

/-- The places of records that follow each other from an offset on. -/
def spans : Nat → List Record → List Span
  | _, [] => []
  | start, r :: records => r.span start :: spans (start + r.size) records

@[simp] theorem length_spans (start : Nat) (records : List Record) :
    (spans start records).length = records.length := by
  induction records generalizing start with
  | nil => rfl
  | cons r records ih => simp [spans, ih]

theorem spans_append (start : Nat) (records records' : List Record) :
    spans start (records ++ records') =
      spans start records ++ spans (start + (records.flatMap encode).length) records' := by
  induction records generalizing start with
  | nil => simp [spans]
  | cons r records ih =>
    simp only [List.cons_append, spans, ih, List.flatMap_cons, List.length_append, length_encode,
      Nat.add_assoc]

theorem getElem?_spans (start : Nat) (before : List Record) (r : Record) (after : List Record) :
    (spans start (before ++ r :: after))[before.length]? =
      some (r.span (start + (before.flatMap encode).length)) := by
  rw [spans_append, List.getElem?_append_right (Nat.le_of_eq (length_spans start before))]
  simp [spans]

theorem chained_spans (start : Nat) (records : List Record) :
    Span.Chained start (start + (records.flatMap encode).length) (spans start records) := by
  induction records generalizing start with
  | nil => rfl
  | cons r records ih =>
    refine ⟨rfl, ?_⟩
    rw [stop_span, List.flatMap_cons, List.length_append, length_encode, ← Nat.add_assoc]
    exact ih (start + r.size)

theorem length_flatMap_mod_four (records : List Record) :
    (records.flatMap encode).length % 4 = 0 := by
  induction records with
  | nil => rfl
  | cons r records ih =>
    have hpadded := padded_mod_four r.value.length
    rw [List.flatMap_cons, List.length_append, length_encode, size]
    omega

theorem length_flatMap_pos {records : List Record} (h : records ≠ []) :
    0 < (records.flatMap encode).length := by
  cases records with
  | nil => exact absurd rfl h
  | cons r records =>
    rw [List.flatMap_cons, List.length_append, length_encode, size]
    omega

theorem encode_append_inj {r r' : Record} {rest rest' : List UInt8}
    (h : r.encode ++ rest = r'.encode ++ rest') : r = r' ∧ rest = rest' := by
  simp only [encode, List.append_assoc] at h
  obtain ⟨htype, h⟩ := List.append_inj h (by simp)
  obtain ⟨hlength, h⟩ := List.append_inj h (by simp)
  have hlength' : r.value.length = r'.value.length :=
    BigEndian.encode_two_inj r.value_lt r'.value_lt hlength
  have htype' : r.type = r'.type :=
    BitVec.eq_of_toNat_eq (BigEndian.encode_two_inj r.type.isLt r'.type.isLt htype)
  obtain ⟨hvalue, h⟩ := List.append_inj h hlength'
  obtain ⟨hpadding, hrest⟩ := List.append_inj h (by
    have := r.length_padding
    have := r'.length_padding
    rw [hlength'] at *
    omega)
  exact ⟨ext_fields htype' hvalue hpadding, hrest⟩

theorem flatMap_encode_inj {records records' : List Record}
    (h : records.flatMap encode = records'.flatMap encode) : records = records' := by
  induction records generalizing records' with
  | nil =>
    cases records' with
    | nil => rfl
    | cons r' records' =>
      have hlen := congrArg List.length h
      simp only [List.flatMap_nil, List.flatMap_cons, List.length_nil, List.length_append,
        length_encode, size] at hlen
      omega
  | cons r records ih =>
    cases records' with
    | nil =>
      have hlen := congrArg List.length h
      simp only [List.flatMap_nil, List.flatMap_cons, List.length_nil, List.length_append,
        length_encode, size] at hlen
      omega
    | cons r' records' =>
      obtain ⟨rfl, hrest⟩ := encode_append_inj h
      rw [ih hrest]

end Record

namespace Span

/-- One turn of the scan, at a record. -/
theorem scan_encode_append (limit : Number) (stop count start : Nat) (r : Record)
    (rest : List UInt8) (hcount : limit.reachedBy count = false) (hstop : start + r.size ≤ stop) :
    scan limit stop count start (r.encode ++ rest) =
      (scan limit stop (count + 1) (start + r.size) rest).map (r.span start :: ·) := by
  have htype := BigEndian.decode_encode_two r.type.isLt
  have hlength := BigEndian.decode_encode_two r.value_lt
  have hspan : (⟨BitVec.ofNat 16 (BigEndian.decode (BigEndian.encode 2 r.type.toNat)), start,
      BigEndian.decode (BigEndian.encode 2 r.value.length)⟩ : Span) = r.span start := by
    rw [htype, hlength, BitVec.ofNat_toNat, BitVec.setWidth_eq]
    rfl
  have hdrop : (r.value ++ r.padding ++ rest).drop (padded r.value.length) = rest := by
    rw [← r.length_padding, ← List.length_append, List.drop_left]
  rw [BigEndian.encode_two] at hlength
  rw [BigEndian.encode_two, BigEndian.encode_two] at hspan
  rw [Record.encode, BigEndian.encode_two, BigEndian.encode_two]
  simp only [List.cons_append, List.nil_append]
  rw [scan]
  simp only [reduceCtorEq, if_false, hcount, Bool.false_eq_true, hspan, Record.stop_span]
  rw [if_neg (by omega), hlength, hdrop]

/-- Records one after the other are accepted, each at its place. -/
theorem scan_records (limit : Number) (count start : Nat) (records : List Record)
    (hlimit : ∀ k < records.length, limit.reachedBy (count + k) = false) :
    scan limit (start + (records.flatMap Record.encode).length) count start
      (records.flatMap Record.encode) = .ok (Record.spans start records) := by
  induction records generalizing count start with
  | nil => simp [scan, Record.spans]
  | cons r records ih =>
    have hcount : limit.reachedBy count = false := hlimit 0 (by simp)
    have htail : ∀ k < records.length, limit.reachedBy (count + 1 + k) = false := by
      intro k hk
      have := hlimit (k + 1) (by simpa using hk)
      rwa [show count + (k + 1) = count + 1 + k by omega] at this
    have hstop : start + (r.encode ++ records.flatMap Record.encode).length =
        start + r.size + (records.flatMap Record.encode).length := by
      rw [List.length_append, Record.length_encode, Nat.add_assoc]
    rw [List.flatMap_cons, hstop, scan_encode_append limit _ count start r _ hcount (by omega),
      ih (count + 1) (start + r.size) htail]
    rfl

/-- The record that the scan reads off at a place with enough bytes behind its header. -/
theorem exists_record (t₁ t₀ l₁ l₀ : UInt8) (rest : List UInt8)
    (hrest : padded (BigEndian.decode [l₁, l₀]) ≤ rest.length) :
    ∃ r : Record, r.type = BitVec.ofNat 16 (BigEndian.decode [t₁, t₀]) ∧
      r.value.length = BigEndian.decode [l₁, l₀] ∧
      t₁ :: t₀ :: l₁ :: l₀ :: rest =
        r.encode ++ rest.drop (padded (BigEndian.decode [l₁, l₀])) := by
  let n := BigEndian.decode [l₁, l₀]
  have hn : n < 2 ^ 16 := BigEndian.decode_two_lt l₁ l₀
  have hle : n ≤ padded n := le_padded n
  have hrest' : padded n ≤ rest.length := hrest
  have hvalue : (rest.take n).length = n := by rw [List.length_take]; omega
  have hpadding : ((rest.drop n).take (padded n - n)).length = padded n - n := by
    rw [List.length_take, List.length_drop]; omega
  refine ⟨⟨BitVec.ofNat 16 (BigEndian.decode [t₁, t₀]), rest.take n,
    (rest.drop n).take (padded n - n), by omega, by rw [hvalue, hpadding]; omega⟩, rfl, hvalue, ?_⟩
  have htype := BigEndian.encode_word t₁ t₀
  have hlength : BigEndian.encode 2 n = [l₁, l₀] := BigEndian.encode_decode [l₁, l₀]
  have htail : rest = rest.take n ++ (rest.drop n).take (padded n - n) ++ rest.drop (padded n) := by
    have hdrop : (rest.drop n).drop (padded n - n) = rest.drop (padded n) := by
      rw [List.drop_drop]; congr 1; omega
    rw [List.append_assoc, ← hdrop, List.take_append_drop, List.take_append_drop]
  simp only [Record.encode, htype, hvalue, hlength, List.cons_append, List.nil_append]
  exact congrArg (t₁ :: t₀ :: l₁ :: l₀ :: ·) htail

/-- Whatever the scan accepts is a sequence of records. -/
theorem records_of_scan {limit : Number} {stop count start : Nat} {area : List UInt8}
    {found : List Span} (hscan : scan limit stop count start area = .ok found)
    (hstop : stop = start + area.length) :
    ∃ records : List Record, area = records.flatMap Record.encode ∧
      found = Record.spans start records ∧
      ∀ k < records.length, limit.reachedBy (count + k) = false := by
  fun_induction scan limit stop count start area generalizing found with
  | case1 count start =>
    cases hscan
    exact ⟨[], rfl, rfl, by simp⟩
  | case2 count start area hne hcount => cases hscan
  | case3 count start hcount t₁ t₀ l₁ l₀ rest s hfull => cases hscan
  | case4 count start hcount t₁ t₀ l₁ l₀ rest s hroom =>
    rename_i hne ih
    have hs : s.stop = start + 4 + padded (BigEndian.decode [l₁, l₀]) := rfl
    have hlen : s.length = BigEndian.decode [l₁, l₀] := rfl
    simp only [List.length_cons] at hstop
    obtain ⟨r, htype, hvalue, hsplit⟩ := exists_record t₁ t₀ l₁ l₀ rest (by omega)
    have hsize : start + r.size = s.stop := by rw [Record.size, hvalue, hs]; omega
    have hspan : r.span start = s := by rw [Record.span, htype, hvalue]
    cases htail : scan limit stop (count + 1) s.stop (rest.drop (padded s.length)) with
    | error e => rw [htail] at hscan; cases hscan
    | ok found' =>
      rw [htail] at hscan
      cases hscan
      obtain ⟨records, harea, hfound, hlimit⟩ := ih htail (by
        rw [List.length_drop, hs, hlen]; omega)
      refine ⟨r :: records, ?_, ?_, ?_⟩
      · rw [List.flatMap_cons, ← harea, hsplit, hlen]
      · rw [Record.spans, hspan, hsize, hfound]
      · intro k hk
        cases k with
        | zero => simpa using hcount
        | succ k =>
          have := hlimit k (by simpa using hk)
          rwa [show count + (k + 1) = count + 1 + k by omega]
  | case5 count start area hne hcount hshort => cases hscan

theorem scan_eq_ok_iff {limit : Number} {stop start : Nat} {area : List UInt8}
    {found : List Span} (hstop : stop = start + area.length) :
    scan limit stop 0 start area = .ok found ↔
      ∃ records : List Record, area = records.flatMap Record.encode ∧
        limit.Admits records.length ∧ found = Record.spans start records := by
  constructor
  · intro hscan
    obtain ⟨records, harea, hfound, hlimit⟩ := records_of_scan hscan hstop
    refine ⟨records, harea, Number.admits_iff.2 ?_, hfound⟩
    simpa using hlimit
  · rintro ⟨records, rfl, hlimit, rfl⟩
    rw [hstop]
    exact scan_records limit 0 start records (by simpa using Number.admits_iff.1 hlimit)

/-- A scan fails only because the bytes are no message. -/
theorem scan_error {limit : Number} {stop count start : Nat} {area : List UInt8} {e : Error}
    (hscan : scan limit stop count start area = .error e) : ∃ cause, e = .decode cause := by
  fun_induction scan limit stop count start area with
  | case1 count start => cases hscan
  | case2 count start area hne hcount => cases hscan; exact ⟨_, rfl⟩
  | case3 count start hcount t₁ t₀ l₁ l₀ rest s hfull => cases hscan; exact ⟨_, rfl⟩
  | case4 count start hcount t₁ t₀ l₁ l₀ rest s hroom _ ih =>
    cases htail : scan limit stop (count + 1) s.stop (rest.drop (padded s.length)) with
    | ok found => rw [htail] at hscan; cases hscan
    | error e' =>
      rw [htail] at hscan
      cases hscan
      exact ih htail
  | case5 count start area hne hcount hshort => cases hscan; exact ⟨_, rfl⟩

end Span

end Stun
