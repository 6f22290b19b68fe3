import Stun.Proofs.Signing

/-!
# What an integrity attribute covers

The verdict on an integrity attribute is made from the bytes in front of it, without the declared
length, and from the attribute itself. So two messages that agree there get the same verdict,
whatever length they declare and whatever stands behind the attribute.
-/
namespace Stun

theorem take_drop_congr {α : Type} {l l' : List α} {start n : Nat}
    (h : ∀ i, start ≤ i → i < start + n → l[i]? = l'[i]?) :
    (l.drop start).take n = (l'.drop start).take n := by
  apply List.ext_getElem?
  intro i
  rw [List.getElem?_take, List.getElem?_take, List.getElem?_drop, List.getElem?_drop]
  split
  next hi => exact h _ (Nat.le_add_right _ _) (Nat.add_lt_add_left hi _)
  next => rfl

theorem Record.exists_of_mem_spans {start : Nat} {records : List Record} {s : Span}
    (hs : s ∈ spans start records) :
    ∃ (before : List Record) (r : Record) (after : List Record),
      records = before ++ r :: after ∧ s = r.span (start + (before.flatMap encode).length) := by
  induction records generalizing start with
  | nil => cases hs
  | cons r records ih =>
    rcases List.mem_cons.1 hs with rfl | hs
    · exact ⟨[], r, records, rfl, rfl⟩
    · obtain ⟨before, r', after, rfl, rfl⟩ := ih hs
      refine ⟨r :: before, r', after, rfl, ?_⟩
      rw [List.flatMap_cons, List.length_append, length_encode, Nat.add_assoc]

namespace Message

variable {limit limit' : Number} {data data' : List UInt8} {m m' : Message} {s s' : Span}

theorem exists_record_of_mem_spans (hp : parse limit data = .ok m) (hs : s ∈ m.spans) :
    ∃ (before : List UInt8) (r : Record) (after : List UInt8), headerSize ≤ before.length ∧
      m.bytes = before ++ (r.encode ++ after) ∧ s = r.span before.length := by
  obtain ⟨records, hwell, -, rfl⟩ := parse_eq_ok_iff.1 hp
  obtain ⟨before, r, after, rfl, rfl⟩ := Record.exists_of_mem_spans hs
  have hsize : (data.take headerSize).length = headerSize := by
    rw [List.length_take]
    exact Nat.min_eq_left hwell.header.size_le
  refine ⟨data.take headerSize ++ before.flatMap Record.encode, r, after.flatMap Record.encode,
    ?_, ?_, ?_⟩
  · rw [List.length_append, hsize]
    exact Nat.le_add_right _ _
  · have hbytes : (ofRecords data (before ++ r :: after)).bytes =
        data.take headerSize ++ (before ++ r :: after).flatMap Record.encode := by
      rw [← hwell.area]
      exact List.take_add
    rw [hbytes, List.flatMap_append, List.flatMap_cons, List.append_assoc]
  · rw [List.length_append, hsize]

theorem length_bytes_of_parse (hp : parse limit data = .ok m) :
    m.bytes.length = headerSize + m.header.length.toNat := by
  obtain ⟨records, hwell, -, rfl⟩ := parse_eq_ok_iff.1 hp
  change (data.take (headerSize + Header.declared data)).length =
    headerSize + (Header.read data).length.toNat
  rw [Header.toNat_length_read, List.length_take]
  exact Nat.min_eq_left hwell.stop_le

theorem bounds_of_mem_spans (hp : parse limit data = .ok m) (hs : s ∈ m.spans) :
    headerSize ≤ s.start ∧ s.stop ≤ m.bytes.length := by
  obtain ⟨before, r, after, hsize, hbytes, rfl⟩ := exists_record_of_mem_spans hp hs
  refine ⟨hsize, ?_⟩
  rw [hbytes, Record.stop_span, List.length_append, List.length_append, Record.length_encode]
  omega

theorem exists_fit_of_mem_spans (hp : parse limit data = .ok m) (hs : s ∈ m.spans) :
    ∃ w : BitVec 16, (Number.integer ((s.stop : Int) - headerSize)).fit 16 = .ok w := by
  obtain ⟨hfrom, hto⟩ := bounds_of_mem_spans hp hs
  have hlen := length_bytes_of_parse hp
  have hdeclared := m.header.length.isLt
  have hstart : s.stop = s.start + 4 + padded s.length := rfl
  refine ⟨BitVec.ofNatLT (s.stop - headerSize) (by omega), Number.fit_eq_ok_iff.2 ?_⟩
  rw [BitVec.toNat_ofNatLT]
  congr 1
  omega

theorem length_of_mem_spans (hp : parse limit data = .ok m) (hs : s ∈ m.spans) :
    s.length = BigEndian.decode ((m.bytes.drop (s.start + 2)).take 2) := by
  obtain ⟨before, r, after, -, hbytes, rfl⟩ := exists_record_of_mem_spans hp hs
  have hfield : (m.bytes.drop (before.length + 2)).take 2 = BigEndian.encode 2 r.value.length := by
    rw [hbytes, ← List.drop_drop, List.drop_left, Record.encode, BigEndian.encode_two,
      BigEndian.encode_two]
    rfl
  change r.value.length = BigEndian.decode ((m.bytes.drop (before.length + 2)).take 2)
  rw [hfield, BigEndian.decode_encode_two r.value_lt]

theorem value_eq_window (m : Message) (s : Span) :
    m.value s = (m.bytes.drop (s.start + 4)).take s.length := by
  rw [value, toList_extract, Span.valueStop, Nat.add_sub_cancel_left]
  rfl

/-- The digest input of a span, with the two bytes of the declared length cut out of what stands
before it. -/
theorem signedBytes_eq (hstart : headerSize ≤ s.start) (hstop : s.stop ≤ m.bytes.length) :
    m.signedBytes s = ((Number.integer ((s.stop : Int) - headerSize)).fit 16).map fun w =>
      m.bytes.take 2 ++ BigEndian.encode 2 w.toNat ++ (m.bytes.drop 4).take (s.start - 4) := by
  have hbefore : m.before s = m.bytes.take s.start := by
    rw [before, toList_extract, List.drop_zero, Nat.sub_zero]
  have hroom : 20 ≤ s.start := hstart
  have hlen : (m.bytes.take s.start).length = s.start := by
    have : s.stop = s.start + 4 + padded s.length := rfl
    rw [List.length_take]
    omega
  have htype : Bytes.slice (m.bytes.take s.start) 0 2 = m.bytes.take 2 := by
    refine (Bytes.slice_of_le _ 0 2 (by omega) (by omega)).trans ?_
    rw [List.drop_zero, List.take_take, Nat.min_eq_left (by omega)]
  have hrest : Bytes.slice (m.bytes.take s.start) 4 s.start = (m.bytes.drop 4).take (s.start - 4) := by
    refine (Bytes.slice_of_le _ 4 _ (by omega) (by omega)).trans ?_
    rw [List.take_take, Nat.min_self, List.drop_take]
  rw [signedBytes, hbefore]
  congr 1
  funext w
  rw [withDeclaredLength, htype, hrest]
  simp only [List.flatten_cons, List.flatten_nil, List.append_nil, List.append_assoc]

/-- A received tag is accepted or refused; nothing else goes wrong. -/
theorem decodeAt_integrity_cases (hp : parse limit data = .ok m) (hs : s ∈ m.spans)
    (algorithm : Algorithm) (key : Key) :
    m.decodeAt (.integrity algorithm) key s = .ok (.integrity algorithm) ∨
      m.decodeAt (.integrity algorithm) key s = .error .integrity := by
  obtain ⟨hfrom, hto⟩ := bounds_of_mem_spans hp hs
  obtain ⟨w, hw⟩ := exists_fit_of_mem_spans hp hs
  have hsigned := signedBytes_eq hfrom hto
  rw [hw] at hsigned
  change (m.verify algorithm key s).map _ = _ ∨ (m.verify algorithm key s).map _ = _
  rw [verify, hsigned]
  by_cases hsize : (m.value s).length = algorithm.size
  · simp only [if_pos hsize, Except.map, bind, Except.bind]
    by_cases htag : key.hmac algorithm (m.bytes.take 2 ++ BigEndian.encode 2 w.toNat ++
        (m.bytes.drop 4).take (s.start - 4)) = m.value s
    · exact Or.inl (by rw [if_pos htag])
    · exact Or.inr (by rw [if_neg htag])
  · exact Or.inr (by rw [if_neg hsize]; rfl)

/-- Integrity attributes at the same place get the same verdict when the messages agree in the type
and in all that follows the declared length, up to the end of the attribute's value. -/
theorem decodeAt_integrity_of_agree (hp : parse limit data = .ok m)
    (hp' : parse limit' data' = .ok m') (hs : s ∈ m.spans) (hs' : s' ∈ m'.spans)
    (hstart : s.start = s'.start) (htype : ∀ i < 2, m.bytes[i]? = m'.bytes[i]?)
    (hrest : ∀ i, 4 ≤ i → i < s.valueStop → m.bytes[i]? = m'.bytes[i]?)
    (algorithm : Algorithm) (key : Key) :
    m.decodeAt (.integrity algorithm) key s = m'.decodeAt (.integrity algorithm) key s' ∧
      (m.decodeAt (.integrity algorithm) key s = .ok (.integrity algorithm) ∨
        m.decodeAt (.integrity algorithm) key s = .error .integrity) := by
  obtain ⟨hfrom, hto⟩ := bounds_of_mem_spans hp hs
  obtain ⟨hfrom', hto'⟩ := bounds_of_mem_spans hp' hs'
  have hroom : 20 ≤ s.start := hfrom
  have hstop : s.valueStop = s.start + 4 + s.length := rfl
  -- The attribute's own header is covered, so the two values are equally long.
  have hlength : s.length = s'.length := by
    rw [length_of_mem_spans hp hs, length_of_mem_spans hp' hs', ← hstart]
    exact congrArg _ (take_drop_congr fun i hi hi' => hrest i (by omega) (by omega))
  have hvalue : m.value s = m'.value s' := by
    rw [value_eq_window, value_eq_window, ← hstart, ← hlength]
    exact take_drop_congr fun i hi hi' => hrest i (by omega) (by omega)
  have hsigned : m.signedBytes s = m'.signedBytes s' := by
    have hend : s.stop = s'.stop := by
      rw [Span.stop, Span.stop, Span.valueStart, Span.valueStart, hstart, hlength]
    have hfirst : (m.bytes.drop 0).take 2 = (m'.bytes.drop 0).take 2 :=
      take_drop_congr fun i _ hi => htype i (by omega)
    rw [List.drop_zero, List.drop_zero] at hfirst
    have hcovered : (m.bytes.drop 4).take (s.start - 4) = (m'.bytes.drop 4).take (s.start - 4) :=
      take_drop_congr fun i hi hi' => hrest i hi (by omega)
    rw [signedBytes_eq hfrom hto, signedBytes_eq hfrom' hto', hend, hfirst, hcovered, hstart]
  have hverify : m.verify algorithm key s = m'.verify algorithm key s' := by
    rw [verify, verify, hvalue, hsigned]
  exact ⟨congrArg (Except.map _) hverify, decodeAt_integrity_cases hp hs algorithm key⟩

def signedHeader : Header := ⟨.request, 1, 24, ⟨123⟩⟩

def signature : Record where
  type := (Kind.integrity .sha1).code
  value := Key.hmac ⟨[1, 2, 3]⟩ .sha1 signedHeader.encode
  padding := []
  value_lt := by rw [Key.length_hmac]; decide
  length_padding := by rw [Key.length_hmac]; rfl

/-- The signature with records behind it. -/
def signedMessage (w : BitVec 16) (after : List Record) : Message :=
  ⟨((signedHeader.redeclare w).encode ++ (signature :: after).flatMap Record.encode).toArray,
    signedHeader.redeclare w, Record.spans headerSize (signature :: after)⟩

theorem size_signature : signature.size = 24 := by
  rw [Record.size, signature, Key.length_hmac]
  rfl

theorem bytes_signedMessage (w : BitVec 16) (after : List Record) :
    (signedMessage w after).bytes = (signedHeader.redeclare w).encode ++
      (signature.encode ++ after.flatMap Record.encode) := rfl

theorem decodeAt_signature :
    (signedMessage 24 []).decodeAt (.integrity .sha1) ⟨[1, 2, 3]⟩ (signature.span headerSize) =
      .ok (.integrity .sha1) := by
  have hm : (signedMessage 24 []).bytes = signedHeader.encode ++ [] ++ (signature.encode ++ []) := by
    rw [List.append_nil]
    exact bytes_signedMessage 24 []
  have hw : (24 : BitVec 16).toNat = ([] : List UInt8).length + signature.size := by
    rw [size_signature]
    rfl
  have hvalue : signature.value =
      Key.hmac ⟨[1, 2, 3]⟩ .sha1 ((signedHeader.redeclare 24).encode ++ []) := by
    rw [List.append_nil]
    rfl
  have hdecode := decodeAt_integrity_span hm hw hvalue
  rwa [List.append_nil, Header.length_encode] at hdecode

/-- The signature covers the same bytes under another length and in front of other records. -/
theorem getElem?_signedMessage (w : BitVec 16) (after : List Record) {i : Nat}
    (hi : i < 2 ∨ 4 ≤ i) (hstop : i < 44) :
    (signedMessage 24 []).bytes[i]? = (signedMessage w after).bytes[i]? := by
  have hlen : i < (signedHeader.encode ++ signature.encode).length := by
    rw [List.length_append, Header.length_encode, Record.length_encode, size_signature]
    exact hstop
  rw [bytes_signedMessage, bytes_signedMessage, Header.getElem?_redeclare signedHeader w _ hi,
    Header.getElem?_redeclare signedHeader 24 _ hi, ← List.append_assoc, ← List.append_assoc,
    List.getElem?_append_left hlen, List.getElem?_append_left hlen]

def emptyRecord : Record := ⟨0x7001, [], [], Nat.two_pow_pos 16, rfl⟩

theorem decodeAt_integrity_of_agree_extended :
    ∃ m m' s, parse (.integer 2) m.bytes = .ok m ∧ parse (.integer 2) m'.bytes = .ok m' ∧
      m.header ≠ m'.header ∧ m.spans = [s] ∧ s ∈ m'.spans ∧ m'.spans.length = 2 ∧
      m'.decodeAt (.integrity .sha1) ⟨[1, 2, 3]⟩ s = .ok (.integrity .sha1) := by
  have hp : parse (.integer 2) (signedMessage 24 []).bytes = .ok (signedMessage 24 []) := by
    refine parse_encode ?_ (Or.inr rfl)
    rw [List.flatMap_singleton, Record.length_encode, size_signature]
    rfl
  have hp' : parse (.integer 2) (signedMessage 28 [emptyRecord]).bytes =
      .ok (signedMessage 28 [emptyRecord]) := by
    refine parse_encode ?_ (Or.inr rfl)
    rw [List.flatMap_cons, List.flatMap_singleton, List.length_append, Record.length_encode,
      Record.length_encode, size_signature]
    rfl
  have hheader : (signedMessage 24 []).header ≠ (signedMessage 28 [emptyRecord]).header := by
    intro heq
    exact absurd (congrArg (·.length.toNat) heq) (by decide : (24 : Nat) ≠ 28)
  have hs : signature.span headerSize ∈ (signedMessage 24 []).spans := List.mem_cons_self
  have hs' : signature.span headerSize ∈ (signedMessage 28 [emptyRecord]).spans :=
    List.mem_cons_self
  have hstop : (signature.span headerSize).valueStop = 44 := by
    rw [Span.valueStop, Span.valueStart, Record.span, signature, Key.length_hmac]
    rfl
  obtain ⟨hsame, -⟩ := decodeAt_integrity_of_agree hp hp' hs hs' rfl
    (fun i hi => getElem?_signedMessage 28 _ (Or.inl hi) (by omega))
    (fun i hi hi' => getElem?_signedMessage 28 _ (Or.inr hi) (hstop ▸ hi')) .sha1 ⟨[1, 2, 3]⟩
  exact ⟨signedMessage 24 [], signedMessage 28 [emptyRecord], signature.span headerSize, hp, hp',
    hheader, rfl, hs', rfl, hsame.symm.trans decodeAt_signature⟩

end Message

end Stun
