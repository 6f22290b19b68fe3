import Stun.Proofs.Checksum
import Stun.Proofs.Coverage
import Stun.Proofs.Payloads

/-!
# The formats of values

Each kind of attribute has a format, a condition on the value and, for the kinds that check the
message, on what stands before it. A decoder takes exactly the values of its format and refuses the
others with a fault of its own kind. Decoders make what they read into an attribute like any other,
by the constructors that check what a caller gives; none of these checks fails for a received value.
-/
namespace Stun

theorem exists_of_bind_eq_ok {ε α β : Type} {x : Except ε α} {f : α → Except ε β} {b : β}
    (h : x >>= f = .ok b) : ∃ a, x = .ok a ∧ f a = .ok b := by
  cases x with
  | error e => cases h
  | ok a => exact ⟨a, rfl, h⟩

/-- The answer of a decoder that takes what has a format, and refuses the rest in a certain way. -/
inductive Verdict {α : Type} (format : Prop) (refusal : Error → Prop) : Except Error α → Prop
  | accepted (h : format) (a : α) : Verdict format refusal (.ok a)
  | refused (h : ¬ format) (e : Error) (fault : refusal e) : Verdict format refusal (.error e)

namespace Verdict

variable {α β : Type} {format format' : Prop} {refusal : Error → Prop} {x : Except Error α}

theorem accepts_iff (h : Verdict format refusal x) : (∃ a, x = .ok a) ↔ format := by
  cases h with
  | accepted h a => exact ⟨fun _ => h, fun _ => ⟨a, rfl⟩⟩
  | refused h e => exact ⟨fun ⟨_, hok⟩ => (nomatch hok), fun hformat => absurd hformat h⟩

theorem refusal_of_error (h : Verdict format refusal x) {e : Error} (he : x = .error e) :
    refusal e := by
  cases h with
  | accepted h a => cases he
  | refused h e' fault =>
    cases he
    exact fault

theorem map (h : Verdict format refusal x) (f : α → β) : Verdict format refusal (x.map f) := by
  cases h with
  | accepted h a => exact .accepted h (f a)
  | refused h e fault => exact .refused h e fault

theorem bind (h : Verdict format refusal x) {f : α → Except Error β}
    (hf : ∀ a, x = .ok a → ∃ b, f a = .ok b) : Verdict format refusal (x >>= f) := by
  cases h with
  | accepted h a =>
    obtain ⟨b, hb⟩ := hf a rfl
    rw [ok_bind, hb]
    exact .accepted h b
  | refused h e fault =>
    rw [error_bind]
    exact .refused h e fault

theorem congr (h : Verdict format refusal x) (hformat : format ↔ format') :
    Verdict format' refusal x := by
  cases h with
  | accepted h a => exact .accepted (hformat.1 h) a
  | refused h e fault => exact .refused (mt hformat.2 h) e fault

end Verdict

/-- The kind of attribute whose format the value breaks. -/
def InvalidData.kind? : InvalidData → Option Kind
  | .textTooLong kind | .notUtf8 kind => some (.text kind)
  | .addressTooShort kind | .addressSize kind _ | .addressFamily kind _ => some (.address kind)
  | .errorCodeTooShort | .errorCode .. | .reasonNotUtf8 | .reasonTooLong => some .errorCode
  | .unknownAttributesOdd => some .unknownAttributes
  | .prioritySize => some .priority
  | .useCandidateSize => some .useCandidate
  | .tieBreakerSize role => some (.tieBreaker role)
  | .fingerprintSize => some .fingerprint
  | .other _ => none

/-- The error says that the value breaks the format of the kind. -/
def Kind.Blamed (kind : Kind) (e : Error) : Prop :=
  ∃ cause, e = .invalidData cause ∧ cause.kind? = some kind

theorem Kind.blamed_invalidData {kind : Kind} {cause : InvalidData} (h : cause.kind? = some kind) :
    kind.Blamed (.invalidData cause) :=
  ⟨cause, rfl, h⟩

namespace Utf8

/-- The bytes are the encoded forms of characters, one after the other. -/
def WellFormed (bytes : List UInt8) : Prop :=
  ∃ characters : List Char, bytes = characters.flatMap String.utf8EncodeChar

theorem isValidUTF8_iff {bytes : List UInt8} :
    bytes.toByteArray.IsValidUTF8 ↔ WellFormed bytes := by
  constructor
  · rintro ⟨characters, h⟩
    refine ⟨characters, ?_⟩
    have hdata := congrArg (·.data.toList) h
    simpa [List.utf8Encode] using hdata
  · rintro ⟨characters, rfl⟩
    exact ⟨characters, rfl⟩

theorem exists_decode?_iff {bytes : List UInt8} :
    (∃ text, decode? bytes = some text) ↔ WellFormed bytes := by
  rw [← isValidUTF8_iff, decode?, String.fromUTF8?]
  split
  next h => exact iff_of_true ⟨_, rfl⟩ h
  next h =>
    refine iff_of_false ?_ h
    rintro ⟨text, htext⟩
    cases htext

/-- The character of the byte order mark. -/
def mark : Char := '\ufeff'

theorem encode_mark : String.utf8EncodeChar mark = byteOrderMark := by decide

theorem byteOrderMark_prefix_iff {c : Char} {rest : List UInt8} :
    byteOrderMark <+: String.utf8EncodeChar c ++ rest ↔ c = mark := by
  constructor
  · rintro ⟨rest', h⟩
    rw [← encode_mark] at h
    -- The first character is read off the start of the bytes.
    have hfirst := congrArg (fun bytes => bytes.toByteArray.utf8DecodeChar? 0) h
    simp only [List.toByteArray_append, ByteArray.utf8DecodeChar?_utf8EncodeChar_append] at hfirst
    exact (Option.some.inj hfirst).symm
  · rintro rfl
    rw [encode_mark]
    exact List.prefix_append _ _

theorem wellFormed_mark_append {rest : List UInt8} :
    WellFormed (byteOrderMark ++ rest) ↔ WellFormed rest := by
  constructor
  · rintro ⟨characters, h⟩
    cases characters with
    | nil => cases h
    | cons c characters =>
      rw [List.flatMap_cons] at h
      obtain rfl : c = mark := byteOrderMark_prefix_iff.1 ⟨rest, h⟩
      rw [encode_mark] at h
      exact ⟨characters, List.append_cancel_left h⟩
  · rintro ⟨characters, rfl⟩
    refine ⟨mark :: characters, ?_⟩
    rw [List.flatMap_cons, encode_mark]

theorem wellFormed_dropMark {bytes : List UInt8} :
    WellFormed (dropMark bytes) ↔ WellFormed bytes := by
  unfold dropMark
  split
  next h =>
    obtain ⟨rest, rfl⟩ := List.isPrefixOf_iff_prefix.1 h
    rw [List.drop_left, wellFormed_mark_append]
  next => rfl

end Utf8

theorem BoundedText.decode_verdict (kind : TextKind) (value : List UInt8) :
    Verdict (value.length < kind.limit ∧ Utf8.WellFormed value) (Kind.text kind).Blamed
      (decode kind value) := by
  unfold decode
  split
  next hshort =>
    split
    next text htext =>
      have hsize : text.utf8ByteSize < kind.limit := by
        rwa [Utf8.utf8ByteSize_of_decode? htext]
      rw [ofString, dif_pos hsize]
      exact .accepted ⟨hshort, Utf8.exists_decode?_iff.1 ⟨text, htext⟩⟩ _
    next htext =>
      refine .refused (fun h => ?_) _ (Kind.blamed_invalidData rfl)
      obtain ⟨text, hsome⟩ := Utf8.exists_decode?_iff.2 h.2
      rw [htext] at hsome
      cases hsome
  next hlong => exact .refused (fun h => hlong h.1) _ (Kind.blamed_invalidData rfl)

namespace ErrorCode

/-- The class and the number of the code stand in the third and the fourth byte; the bits in front
of them may be anything. -/
structure Format (value : List UInt8) : Prop where
  size_le : 4 ≤ value.length
  size_lt : value.length < 4 + reasonLimit
  group_ge : 3 ≤ value.getD 2 0 &&& 7
  group_le : value.getD 2 0 &&& 7 ≤ 6
  number_le : value.getD 3 0 ≤ 99
  reason : Utf8.WellFormed (value.drop 4)

theorem toNat_and_seven (b : UInt8) : (b &&& 7).toNat = b.toNat % 8 := by
  rw [UInt8.toNat_and]
  exact Nat.and_two_pow_sub_one_eq_mod b.toNat 3

theorem ofNumber_code (e : ErrorCode) : ofNumber (.integer e.code) e.reason = .ok e := by
  have hbounds : 300 ≤ (e.code : Int) ∧ (e.code : Int) ≤ 699 := by
    have := e.code_bounds
    omega
  rw [ofNumber, dif_pos hbounds, dif_pos e.short]
  rfl

theorem short_of_decode? {value : List UInt8} {reason : String}
    (h : Utf8.decode? (Utf8.dropMark (value.drop 4)) = some reason)
    (hlimit : value.length - 4 < reasonLimit) : reason.utf8ByteSize < reasonLimit := by
  have hle := Utf8.length_dropMark_le (value.drop 4)
  rw [List.length_drop] at hle
  rw [Utf8.utf8ByteSize_of_decode? h]
  exact Nat.lt_of_le_of_lt hle hlimit

theorem decode_verdict (value : List UInt8) :
    Verdict (Format value) Kind.errorCode.Blamed (decode value) := by
  have hgroup := toNat_and_seven (value.getD 2 0)
  unfold decode
  dsimp only
  split
  next hshort =>
    exact .refused (fun h => by have := h.size_le; omega) _ (Kind.blamed_invalidData rfl)
  next hsize =>
    split
    next hcode =>
      split
      next hreason =>
        refine .refused (fun h => ?_) _ (Kind.blamed_invalidData rfl)
        obtain ⟨text, hsome⟩ := Utf8.exists_decode?_iff.2 (Utf8.wellFormed_dropMark.2 h.reason)
        rw [hreason] at hsome
        cases hsome
      next reason hreason =>
        split
        next hlimit =>
          rw [ofNumber_code ⟨_, reason, by omega, short_of_decode? hreason hlimit⟩]
          refine .accepted ⟨by omega, by omega, ?_, ?_, hcode.2.2, ?_⟩ _
          · exact UInt8.le_iff_toNat_le.2 (hgroup ▸ hcode.1)
          · exact UInt8.le_iff_toNat_le.2 (hgroup ▸ hcode.2.1)
          · exact Utf8.wellFormed_dropMark.1 (Utf8.exists_decode?_iff.1 ⟨reason, hreason⟩)
        next hlimit =>
          exact .refused (fun h => by have := h.size_lt; omega) _ (Kind.blamed_invalidData rfl)
    next hcode =>
      refine .refused (fun h => hcode ⟨?_, ?_, h.number_le⟩) _ (Kind.blamed_invalidData rfl)
      · rw [← hgroup]
        exact h.group_ge
      · rw [← hgroup]
        exact h.group_le

end ErrorCode

theorem Words.exists_decode?_iff {value : List UInt8} :
    (∃ words, decode? value = some words) ↔ value.length % 2 = 0 := by
  fun_induction decode? value with
  | case1 => exact ⟨fun _ => rfl, fun _ => ⟨[], rfl⟩⟩
  | case2 => exact ⟨fun ⟨_, h⟩ => (nomatch h), fun h => (nomatch h)⟩
  | case3 high low rest ih =>
    rw [← Option.isSome_iff_exists, Option.isSome_map, Option.isSome_iff_exists, ih,
      List.length_cons, List.length_cons]
    omega

theorem TypeList.decode_verdict (value : List UInt8) :
    Verdict (value.length % 2 = 0) Kind.unknownAttributes.Blamed (decode value) := by
  unfold decode
  split
  next types htypes =>
    rw [ofNumbers_toNat]
    exact .accepted (Words.exists_decode?_iff.1 ⟨types, htypes⟩) types
  next hnone =>
    refine .refused (fun heven => ?_) _ (Kind.blamed_invalidData rfl)
    obtain ⟨types, htypes⟩ := Words.exists_decode?_iff.2 heven
    rw [hnone] at htypes
    cases htypes

theorem Bytes.field_lt (data : List UInt8) (offset width : Nat) :
    field data offset width < 256 ^ width := by
  have hle : ((data.drop offset).take width).length ≤ width := List.length_take_le _ _
  exact Nat.lt_of_lt_of_le (BigEndian.decode_lt _) (Nat.pow_le_pow_right (by decide) hle)

namespace Endpoint

/-- The second byte names the family, and the size is that of the family; the first byte may be
anything. -/
def Format (value : List UInt8) : Prop :=
  value.length = 8 ∧ value.getD 1 0 = 1 ∨ value.length = 20 ∧ value.getD 1 0 = 2

theorem ofText_field (address : IpAddress) (value : List UInt8) :
    ofText address.text (.integer (Bytes.field value 2 2)) =
      .ok ⟨address, BitVec.ofNatLT _ (Bytes.field_lt value 2 2)⟩ :=
  ofText_text ⟨address, BitVec.ofNatLT _ (Bytes.field_lt value 2 2)⟩

theorem decode_verdict (kind : AddressKind) (value : List UInt8) :
    Verdict (Format value) (Kind.address kind).Blamed (decode kind value) := by
  unfold decode
  dsimp only
  split
  next hshort =>
    exact .refused (fun h => by unfold Format at h; omega) _ (Kind.blamed_invalidData rfl)
  next hsize =>
    split
    next hv4 =>
      have hother : value.getD 1 0 ≠ 2 := by
        rw [hv4]
        decide
      split
      next hlength =>
        have hdrop : (value.drop 4).length = 4 := by rw [List.length_drop, hlength]
        have htext := ofText_field (.v4 ⟨value.drop 4, hdrop⟩) value
        rw [IpAddress.text, Ipv4.text] at htext
        rw [htext]
        exact .accepted (Or.inl ⟨hlength, hv4⟩) _
      next hlength =>
        exact .refused (fun h => h.elim (fun h => hlength h.1) (fun h => hother h.2)) _
          (Kind.blamed_invalidData rfl)
    next hv4 =>
      split
      next hv6 =>
        split
        next hlength =>
          have hdrop : (value.drop 4).length = 16 := by rw [List.length_drop, hlength]
          have htext := ofText_field (.v6 ⟨value.drop 4, hdrop⟩) value
          rw [IpAddress.text, Ipv6.text] at htext
          rw [htext]
          exact .accepted (Or.inr ⟨hlength, hv6⟩) _
        next hlength =>
          exact .refused (fun h => h.elim (fun h => hv4 h.2) (fun h => hlength h.1)) _
            (Kind.blamed_invalidData rfl)
      next hv6 =>
        exact .refused (fun h => h.elim (fun h => hv4 h.2) (fun h => hv6 h.2)) _
          (Kind.blamed_invalidData rfl)

theorem format_mask_iff {id : TransactionId} {value : List UInt8} :
    Format (mask id value) ↔ Format value := by
  have hfamily : (mask id value).getD 1 0 = value.getD 1 0 := by
    match value with
    | [] => rfl
    | [_] => rfl
    | _ :: _ :: _ => rfl
  rw [Format, Format, length_mask, hfamily]

end Endpoint

theorem Attribute.exists_ofPriority {n : Nat} (hn : n < 2 ^ 32) :
    ∃ a, ofPriority (.integer n) = .ok a :=
  ⟨_, ofPriority_toNat (BitVec.ofNatLT n hn)⟩

theorem Attribute.exists_ofTieBreaker (role : Role) {n : Nat} (hn : n < 2 ^ 64) :
    ∃ a, ofTieBreaker role n = .ok a :=
  ⟨_, ofTieBreaker_toNat role (BitVec.ofNatLT n hn)⟩

theorem Verdict.of_size {value : List UInt8} {size : Nat} {kind : Kind} {fault : InvalidData}
    (hfault : fault.kind? = some kind) :
    Verdict (value.length = size) kind.Blamed
      (if value.length = size then .ok (BigEndian.decode value)
        else .error (.invalidData fault)) := by
  split
  next hsize => exact .accepted hsize _
  next hsize => exact .refused hsize _ (Kind.blamed_invalidData hfault)

theorem lt_of_size_eq_ok {value : List UInt8} {size n : Nat} {e : Error}
    (h : (if value.length = size then .ok (BigEndian.decode value) else .error e) = Except.ok n) :
    n < 256 ^ size := by
  split at h
  next hsize =>
    cases h
    exact hsize ▸ BigEndian.decode_lt value
  next => cases h

namespace Message

/-- The value at a span has the format of a kind. -/
def Formatted (m : Message) (key : Key) (s : Span) : Kind → Prop
  | .address _ => Endpoint.Format (m.value s)
  | .text kind => (m.value s).length < kind.limit ∧ Utf8.WellFormed (m.value s)
  | .errorCode => ErrorCode.Format (m.value s)
  | .unknownAttributes => (m.value s).length % 2 = 0
  | .priority => (m.value s).length = 4
  | .useCandidate => (m.value s).length = 0
  | .tieBreaker _ => (m.value s).length = 8
  | .fingerprint =>
    m.value s = BigEndian.encode 4 (Crc32.bitwise (m.before s) ^^^ 0x5354554e#32).toNat
  | .integrity algorithm =>
    m.value s = key.hmac algorithm
      (Bytes.overlay (m.before s) 2 (BigEndian.encode 2 (s.stop - headerSize)))

/-- How a value that does not have the format of a kind is refused. -/
def Refused (m : Message) (s : Span) : Kind → Error → Prop
  | .integrity _, e => e = .integrity
  | .fingerprint, e =>
    e = if (m.value s).length = 4 then .fingerprint else .invalidData .fingerprintSize
  | kind, e => kind.Blamed e

variable {limit : Number} {data : List UInt8} {m : Message} {s : Span} {key : Key}

theorem decodeAt_fingerprint_verdict :
    Verdict (m.Formatted key s .fingerprint) (m.Refused s .fingerprint)
      (m.decodeAt .fingerprint key s) := by
  let tag := Crc32.bitwise (m.before s) ^^^ 0x5354554e#32
  have htag : fingerprint (m.before s) = tag := congrArg (· ^^^ _) (Crc32.checksum_eq_bitwise _)
  refine Verdict.map ?_ _
  rw [verifyFingerprint, htag]
  by_cases hsize : (m.value s).length = 4
  · rw [if_neg (not_not_intro hsize)]
    by_cases hvalue : BigEndian.decode (m.value s) = tag.toNat
    · rw [if_pos hvalue]
      refine .accepted ?_ ()
      rw [Formatted, ← hvalue, ← hsize, BigEndian.encode_decode]
    · rw [if_neg hvalue]
      refine .refused (fun h => hvalue ?_) _ (if_pos hsize).symm
      rw [h, BigEndian.decode_encode_toNat (by decide) tag]
  · rw [if_pos hsize]
    refine .refused (fun h => hsize ?_) _ (if_neg hsize).symm
    rw [h, BigEndian.length_encode]

/-- What an integrity attribute covers is what stands before it, with the length that ends with the
attribute written into the header. -/
theorem signedBytes_eq_overlay (hp : parse limit data = .ok m) (hs : s ∈ m.spans) :
    m.signedBytes s =
      .ok (Bytes.overlay (m.before s) 2 (BigEndian.encode 2 (s.stop - headerSize))) := by
  obtain ⟨hfrom, hto⟩ := bounds_of_mem_spans hp hs
  obtain ⟨w, hw⟩ := exists_fit_of_mem_spans hp hs
  have hlength : w.toNat = s.stop - headerSize := by
    have hfit := Number.integer.inj (Number.fit_eq_ok_iff.1 hw)
    omega
  obtain ⟨n, hn⟩ : ∃ n, s.start = 2 + 2 + n :=
    Nat.exists_eq_add_of_le (Nat.le_trans (by decide) hfrom)
  have hbefore : m.before s =
      m.bytes.take 2 ++ (m.bytes.drop 2).take 2 ++ (m.bytes.drop 4).take n := by
    rw [before, toList_extract, List.drop_zero, Nat.sub_zero, hn, List.take_add, List.take_add]
  have hprefix : headerSize ≤ m.bytes.length := by
    have : s.stop = s.start + 4 + padded s.length := rfl
    omega
  have htype : (m.bytes.take 2).length = 2 := by
    rw [List.length_take]
    exact Nat.min_eq_left (Nat.le_trans (by decide) hprefix)
  have hfield : ((m.bytes.drop 2).take 2).length =
      (BigEndian.encode 2 (s.stop - headerSize)).length := by
    rw [List.length_take, List.length_drop, BigEndian.length_encode]
    exact Nat.min_eq_left (Nat.le_sub_of_add_le (Nat.le_trans (by decide) hprefix))
  have hoverlay := Bytes.overlay_append (m.bytes.take 2) _ _ ((m.bytes.drop 4).take n) hfield
  rw [htype] at hoverlay
  rw [signedBytes_eq hfrom hto, hw, hbefore]
  refine congrArg Except.ok (Eq.trans ?_ hoverlay.symm)
  dsimp only
  rw [hlength, hn, Nat.add_sub_cancel_left]

theorem decodeAt_integrity_verdict (hp : parse limit data = .ok m) (hs : s ∈ m.spans)
    (algorithm : Algorithm) :
    Verdict (m.Formatted key s (.integrity algorithm)) (m.Refused s (.integrity algorithm))
      (m.decodeAt (.integrity algorithm) key s) := by
  refine Verdict.map ?_ _
  rw [verify, signedBytes_eq_overlay hp hs]
  split
  next hsize =>
    rw [ok_bind]
    split
    next htag => exact .accepted htag.symm ()
    next htag => exact .refused (fun h => htag h.symm) _ rfl
  next hsize =>
    refine .refused (fun h => hsize ?_) _ rfl
    rw [h, Key.length_hmac]

theorem decodeAt_verdict (hp : parse limit data = .ok m) (hs : s ∈ m.spans) (kind : Kind)
    (key : Key) : Verdict (m.Formatted key s kind) (m.Refused s kind) (m.decodeAt kind key s) := by
  cases kind with
  | address kind =>
    cases kind with
    | xorMapped =>
      exact ((Endpoint.decode_verdict .xorMapped _).map _).congr Endpoint.format_mask_iff
    | mapped | alternateServer => exact (Endpoint.decode_verdict _ _).map _
  | text kind => exact (BoundedText.decode_verdict kind _).map _
  | errorCode => exact (ErrorCode.decode_verdict _).map _
  | unknownAttributes => exact (TypeList.decode_verdict _).map _
  | priority =>
    exact (Verdict.of_size rfl).bind fun _ h => Attribute.exists_ofPriority (lt_of_size_eq_ok h)
  | useCandidate => exact (Verdict.of_size rfl).map _
  | tieBreaker role =>
    exact (Verdict.of_size rfl).bind fun _ h =>
      Attribute.exists_ofTieBreaker role (lt_of_size_eq_ok h)
  | fingerprint => exact decodeAt_fingerprint_verdict
  | integrity algorithm => exact decodeAt_integrity_verdict hp hs algorithm

theorem kind_of_decodeAt {kind : Kind} {a : Attribute} (hok : m.decodeAt kind key s = .ok a) :
    a.kind = kind := by
  cases kind with
  | address kind =>
    cases kind <;> obtain ⟨_, -, rfl⟩ := exists_of_map_eq_ok hok <;> rfl
  | priority =>
    obtain ⟨_, -, hok⟩ := exists_of_bind_eq_ok hok
    obtain ⟨_, -, rfl⟩ := exists_of_map_eq_ok hok
    rfl
  | tieBreaker role =>
    obtain ⟨_, -, hok⟩ := exists_of_bind_eq_ok hok
    obtain ⟨_, -, rfl⟩ := exists_of_map_eq_ok hok
    rfl
  | _ =>
    obtain ⟨_, -, rfl⟩ := exists_of_map_eq_ok hok
    rfl

theorem Refused.mem_lineage {kind : Kind} {e : Error} (h : m.Refused s kind e) :
    ErrorKind.invalidData ∈ e.kind.lineage := by
  have hblamed (h : kind.Blamed e) : ErrorKind.invalidData ∈ e.kind.lineage := by
    obtain ⟨cause, rfl, -⟩ := h
    exact (by decide : ErrorKind.invalidData ∈ ErrorKind.invalidData.lineage)
  cases kind with
  | fingerprint =>
    rw [Refused] at h
    split at h <;> subst h <;> decide
  | integrity algorithm =>
    cases h
    decide
  | _ => exact hblamed h

/-- For every kind, key and span of a parsed message, whatever the type of the span: the value is
decoded, to an attribute of the kind, when it has the format of the kind. It is refused as invalid
data otherwise, a failed check as what it is, and no other error gets out. -/
theorem decodeAt_accepts_exactly_formatted (hp : parse limit data = .ok m) (hs : s ∈ m.spans)
    (kind : Kind) (key : Key) :
    ((∃ a, m.decodeAt kind key s = .ok a) ↔ m.Formatted key s kind) ∧
    (∀ a, m.decodeAt kind key s = .ok a → a.kind = kind) ∧
    ∀ e, m.decodeAt kind key s = .error e →
      m.Refused s kind e ∧ ErrorKind.invalidData ∈ e.kind.lineage := by
  have hverdict := decodeAt_verdict hp hs kind key
  refine ⟨hverdict.accepts_iff, fun a => kind_of_decodeAt, fun e he => ?_⟩
  have hrefused := hverdict.refusal_of_error he
  exact ⟨hrefused, hrefused.mem_lineage⟩

/-- A reason behind a byte order mark, with the bits set that are not looked at. -/
def markedError : Record :=
  ⟨Kind.errorCode.code, [0xff, 0xff, 0xfc, 0x01, 0xef, 0xbb, 0xbf, 0x48, 0x69], [1, 2, 3],
    by decide, rfl⟩

def markedErrorMessage : Message :=
  let h : Header := ⟨.error, 1, 16, ⟨123⟩⟩
  ⟨(h.encode ++ [markedError].flatMap Record.encode).toArray, h, [markedError.span headerSize]⟩

theorem decodeAt_accepts_exactly_formatted_marked :
    ∃ m s, parse (.integer 1) m.bytes = .ok m ∧ s ∈ m.spans ∧
      (∃ a, m.decodeAt .errorCode ⟨[]⟩ s = .ok a ∧ a.kind = .errorCode) ∧
      ¬ ∃ a, m.decodeAt (.integrity .sha1) ⟨[]⟩ s = .ok a := by
  have hp : parse (.integer 1) markedErrorMessage.bytes = .ok markedErrorMessage :=
    parse_encode rfl (Or.inr rfl)
  have hs : markedError.span headerSize ∈ markedErrorMessage.spans := List.mem_singleton_self _
  have hbytes : markedErrorMessage.bytes =
      Header.encode ⟨.error, 1, 16, ⟨123⟩⟩ ++ (markedError.encode ++ []) := rfl
  have hvalue : markedErrorMessage.value (markedError.span headerSize) = markedError.value :=
    value_span hbytes
  obtain ⟨haccepts, hkind, -⟩ := decodeAt_accepts_exactly_formatted hp hs .errorCode ⟨[]⟩
  have hformat : markedErrorMessage.Formatted ⟨[]⟩ (markedError.span headerSize) .errorCode := by
    rw [Formatted, hvalue]
    exact ⟨by decide, by decide, by decide, by decide, by decide, ['\ufeff', 'H', 'i'], by decide⟩
  obtain ⟨a, ha⟩ := haccepts.2 hformat
  refine ⟨markedErrorMessage, markedError.span headerSize, hp, hs, ⟨a, ha, hkind a ha⟩, ?_⟩
  intro hok
  have hsigned := (decodeAt_accepts_exactly_formatted hp hs (.integrity .sha1) ⟨[]⟩).1.1 hok
  rw [Formatted, hvalue] at hsigned
  have hsize := congrArg List.length hsigned
  rw [Key.length_hmac] at hsize
  cases hsize

end Message

end Stun
