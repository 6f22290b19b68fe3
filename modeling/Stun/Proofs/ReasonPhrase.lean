import Stun.Proofs.Formats

/-!
# What becomes of an error code

The code of an error always comes back, and so does its reason, but for a byte order mark: a mark in
front of a reason is not told apart from one that an encoder put there, and is dropped when the
value is decoded. The other way round, an error code is encoded again with zeros in the place of the
bits that are not looked at, and without the mark.
-/
namespace Stun

namespace Utf8

/-- The text without the mark, when it starts with one. -/
def unmarked (text : String) : String :=
  match text.toList with
  | [] => text
  | c :: rest => if c = mark then String.ofList rest else text

theorem encode_ofList (characters : List Char) :
    encode (String.ofList characters) = characters.flatMap String.utf8EncodeChar := by
  rw [encode, String.toByteArray_ofList, List.utf8Encode]
  simp

theorem encode_eq_flatMap (text : String) :
    encode text = text.toList.flatMap String.utf8EncodeChar := by
  rw [← encode_ofList, String.ofList_toList]

theorem dropMark_mark_append (rest : List UInt8) : dropMark (byteOrderMark ++ rest) = rest := by
  have hprefix : byteOrderMark.isPrefixOf (byteOrderMark ++ rest) :=
    List.isPrefixOf_iff_prefix.2 (List.prefix_append _ _)
  rw [dropMark, if_pos hprefix, List.drop_left]

theorem dropMark_eq_self_iff {bytes : List UInt8} :
    dropMark bytes = bytes ↔ ¬ byteOrderMark <+: bytes := by
  constructor
  · rintro h ⟨rest, rfl⟩
    rw [dropMark_mark_append] at h
    have hlength := congrArg List.length h
    rw [List.length_append] at hlength
    simp [byteOrderMark] at hlength
  · exact fun h => if_neg (mt List.isPrefixOf_iff_prefix.1 h)

theorem byteOrderMark_prefix_encode_iff {text : String} :
    byteOrderMark <+: encode text ↔ text.toList.head? = some mark := by
  rw [encode_eq_flatMap]
  cases text.toList with
  | nil => simp [byteOrderMark]
  | cons c rest =>
    rw [List.flatMap_cons, byteOrderMark_prefix_iff]
    simp

theorem dropMark_encode (text : String) : dropMark (encode text) = encode (unmarked text) := by
  have hbytes := encode_eq_flatMap text
  unfold unmarked
  split
  next htext =>
    rw [hbytes, htext]
    rfl
  next c rest htext =>
    rw [htext, List.flatMap_cons] at hbytes
    split
    next hmark => rw [hbytes, hmark, encode_mark, dropMark_mark_append, encode_ofList]
    next hmark =>
      rw [dropMark_eq_self_iff, hbytes, byteOrderMark_prefix_iff]
      exact hmark

theorem encode_injective {text text' : String} (h : encode text = encode text') : text = text' := by
  have hdecode := congrArg decode? h
  rw [decode?_encode, decode?_encode] at hdecode
  exact Option.some.inj hdecode

theorem unmarked_eq_self_iff {text : String} :
    unmarked text = text ↔ text.toList.head? ≠ some mark := by
  rw [Ne, ← byteOrderMark_prefix_encode_iff, ← dropMark_eq_self_iff, dropMark_encode]
  exact ⟨congrArg encode, encode_injective⟩

end Utf8

namespace ErrorCode

/-- The value with zeros in the place of the bits that are not looked at: the first two bytes, and
the five bits above the class of the code. -/
def cleared (value : List UInt8) : List UInt8 :=
  0 :: 0 :: (value.getD 2 0 &&& 7) :: value.drop 3

theorem eq_of_decode {value : List UInt8} {e : ErrorCode} (h : decode value = .ok e) :
    e.code = 100 * (value.getD 2 0 &&& 7).toNat + (value.getD 3 0).toNat ∧
      Utf8.encode e.reason = Utf8.dropMark (value.drop 4) := by
  unfold decode at h
  dsimp only at h
  split at h
  next => cases h
  next =>
    split at h
    next hcode =>
      split at h
      next => cases h
      next reason hreason =>
        split at h
        next hlimit =>
          rw [ofNumber_code ⟨_, reason, by omega, short_of_decode? hreason hlimit⟩] at h
          cases h
          exact ⟨by rw [toNat_and_seven], Utf8.encode_of_decode? hreason⟩
        next => cases h
    next => cases h

section Encode

variable (e : ErrorCode)

theorem group_encode : (e.encode.getD 2 0 &&& 7).toNat = e.code / 100 := by
  have hbounds := e.code_bounds
  rw [toNat_and_seven]
  change (UInt8.ofNat (e.code / 100)).toNat % 8 = _
  rw [UInt8.toNat_ofNat']
  omega

theorem number_encode : (e.encode.getD 3 0).toNat = e.code % 100 := by
  change (UInt8.ofNat (e.code % 100)).toNat = _
  rw [UInt8.toNat_ofNat']
  omega

theorem format_encode : Format e.encode := by
  have hbounds := e.code_bounds
  refine ⟨?_, ?_, ?_, ?_, ?_, ?_⟩
  · rw [length_encode, size]
    exact Nat.le_add_right 4 _
  · rw [length_encode, size]
    exact Nat.add_lt_add_left e.short 4
  · rw [UInt8.le_iff_toNat_le, group_encode]
    change 3 ≤ _
    omega
  · rw [UInt8.le_iff_toNat_le, group_encode]
    change _ ≤ 6
    omega
  · rw [UInt8.le_iff_toNat_le, number_encode]
    change _ ≤ 99
    omega
  · exact Utf8.exists_decode?_iff.1 ⟨e.reason, Utf8.decode?_encode e.reason⟩

theorem decode_encode :
    ∃ found, decode e.encode = .ok found ∧ found.code = e.code ∧
      found.reason = Utf8.unmarked e.reason := by
  obtain ⟨found, hfound⟩ := (decode_verdict e.encode).accepts_iff.2 e.format_encode
  obtain ⟨hcode, hreason⟩ := eq_of_decode hfound
  refine ⟨found, hfound, ?_, ?_⟩
  · rw [hcode, group_encode, number_encode, Nat.div_add_mod]
  · refine Utf8.encode_injective (hreason.trans ?_)
    exact Utf8.dropMark_encode e.reason

end Encode

/-- A value that was decoded is encoded again without the bits that are not looked at, and without
the mark of its reason. -/
theorem encode_of_decode {value : List UInt8} {e : ErrorCode} (h : decode value = .ok e) :
    e.encode = (cleared value).take 4 ++ Utf8.dropMark (value.drop 4) := by
  have hformat := (decode_verdict value).accepts_iff.1 ⟨e, h⟩
  obtain ⟨hcode, hreason⟩ := eq_of_decode h
  have hnumber : (value.getD 3 0).toNat ≤ 99 := UInt8.le_iff_toNat_le.1 hformat.number_le
  have hgroup : UInt8.ofNat (e.code / 100) = value.getD 2 0 &&& 7 := by
    have hdiv : e.code / 100 = (value.getD 2 0 &&& 7).toNat := by omega
    rw [hdiv, UInt8.ofNat_toNat]
  have hrest : UInt8.ofNat (e.code % 100) = value.getD 3 0 := by
    have hmod : e.code % 100 = (value.getD 3 0).toNat := by omega
    rw [hmod, UInt8.ofNat_toNat]
  have hdrop : value.drop 3 = value.getD 3 0 :: value.drop 4 := by
    match value, hformat.size_le with
    | _ :: _ :: _ :: _ :: _, _ => rfl
  rw [encode, hgroup, hrest, hreason, cleared, hdrop]
  rfl

theorem encode_of_decode_eq_cleared_iff {value : List UInt8} {e : ErrorCode}
    (h : decode value = .ok e) :
    e.encode = cleared value ↔ ¬ Utf8.byteOrderMark <+: value.drop 4 := by
  have hsplit : cleared value = (cleared value).take 4 ++ value.drop 4 := by
    have hdrop : (cleared value).drop 4 = value.drop 4 := by
      rw [cleared, List.drop_succ_cons, List.drop_succ_cons, List.drop_succ_cons, List.drop_drop]
    rw [← hdrop, List.take_append_drop]
  rw [encode_of_decode h, ← Utf8.dropMark_eq_self_iff]
  exact ⟨fun heq => List.append_cancel_left (heq.trans hsplit), fun heq => by rw [heq, ← hsplit]⟩

end ErrorCode

namespace Builder

variable {b : Builder}

def Operation.addErrorCode (e : ErrorCode) (key : Key) : Operation :=
  .add ((Attribute.errorCode e).draft key)

theorem Holds.add_errorCode {h : Header} {body : List UInt8} (hb : b.Holds h body) (e : ErrorCode)
    (key : Key) (hroom : b.length + (attributeHeaderSize + padded e.size) < headerSize + 2 ^ 16) :
    (b.add ((Attribute.errorCode e).draft key)).result = .ok [] := by
  rw [hb.length_eq] at hroom
  have hbody : body.length + (attributeHeaderSize + padded (Attribute.errorCode e).length) <
      2 ^ 16 := by
    rw [Attribute.length]
    omega
  obtain ⟨w, body', -, hok, -⟩ := add_wire key hb rfl hbody
  exact hok

end Builder

namespace Message

open Builder

theorem decodeAt_errorCode_span {m : Message} {before after : List UInt8} {r : Record}
    {e : ErrorCode} {key : Key} {site : Builder} (hm : m.bytes = before ++ (r.encode ++ after))
    (hr : r.Writes ((Attribute.errorCode e).draft key) site) (key' : Key) :
    ∃ found, m.decodeAt .errorCode key' (r.span before.length) = .ok (.errorCode found) ∧
      found.code = e.code ∧ found.reason = Utf8.unmarked e.reason := by
  have hvalue : m.value (r.span before.length) = e.encode :=
    (value_span hm).trans (hr.value_wire rfl)
  obtain ⟨found, hfound, hcode, hreason⟩ := e.decode_encode
  refine ⟨found, ?_, hcode, hreason⟩
  rw [decodeAt, hvalue, hfound]
  rfl

/-- An error code that is added between framed runs, where there is room for it, is found at its
span with the same code and the reason without its mark: the same error code, unless its reason
starts with a mark. Any value that is decoded is encoded again without the bits that are not looked
at and without the mark: unchanged but for these bits, unless its reason starts with a mark. -/
theorem errorCode_but_for_mark {messageClass : MessageClass} {number : Number} {id : TransactionId}
    {b : Builder} (hb : create messageClass number id = .ok b) {before after : List Operation}
    (hbefore : ∀ op ∈ before, op.framed) (hafter : ∀ op ∈ after, op.framed) (e : ErrorCode)
    (key key' : Key)
    (hroom : (b.after before).length + (attributeHeaderSize + padded e.size) < headerSize + 2 ^ 16)
    {limit : Number}
    (hlimit : limit.Admits (b.additions (before ++ .addErrorCode e key :: after)).length) :
    (∃ bytes m s found,
      ((b.after before).perform (.addErrorCode e key)).result = .ok (.notes []) ∧
      (b.after (before ++ .addErrorCode e key :: after)).finish.result = .ok bytes ∧
      parse limit bytes = .ok m ∧ m.spans[(b.additions before).length]? = some s ∧
      s.type = Kind.errorCode.code ∧ m.decodeAt .errorCode key' s = .ok (.errorCode found) ∧
      found.code = e.code ∧ found.reason = Utf8.unmarked e.reason ∧
      (found.reason = e.reason ↔ e.reason.toList.head? ≠ some Utf8.mark)) ∧
    ∀ value found, ErrorCode.decode value = .ok found →
      found.encode = (ErrorCode.cleared value).take 4 ++ Utf8.dropMark (value.drop 4) ∧
      (found.encode = ErrorCode.cleared value ↔ ¬ Utf8.byteOrderMark <+: value.drop 4) := by
  refine ⟨?_, fun value found h =>
    ⟨ErrorCode.encode_of_decode h, ErrorCode.encode_of_decode_eq_cleared_iff h⟩⟩
  obtain ⟨method, -, rfl⟩ := create_eq_ok_iff.1 hb
  have hops : ∀ op ∈ before ++ .addErrorCode e key :: after, op.framed :=
    List.forall_mem_append.2 ⟨hbefore, List.forall_mem_cons.2 ⟨rfl, hafter⟩⟩
  obtain ⟨w, rs', hsite, -, -⟩ :=
    (holds_fresh messageClass method id).after_framed (by simp) hbefore
  have hok := hsite.add_errorCode e key hroom
  obtain ⟨h, rs, -, -, -, hlen, hfinish, hlaid⟩ := finish_after_framed messageClass method id hops
  rw [hlaid.length_eq] at hlimit
  have hadded : ((fresh messageClass method id).additions
      (before ++ .addErrorCode e key :: after))[
        ((fresh messageClass method id).additions before).length]? =
      some ⟨(fresh messageClass method id).after before, (Attribute.errorCode e).draft key⟩ := by
    rw [additions_append, Operation.addErrorCode, additions_add_of_ok hok]
    simp
  obtain ⟨before', r, after', w', -, -, hwrites, -, hm, hspan⟩ := hlaid.locate hadded
  have hparse := parse_encode hlen hlimit
  obtain ⟨found, hfound, hcode, hreason⟩ := decodeAt_errorCode_span
    (m := ⟨(h.encode ++ rs.flatMap Record.encode).toArray, h, Record.spans headerSize rs⟩)
    hm hwrites key'
  refine ⟨_, _, _, found, ?_, hfinish, hparse, hspan, ?_, hfound, hcode, hreason, ?_⟩
  · rw [Operation.addErrorCode, perform, hok]
    rfl
  · exact (BitVec.eq_of_toNat_eq (Int.ofNat_inj.1 (Number.integer.inj hwrites.type))).symm
  · rw [hreason]
    exact Utf8.unmarked_eq_self_iff

/-- Unauthorized, with a mark in front of the reason. -/
def markedReason : ErrorCode := ⟨401, "\ufeffHi", by decide, by decide⟩

theorem errorCode_but_for_mark_unauthorized :
    ∃ bytes m s found, ((fresh .error 1 ⟨123⟩).after
        [.setDeclaredLength (.integer 7), .addErrorCode markedReason ⟨[]⟩]).finish.result =
        .ok bytes ∧
      parse (.integer 1) bytes = .ok m ∧ m.spans[0]? = some s ∧
      m.decodeAt .errorCode ⟨[]⟩ s = .ok (.errorCode found) ∧ found.code = 401 ∧
      found.reason = "Hi" := by
  have hnew : create .error (.integer 1) ⟨123⟩ = .ok (fresh .error 1 ⟨123⟩) :=
    create_eq_ok_iff.2 ⟨1, rfl, rfl⟩
  have hbefore : ∀ op ∈ [Operation.setDeclaredLength (.integer 7)], op.framed := by
    simp [Operation.framed]
  have hafter : ∀ op ∈ ([] : List Operation), op.framed := List.forall_mem_nil _
  have hroom : ((fresh .error 1 ⟨123⟩).after [.setDeclaredLength (.integer 7)]).length +
      (attributeHeaderSize + padded markedReason.size) < headerSize + 2 ^ 16 := by decide
  have hlimit : (Number.integer 1).Admits ((fresh .error 1 ⟨123⟩).additions
      ([.setDeclaredLength (.integer 7)] ++ .addErrorCode markedReason ⟨[]⟩ :: [])).length := by
    decide +kernel
  obtain ⟨⟨bytes, m, s, found, -, hfinish, hparse, hspan, -, hdecode, hcode, hreason, -⟩, -⟩ :=
    errorCode_but_for_mark hnew hbefore hafter markedReason ⟨[]⟩ ⟨[]⟩ hroom hlimit
  exact ⟨bytes, m, s, found, hfinish, hparse, hspan, hdecode, hcode, hreason.trans (by decide)⟩

/-- The reason does not come back as it was given, nor is its value written again. -/
theorem errorCode_loses_mark :
    ∃ bytes m s found,
      ((fresh .error 1 ⟨123⟩).after [.addErrorCode markedReason ⟨[]⟩]).finish.result = .ok bytes ∧
      parse (.integer 64) bytes = .ok m ∧ m.spans = [s] ∧
      m.decodeAt .errorCode ⟨[]⟩ s = .ok (.errorCode found) ∧ found.reason = "Hi" ∧
      found.reason ≠ markedReason.reason ∧ found.encode ≠ ErrorCode.cleared (m.value s) := by
  let h : Header := ⟨.error, 1, 16, ⟨123⟩⟩
  let r : Record := ⟨Kind.errorCode.code, markedReason.encode, [0, 0, 0], by decide, rfl⟩
  let m : Message := ⟨(h.encode ++ [r].flatMap Record.encode).toArray, h, [r.span headerSize]⟩
  have hfinish : ((fresh .error 1 ⟨123⟩).after
      [.addErrorCode markedReason ⟨[]⟩]).finish.result = .ok m.bytes := by decide +kernel
  have hparse : parse (.integer 64) m.bytes = .ok m := parse_encode rfl (by decide)
  have hvalue : m.value (r.span headerSize) = markedReason.encode := by decide
  obtain ⟨found, hfound, -, hreason⟩ := markedReason.decode_encode
  have hfound : m.decodeAt .errorCode ⟨[]⟩ (r.span headerSize) = .ok (.errorCode found) := by
    rw [decodeAt, hvalue, hfound]
    rfl
  have hunmarked : found.reason = "Hi" := hreason.trans (by decide)
  refine ⟨_, m, _, found, hfinish, hparse, rfl, hfound, hunmarked, ?_, ?_⟩
  · rw [hunmarked]
    decide
  · intro heq
    have hsize := congrArg List.length heq
    rw [hvalue, ErrorCode.length_encode, ErrorCode.size, hunmarked] at hsize
    exact absurd hsize (by decide)

end Message

end Stun
