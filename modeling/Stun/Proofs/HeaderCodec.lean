import Mathlib.Tactic.SplitIfs
import Stun.Header

/-!
# Reading and writing headers

`Header.decode` takes the bytes whose first twenty are sound and reads the fields at their places.
What `Header.encode` writes is sound when the declared length is a multiple of four, and reads back
as the same header. Declaring another length changes the two bytes of that field only.
-/
namespace Stun

namespace Header

/-- The length that the bytes declare at the place of the length field. -/
def declared (data : List UInt8) : Nat := BigEndian.decode ((data.drop 2).take 2)

/-- The first twenty bytes are a header. -/
structure Sound (data : List UInt8) : Prop where
  size_le : headerSize ≤ data.length
  leading_bits : (data.getD 0 0).toNat < 2 ^ 6
  cookie : (data.drop 4).take 4 = [0x21, 0x12, 0xa4, 0x42]
  aligned : declared data % 4 = 0

/-- The fields at their places, whatever the bytes are. -/
def read (data : List UInt8) : Header where
  messageClass := (MessageType.ofCode (Bytes.field data 0 2)).messageClass
  method := (MessageType.ofCode (Bytes.field data 0 2)).method
  length := BitVec.ofNat 16 (declared data)
  transactionId := ⟨BitVec.ofNat 96 (BigEndian.decode ((data.drop 8).take TransactionId.size))⟩

theorem declared_lt (data : List UInt8) : declared data < 2 ^ 16 := by
  have hlt := BigEndian.decode_lt ((data.drop 2).take 2)
  have hle : ((data.drop 2).take 2).length ≤ 2 := List.length_take_le 2 _
  exact Nat.lt_of_lt_of_le hlt (Nat.pow_le_pow_right (by decide) hle)

@[simp] theorem toNat_length_read (data : List UInt8) :
    (read data).length.toNat = declared data := by
  rw [read, BitVec.toNat_ofNat, Nat.mod_eq_of_lt (declared_lt data)]

theorem leading_bits_iff {data : List UInt8} (hsize : headerSize ≤ data.length) :
    Bytes.field data 0 2 < 2 ^ 14 ↔ (data.getD 0 0).toNat < 2 ^ 6 := by
  match data, hsize with
  | high :: low :: rest, _ =>
    have hlow := low.toNat_lt
    have hfield : Bytes.field (high :: low :: rest) 0 2 = high.toNat * 256 + low.toNat := by
      simp [Bytes.field, BigEndian.decode_cons]
    rw [hfield, List.getD_cons_zero]
    omega
  | [_], h => simp [headerSize] at h
  | [], h => simp [headerSize] at h

theorem cookie_iff {data : List UInt8} (hsize : headerSize ≤ data.length) :
    Bytes.field data 4 4 = magicCookie ↔ (data.drop 4).take 4 = [0x21, 0x12, 0xa4, 0x42] := by
  have hlen : ((data.drop 4).take 4).length = 4 := by
    simp only [List.length_take, List.length_drop, headerSize] at *
    omega
  constructor
  · intro h
    have hbytes := BigEndian.encode_decode ((data.drop 4).take 4)
    rw [hlen] at hbytes
    rw [← hbytes]
    exact congrArg (BigEndian.encode 4) h
  · intro h
    rw [Bytes.field, h]
    rfl

theorem decode_of_sound {data : List UInt8} (h : Sound data) : decode data = .ok (read data) := by
  have htype := (leading_bits_iff h.size_le).2 h.leading_bits
  have hcookie := (cookie_iff h.size_le).2 h.cookie
  have hlength : Bytes.field data 2 2 % 4 = 0 := h.aligned
  have hid : ((data.drop 8).take TransactionId.size).length = TransactionId.size := by
    have := h.size_le
    simp only [List.length_take, List.length_drop, headerSize, TransactionId.size] at *
    omega
  have hsize := h.size_le
  simp only [decode, TransactionId.ofBytes]
  rw [if_neg (by omega), if_neg (by omega), if_neg (by simpa using hcookie), if_neg (by simpa using hlength),
    if_pos hid]
  rfl

theorem sound_of_decode {data : List UInt8} {h : Header} (hd : decode data = .ok h) :
    Sound data := by
  simp only [decode] at hd
  split_ifs at hd with hsize htype hcookie hlength
  have hsize' : headerSize ≤ data.length := Nat.le_of_not_lt hsize
  exact ⟨hsize', (leading_bits_iff hsize').1 (by omega),
    (cookie_iff hsize').1 (Decidable.not_not.1 hcookie), Decidable.not_not.1 hlength⟩

/-- A header is refused only because the bytes are no message. -/
theorem decode_error {data : List UInt8} {e : Error} (hd : decode data = .error e) :
    ∃ cause, e = .decode cause := by
  simp only [decode, TransactionId.ofBytes] at hd
  split_ifs at hd <;> cases hd <;> exact ⟨_, rfl⟩

@[simp] theorem length_encode (h : Header) : h.encode.length = headerSize := by
  simp [encode, TransactionId.toBytes, TransactionId.size, headerSize]

theorem field_type (h : Header) (rest : List UInt8) :
    Bytes.field (h.encode ++ rest) 0 2 = MessageType.code ⟨h.messageClass, h.method⟩ := by
  have hlt := MessageType.code_lt ⟨h.messageClass, h.method⟩
  have hread : ((h.encode ++ rest).drop 0).take 2 =
      BigEndian.encode 2 (MessageType.code ⟨h.messageClass, h.method⟩) := by
    simp [encode, BigEndian.encode_two]
  rw [Bytes.field, hread, BigEndian.decode_encode_two (by omega)]

theorem declared_encode (h : Header) (rest : List UInt8) :
    declared (h.encode ++ rest) = h.length.toNat := by
  have hread : ((h.encode ++ rest).drop 2).take 2 = BigEndian.encode 2 h.length.toNat := by
    simp [encode, BigEndian.encode_two]
  rw [declared, hread, BigEndian.decode_encode_two h.length.isLt]

theorem encode_magicCookie : BigEndian.encode 4 magicCookie = [0x21, 0x12, 0xa4, 0x42] := by decide

theorem cookie_encode (h : Header) (rest : List UInt8) :
    ((h.encode ++ rest).drop 4).take 4 = [0x21, 0x12, 0xa4, 0x42] := by
  simp [encode, BigEndian.encode_two, encode_magicCookie]

theorem id_encode (h : Header) (rest : List UInt8) :
    ((h.encode ++ rest).drop 8).take TransactionId.size = h.transactionId.toBytes := by
  have hlen : TransactionId.size = h.transactionId.toBytes.length := by
    simp [TransactionId.toBytes]
  rw [hlen]
  simp [encode, BigEndian.encode_two, encode_magicCookie]

theorem read_encode (h : Header) (rest : List UInt8) : read (h.encode ++ rest) = h := by
  have hid : BitVec.ofNat 96 (BigEndian.decode h.transactionId.toBytes) = h.transactionId.value := by
    rw [TransactionId.decode_toBytes, BitVec.ofNat_toNat, BitVec.setWidth_eq]
  rw [read, field_type, declared_encode, id_encode, hid, MessageType.ofCode_code]
  simp

/-- A sound header is written as it was read. -/
theorem encode_read {data : List UInt8} (h : Sound data) :
    (read data).encode = data.take headerSize := by
  have hsize : 20 ≤ data.length := h.size_le
  have hwindow {i n : Nat} (hi : i + n ≤ 20) : ((data.drop i).take n).length = n := by
    rw [List.length_take, List.length_drop]
    omega
  have htype : BigEndian.encode 2 (MessageType.code ⟨(read data).messageClass, (read data).method⟩) =
      (data.drop 0).take 2 := by
    have hcode := MessageType.code_ofCode ((leading_bits_iff h.size_le).2 h.leading_bits)
    have hfield := BigEndian.encode_decode ((data.drop 0).take 2)
    rw [hwindow (by decide)] at hfield
    exact (congrArg _ hcode).trans hfield
  have hlength : BigEndian.encode 2 (read data).length.toNat = (data.drop 2).take 2 := by
    have hfield := BigEndian.encode_decode ((data.drop 2).take 2)
    rwa [hwindow (by decide), ← declared, ← toNat_length_read] at hfield
  have hid : (read data).transactionId.toBytes = (data.drop 8).take 12 :=
    TransactionId.toBytes_mk_decode (hwindow (by decide))
  have hsplit : data.take 20 = (data.drop 0).take 2 ++ (data.drop 2).take 2 ++ (data.drop 4).take 4 ++
      (data.drop 8).take 12 := by
    rw [List.drop_zero, ← List.take_add, ← List.take_add, ← List.take_add]
  rw [encode, htype, hlength, hid, encode_magicCookie, ← h.cookie]
  exact hsplit.symm

theorem sound_encode {h : Header} (haligned : h.length.toNat % 4 = 0) (rest : List UInt8) :
    Sound (h.encode ++ rest) := by
  have hsize : headerSize ≤ (h.encode ++ rest).length := by
    rw [List.length_append, length_encode]
    omega
  refine ⟨hsize, (leading_bits_iff hsize).1 ?_, cookie_encode h rest, ?_⟩
  · rw [field_type]
    exact MessageType.code_lt _
  · rw [declared_encode]
    exact haligned

def redeclare (h : Header) (length : BitVec 16) : Header := { h with length }

@[simp] theorem redeclare_redeclare (h : Header) (w w' : BitVec 16) :
    (h.redeclare w).redeclare w' = h.redeclare w' := rfl

@[simp] theorem redeclare_self (h : Header) : h.redeclare h.length = h := rfl

theorem overlay_encode (h : Header) (w : BitVec 16) (body : List UInt8) :
    Bytes.overlay (h.encode ++ body) 2 (BigEndian.encode 2 w.toNat) =
      (h.redeclare w).encode ++ body := by
  have hsplit := Bytes.overlay_append (BigEndian.encode 2 (MessageType.code ⟨h.messageClass, h.method⟩))
    (BigEndian.encode 2 h.length.toNat) (BigEndian.encode 2 w.toNat)
    (BigEndian.encode 4 magicCookie ++ h.transactionId.toBytes ++ body) (by simp)
  simpa [encode, redeclare, List.append_assoc] using hsplit

theorem take_encode_drop (h : Header) (w : BitVec 16) (body : List UInt8) :
    (h.encode ++ body).take 2 ++ BigEndian.encode 2 w.toNat ++ (h.encode ++ body).drop 4 =
      (h.redeclare w).encode ++ body := by
  simp [encode, redeclare, BigEndian.encode_two]

/-- The declared length stands at two bytes. -/
theorem getElem?_redeclare (h : Header) (w : BitVec 16) (body : List UInt8) {i : Nat}
    (hi : i < 2 ∨ 4 ≤ i) : ((h.redeclare w).encode ++ body)[i]? = (h.encode ++ body)[i]? := by
  rw [← overlay_encode, Bytes.getElem?_overlay, BigEndian.length_encode, if_neg (by omega)]

/-- The three pieces are what the bytes would be behind a header that declares the length. -/
theorem flatten_withDeclaredLength (h : Header) (body : List UInt8) (w : BitVec 16) :
    (withDeclaredLength (h.encode ++ body) (h.encode ++ body).length w).flatten =
      (h.redeclare w).encode ++ body := by
  have hsize : 20 ≤ (h.encode ++ body).length := by
    rw [List.length_append, length_encode]
    exact Nat.le_add_right _ _
  have htype : Bytes.slice (h.encode ++ body) 0 2 =
      BigEndian.encode 2 (MessageType.code ⟨h.messageClass, h.method⟩) := by
    refine (Bytes.slice_of_le _ 0 2 (by omega) (by omega)).trans ?_
    simp [encode, BigEndian.encode_two]
  have hrest : Bytes.slice (h.encode ++ body) 4 (h.encode ++ body).length =
      BigEndian.encode 4 magicCookie ++ h.transactionId.toBytes ++ body := by
    refine (Bytes.slice_of_le _ 4 _ (by omega) (Nat.le_refl _)).trans ?_
    rw [List.take_length]
    simp [encode, BigEndian.encode_two]
  rw [withDeclaredLength, htype, hrest]
  simp [encode, redeclare]

theorem decode_encode {h : Header} (haligned : h.length.toNat % 4 = 0) (rest : List UInt8) :
    decode (h.encode ++ rest) = .ok h := by
  rw [decode_of_sound (sound_encode haligned rest), read_encode]

/-- Reading what was written gives the same header, if it gives one at all. -/
theorem eq_of_decode_encode {h h' : Header} {rest : List UInt8}
    (hd : decode (h.encode ++ rest) = .ok h') : h' = h := by
  rw [decode_of_sound (sound_of_decode hd), read_encode] at hd
  exact (Except.ok.inj hd).symm

theorem encode_of_decode {data : List UInt8} {h : Header} (hd : decode data = .ok h) :
    h.encode = data.take headerSize := by
  have hsound := sound_of_decode hd
  rw [decode_of_sound hsound] at hd
  rw [← Except.ok.inj hd, encode_read hsound]

/-- The bytes of a header with the given numbers. -/
def build (messageClass : MessageClass) (method : Number) (id : TransactionId) (length : Number) :
    Except Error (List UInt8) :=
  (ofNumbers messageClass method id length).map encode

variable {messageClass : MessageClass} {method length : Number} {id : TransactionId}

theorem build_of_within (hmethod : method.Within 12) (hlength : length.Within 16) :
    ∃ h : Header, build messageClass method id length = .ok h.encode ∧
      h.messageClass = messageClass ∧ method = .integer h.method.toNat ∧
      length = .integer h.length.toNat ∧ h.transactionId = id := by
  obtain ⟨m, hm⟩ := Number.exists_fit_iff.2 hmethod
  obtain ⟨l, hl⟩ := Number.exists_fit_iff.2 hlength
  refine ⟨⟨messageClass, m, l, id⟩, ?_, rfl, Number.fit_eq_ok_iff.1 hm, Number.fit_eq_ok_iff.1 hl,
    rfl⟩
  rw [build, ofNumbers, hm, hl]
  rfl

theorem build_of_method_not_within (hmethod : ¬ method.Within 12) :
    build messageClass method id length = .error (.conversion (.number method) 12) := by
  rw [build, ofNumbers, Number.fit_of_not_within hmethod]
  rfl

theorem build_of_length_not_within (hmethod : method.Within 12) (hlength : ¬ length.Within 16) :
    build messageClass method id length = .error (.conversion (.number length) 16) := by
  obtain ⟨m, hm⟩ := Number.exists_fit_iff.2 hmethod
  rw [build, ofNumbers, hm, Number.fit_of_not_within hlength]
  rfl

theorem build_fields (h : Header) :
    build h.messageClass (.integer h.method.toNat) h.transactionId (.integer h.length.toNat) =
      .ok h.encode := by
  rw [build, ofNumbers, Number.fit_toNat, Number.fit_toNat]
  rfl

/-- Building fails with a number that is too wide for its field and with no other, and what it gives
reads back as the same fields, whatever stands behind it. What was read is built again byte for byte,
so the fields of a header determine it. -/
theorem build_and_decode_are_inverse (messageClass : MessageClass) (method length : Number)
    (id : TransactionId) :
    ((∃ value bits, build messageClass method id length = .error (.conversion value bits)) ↔
      ¬ (method.Within 12 ∧ length.Within 16)) ∧
    (method.Within 12 → length.Within 16 → ∃ bytes,
      build messageClass method id length = .ok bytes ∧ bytes.length = headerSize ∧
      ∀ n : Nat, length = .integer n → n % 4 = 0 → ∀ rest, ∃ h, decode (bytes ++ rest) = .ok h ∧
        h.messageClass = messageClass ∧ method = .integer h.method.toNat ∧ h.length.toNat = n ∧
        h.transactionId = id) ∧
    (∀ data h, decode data = .ok h →
      build h.messageClass (.integer h.method.toNat) h.transactionId (.integer h.length.toNat) =
        .ok (data.take headerSize)) ∧
    ∀ data data' h, decode data = .ok h → decode data' = .ok h →
      data.take headerSize = data'.take headerSize := by
  refine ⟨⟨?_, fun hnumbers => ?_⟩, fun hmethod hlength => ?_, fun data h hd => ?_,
    fun data data' h hd hd' => ?_⟩
  · rintro ⟨value, bits, herror⟩ ⟨hmethod, hlength⟩
    obtain ⟨h, hbuild, -⟩ := @build_of_within messageClass method length id hmethod hlength
    rw [hbuild] at herror
    cases herror
  · by_cases hmethod : method.Within 12
    · exact ⟨_, _, build_of_length_not_within hmethod fun hlength => hnumbers ⟨hmethod, hlength⟩⟩
    · exact ⟨_, _, build_of_method_not_within hmethod⟩
  · obtain ⟨h, hbuild, hclass, hm, hl, hid⟩ := build_of_within hmethod hlength
    refine ⟨h.encode, hbuild, h.length_encode, fun n hn haligned rest => ?_⟩
    have hdeclared : h.length.toNat = n := Int.ofNat_inj.1 (Number.integer.inj (hl.symm.trans hn))
    exact ⟨h, decode_encode (hdeclared ▸ haligned) rest, hclass, hm, hdeclared, hid⟩
  · rw [build_fields, encode_of_decode hd]
  · rw [← encode_of_decode hd, encode_of_decode hd']

end Header

end Stun
