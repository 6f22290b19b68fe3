import Mathlib.Logic.ExistsUnique
import Stun.Proofs.AddressText
import Stun.Proofs.HeaderCodec

/-!
# Integers and transaction ids

The integers from zero up to below `2 ^ 96` and the transaction ids are in bijection: twelve bytes are
the id of the integer that they are in big-endian order. The text of an id is the same integer in
hexadecimal, so comparing ids byte by byte, comparing their texts and comparing the integers come to
the same. Other integers are refused, and an id goes through a header unchanged.
-/
namespace Stun

namespace BigEndian

/-- Puts bytes in front of others, the last one first: each takes the low eight bits of the number,
which then moves down by eight. -/
def fill : (count n : Nat) → List UInt8 → List UInt8
  | 0, _, bytes => bytes
  | count + 1, n, bytes => fill count (n >>> 8) (UInt8.ofNat (n &&& 0xff) :: bytes)

theorem encode_concat (width n : Nat) :
    encode (width + 1) n = encode width (n / 256) ++ [UInt8.ofNat n] := by
  induction width with
  | zero => simp [encode]
  | succ width ih =>
    have hfirst : n / 256 ^ (width + 1) = n / 256 / 256 ^ width := by
      rw [Nat.div_div_eq_div_mul, Nat.pow_succ, Nat.mul_comm]
    rw [encode, ih, hfirst]
    rfl

theorem fill_eq_encode_append (count n : Nat) (bytes : List UInt8) :
    fill count n bytes = encode count n ++ bytes := by
  induction count generalizing n bytes with
  | zero => rfl
  | succ count ih =>
    have hmoved : n >>> 8 = n / 256 := Nat.shiftRight_eq_div_pow n 8
    have hlow : n &&& 0xff = n % 256 := Nat.and_two_pow_sub_one_eq_mod n 8
    have hbyte : UInt8.ofNat (n % 256) = UInt8.ofNat n := by
      apply UInt8.toNat_inj.1
      simp
    rw [fill, ih, encode_concat, hmoved, hlow, hbyte, List.append_assoc, List.singleton_append]

end BigEndian

namespace Hex

theorem length_flatMap_ofByte (bytes : List UInt8) :
    (bytes.flatMap ofByte).length = 2 * bytes.length := by
  induction bytes with
  | nil => rfl
  | cons b bytes ih =>
    rw [List.flatMap_cons, List.length_append, ih, List.length_cons]
    exact Nat.add_comm 2 _

theorem ofByte_digits (b : UInt8) : ∀ c ∈ ofByte b, c ∈ Ip.digitCharacters := by
  have hb : b.toNat < 256 := b.toNat_lt
  intro c hc
  obtain rfl | rfl := List.mem_pair.1 hc
  · exact (Ip.idxOf_digitChar _ (by omega)).1
  · exact (Ip.idxOf_digitChar _ (by omega)).1

theorem numeral_flatMap_ofByte (bytes : List UInt8) :
    Ip.numeral 16 (bytes.flatMap ofByte) = BigEndian.decode bytes := by
  induction bytes using List.reverseRecOn with
  | nil => rfl
  | append_singleton bytes b ih =>
    have hb : b.toNat < 256 := b.toNat_lt
    have hhigh := (Ip.idxOf_digitChar (b.toNat / 16) (by omega)).2
    have hlow := (Ip.idxOf_digitChar (b.toNat % 16) (by omega)).2
    have hsplit : (bytes ++ [b]).flatMap ofByte =
        bytes.flatMap ofByte ++ [Nat.digitChar (b.toNat / 16)] ++ [Nat.digitChar (b.toNat % 16)] := by
      simp [ofByte]
    rw [hsplit, Ip.numeral_concat, Ip.numeral_concat, ih, hhigh, hlow, BigEndian.decode_append,
      BigEndian.decode_cons, BigEndian.decode_nil, List.length_singleton, List.length_nil]
    omega

/-- The text of bytes is the number that they are, with zeros in front up to two digits a byte. -/
theorem ofBytes_eq_padded {bytes : List UInt8} (hpos : 0 < bytes.length) :
    ofBytes bytes = padded (2 * bytes.length) (BigEndian.decode bytes) := by
  have hlt : BigEndian.decode bytes < 16 ^ (2 * bytes.length) := by
    rw [Nat.pow_mul]
    exact BigEndian.decode_lt bytes
  have hfew : (digits (BigEndian.decode bytes)).length ≤ 2 * bytes.length :=
    (Nat.length_toDigits_le_iff (by decide) (by omega)).2 hlt
  obtain ⟨-, hdigits, -, hvalue⟩ := Ip.shortest_digits (BigEndian.decode bytes)
  refine congrArg String.ofList (Ip.eq_of_numeral_eq (fun c hc => ?_) ?_ ?_ ?_)
  · obtain ⟨b, -, hc⟩ := List.mem_flatMap.1 hc
    exact ofByte_digits b c hc
  · refine List.forall_mem_append.2 ⟨fun c hc => ?_, hdigits⟩
    rw [List.eq_of_mem_replicate hc]
    decide
  · rw [length_flatMap_ofByte, List.length_append, List.length_replicate]
    omega
  · rw [numeral_flatMap_ofByte, Ip.numeral_zeros_append, hvalue]

end Hex

/-- The integer that a quantity is, given as a number or at any size. -/
def Quantity.toInt? : Quantity → Option Int
  | .number (.integer n) => some n
  | .number _ => none
  | .integer n => some n

namespace TransactionId

variable {q : Quantity} {n : Int} {id id' : TransactionId} {bytes : List UInt8}

theorem eq_of_value_eq (h : id.value.toNat = id'.value.toNat) : id = id' :=
  congrArg mk (BitVec.eq_of_toNat_eq h)

theorem toBytes_eq_iff : id.toBytes = id'.toBytes ↔ id = id' := by
  refine ⟨fun h => eq_of_value_eq ?_, congrArg toBytes⟩
  rw [← decode_toBytes, h, decode_toBytes]

theorem beq_iff_toBytes_eq : (id == id') = true ↔ id.toBytes = id'.toBytes := by
  have hlen : id.toBytes.length = id'.toBytes.length := by rw [length_toBytes, length_toBytes]
  refine List.all_eq_true.trans ⟨fun h => ?_, fun h => ?_⟩
  · refine List.ext_getElem hlen fun i hi hi' => ?_
    have hbyte := h (id.toBytes[i], i) (List.mk_mem_zipIdx_iff_getElem?.2 (List.getElem?_eq_getElem hi))
    rw [beq_iff_eq, List.getElem?_eq_getElem hi'] at hbyte
    exact (Option.some.inj hbyte).symm
  · rintro ⟨byte, place⟩ hmem
    rw [beq_iff_eq, ← h]
    exact List.mk_mem_zipIdx_iff_getElem?.1 hmem

instance : LawfulBEq TransactionId where
  eq_of_beq h := toBytes_eq_iff.1 (beq_iff_toBytes_eq.1 h)
  rfl := beq_iff_toBytes_eq.2 rfl

theorem text_eq_padded (id : TransactionId) : id.text = Hex.padded 24 id.value.toNat := by
  have hpos : 0 < id.toBytes.length := by
    rw [length_toBytes]
    decide
  rw [text, Hex.ofBytes_eq_padded hpos, length_toBytes, decode_toBytes]

theorem numeral_text (id : TransactionId) : Ip.numeral 16 id.text.toList = id.value.toNat := by
  rw [text, Hex.ofBytes, String.toList_ofList, Hex.numeral_flatMap_ofByte, decode_toBytes]

theorem text_eq_iff : id.text = id'.text ↔ id = id' := by
  refine ⟨fun h => eq_of_value_eq ?_, congrArg text⟩
  rw [← numeral_text, h, numeral_text]

theorem ofBytes_eq_ok_iff : ofBytes bytes = .ok id ↔ id.toBytes = bytes := by
  constructor
  · intro h
    by_cases hlen : bytes.length = size
    · rw [ofBytes, if_pos hlen] at h
      rw [← Except.ok.inj h, toBytes_mk_decode hlen]
    · rw [ofBytes, if_neg hlen] at h
      cases h
  · rintro rfl
    have hlen : id.toBytes.length = size := id.length_toBytes
    rw [ofBytes, if_pos hlen, decode_toBytes, BitVec.ofNat_toNat]
    rfl

/-- Numbers that are no integers are refused first; an integer makes an id if it fits, in whichever
form it is given. -/
theorem ofQuantity_cases (q : Quantity) :
    (∃ x, q.toInt? = none ∧ ofQuantity q = .error (.range (.notIntegral x))) ∨
    ∃ n, q.toInt? = some n ∧
      ofQuantity q = (fitInt? 96 n).elim (.error (.conversion q 96)) fun word => .ok ⟨word⟩ := by
  cases q with
  | number x =>
    cases x with
    | integer n =>
      refine .inr ⟨n, rfl, ?_⟩
      simp only [ofQuantity, ofNumber, Number.fit, Number.fit?]
      cases fitInt? 96 n <;> rfl
    | fraction => exact .inl ⟨_, rfl, rfl⟩
    | infinity => exact .inl ⟨_, rfl, rfl⟩
    | nan => exact .inl ⟨_, rfl, rfl⟩
  | integer n =>
    refine .inr ⟨n, rfl, ?_⟩
    simp only [ofQuantity, ofInt, fitInt]
    cases fitInt? 96 n <;> rfl

theorem ofQuantity_of_toInt? (hq : q.toInt? = some n) :
    ofQuantity q = (fitInt? 96 n).elim (.error (.conversion q 96)) fun word => .ok ⟨word⟩ := by
  obtain ⟨x, hnone, -⟩ | ⟨m, hm, heq⟩ := ofQuantity_cases q
  · rw [hq] at hnone
    cases hnone
  · obtain rfl : n = m := Option.some.inj (hq.symm.trans hm)
    exact heq

theorem ofQuantity_eq_ok_iff : ofQuantity q = .ok id ↔ q.toInt? = some (id.value.toNat : Int) := by
  obtain ⟨x, hnone, herror⟩ | ⟨n, hn, heq⟩ := ofQuantity_cases q
  · rw [hnone, herror]
    simp
  · obtain ⟨value⟩ := id
    rw [heq, hn, Option.some.injEq, ← fitInt?_eq_some_iff]
    cases fitInt? 96 n <;> simp

theorem ofQuantity_of_inside (hq : q.toInt? = some n) (hnonneg : 0 ≤ n) (hlt : n < 2 ^ 96) :
    ∃ id, ofQuantity q = .ok id ∧ n = id.value.toNat := by
  have hword : fitInt? 96 n = some (BitVec.ofInt 96 n) := if_pos ⟨hnonneg, hlt⟩
  refine ⟨⟨BitVec.ofInt 96 n⟩, ?_, fitInt?_eq_some_iff.1 hword⟩
  rw [ofQuantity_of_toInt? hq, hword]
  rfl

theorem ofQuantity_of_outside (hq : q.toInt? = some n) (hn : n < 0 ∨ 2 ^ 96 ≤ n) :
    ofQuantity q = .error (.conversion q 96) := by
  have hword : fitInt? 96 n = none := if_neg (by omega)
  rw [ofQuantity_of_toInt? hq, hword]
  rfl

/-- The integers from zero up to below `2 ^ 96`, given either way, make ids: the twelve bytes of the
integer in big-endian order, filled in from the last one, with its hexadecimal digits as the text. All
other integers are refused with the width. Any twelve bytes are the id of one such integer and of no
other. Ids are equal byte by byte exactly if the integers are equal, and exactly if their texts are.
An id that is written in a header is read from it, whatever stands behind the header. -/
theorem integers_name_ids :
    (∀ (q : Quantity) n, q.toInt? = some n →
      (0 ≤ n → n < 2 ^ 96 → ∃ id, ofQuantity q = .ok id ∧ id.toBytes.length = 12 ∧
        BigEndian.decode id.toBytes = n ∧ id.toBytes = BigEndian.fill 12 n.toNat [] ∧
        id.text = Hex.padded 24 n.toNat) ∧
      (n < 0 ∨ 2 ^ 96 ≤ n → ofQuantity q = .error (.conversion q 96))) ∧
    (∀ bytes : List UInt8, bytes.length = 12 → ∃ id, ofBytes bytes = .ok id ∧ id.toBytes = bytes ∧
      ∃! n : Int, 0 ≤ n ∧ n < 2 ^ 96 ∧ ∀ q, ofQuantity q = .ok id ↔ q.toInt? = some n) ∧
    (∀ (q q' : Quantity) n n' id id', q.toInt? = some n → q'.toInt? = some n' →
      ofQuantity q = .ok id → ofQuantity q' = .ok id' →
      ((id == id') = true ↔ n = n') ∧ (n = n' ↔ id.text = id'.text)) ∧
    ∀ id messageClass (method length : Number), method.Within 12 → length.Within 16 →
      ∃ bytes, Header.build messageClass method id length = .ok bytes ∧ ∀ rest,
        (∀ n : Nat, length = .integer n → n % 4 = 0 → ∃ h, Header.decode (bytes ++ rest) = .ok h) ∧
        ∀ h, Header.decode (bytes ++ rest) = .ok h → h.transactionId = id := by
  refine ⟨fun q n hq => ⟨fun hnonneg hlt => ?_, ofQuantity_of_outside hq⟩, fun bytes hlen => ?_,
    fun q q' n n' id id' hq hq' hid hid' => ?_, fun id messageClass method length hm hl => ?_⟩
  · obtain ⟨id, hid, rfl⟩ := ofQuantity_of_inside hq hnonneg hlt
    refine ⟨id, hid, id.length_toBytes, congrArg _ id.decode_toBytes, ?_, id.text_eq_padded⟩
    rw [BigEndian.fill_eq_encode_append, List.append_nil]
    rfl
  · obtain ⟨id, hid⟩ : ∃ id, ofBytes bytes = .ok id := ⟨_, if_pos hlen⟩
    have hvalue : (id.value.toNat : Int) < 2 ^ 96 := by exact_mod_cast id.value.isLt
    refine ⟨id, hid, ofBytes_eq_ok_iff.1 hid, id.value.toNat,
      ⟨Int.natCast_nonneg _, hvalue, fun q => ofQuantity_eq_ok_iff⟩, ?_⟩
    rintro n ⟨-, -, hn⟩
    exact Option.some.inj (ofQuantity_eq_ok_iff.1 ((hn (.integer n)).2 rfl))
  · obtain rfl : n = id.value.toNat := Option.some.inj (hq.symm.trans (ofQuantity_eq_ok_iff.1 hid))
    obtain rfl : n' = id'.value.toNat :=
      Option.some.inj (hq'.symm.trans (ofQuantity_eq_ok_iff.1 hid'))
    have hvalue : (id.value.toNat : Int) = id'.value.toNat ↔ id = id' :=
      ⟨fun h => eq_of_value_eq (Int.ofNat_inj.1 h), fun h => h ▸ rfl⟩
    rw [hvalue, text_eq_iff]
    exact ⟨beq_iff_eq, Iff.rfl⟩
  · obtain ⟨h, hbuild, -, -, hlength, rfl⟩ :=
      @Header.build_of_within messageClass method length id hm hl
    refine ⟨h.encode, hbuild, fun rest => ⟨fun n hn haligned => ⟨h, ?_⟩, fun h' hd => ?_⟩⟩
    · have hdeclared : h.length.toNat = n :=
        Int.ofNat_inj.1 (Number.integer.inj (hlength.symm.trans hn))
      exact Header.decode_encode (hdeclared ▸ haligned) rest
    · rw [Header.eq_of_decode_encode hd]

theorem integers_name_ids_largest :
    ∃ id id' bytes, ofQuantity (.integer (2 ^ 96 - 1)) = .ok id ∧
      id.text = "ffffffffffffffffffffffff" ∧ ofQuantity (.number (.integer 123)) = .ok id' ∧
      ¬ (id == id') = true ∧ Header.build .request (.integer 1) id (.integer 8) = .ok bytes ∧
      ∃ h, Header.decode (bytes ++ [0xff]) = .ok h ∧ h.transactionId = id := by
  obtain ⟨hinside, -, hequal, hheader⟩ := integers_name_ids
  obtain ⟨id, hid, -, -, -, htext⟩ :=
    (hinside (.integer (2 ^ 96 - 1)) _ rfl).1 (by decide) (by decide)
  obtain ⟨id', hid', -⟩ := (hinside (.number (.integer 123)) _ rfl).1 (by decide) (by decide)
  obtain ⟨bytes, hbytes, hread⟩ := hheader id .request (.integer 1) (.integer 8)
    ⟨1, rfl, by decide⟩ ⟨8, rfl, by decide⟩
  obtain ⟨h, hd⟩ := (hread [0xff]).1 8 rfl rfl
  refine ⟨id, id', bytes, hid, htext.trans (by decide), hid', fun hsame => ?_, hbytes, h, hd,
    (hread [0xff]).2 h hd⟩
  exact absurd ((hequal _ _ _ _ _ _ rfl rfl hid hid').1.1 hsame) (by decide)

end TransactionId

end Stun
