/-!
# Big-endian numerals

All numbers on the wire are written most significant byte first in a fixed number of bytes.
Writing keeps the number modulo the width, and reading undoes it.
-/
-- A power is the same term in modules that import algebra and in those that do not.
attribute [instance (20000), default_instance (20000)] instPowNat

namespace Stun.BigEndian

/-- The low `width` base-256 digits of `n`. -/
def encode : (width n : Nat) → List UInt8
  | 0, _ => []
  | width + 1, n => UInt8.ofNat (n / 256 ^ width) :: encode width n

def decode (bytes : List UInt8) : Nat := bytes.foldl (fun n b => 256 * n + b.toNat) 0

@[simp] theorem length_encode (width n : Nat) : (encode width n).length = width := by
  induction width with
  | zero => rfl
  | succ width ih => simp [encode, ih]

theorem encode_two (n : Nat) : encode 2 n = [UInt8.ofNat (n / 256), UInt8.ofNat n] := by
  simp [encode]

theorem foldl_digit (n : Nat) (bytes : List UInt8) :
    bytes.foldl (fun n b => 256 * n + b.toNat) n = n * 256 ^ bytes.length + decode bytes := by
  induction bytes generalizing n with
  | nil => simp [decode]
  | cons b bytes ih =>
    rw [decode, List.foldl_cons, List.foldl_cons, ih, ih (256 * 0 + b.toNat), List.length_cons,
      Nat.pow_succ, Nat.add_mul, Nat.mul_comm (256 ^ bytes.length) 256, Nat.mul_left_comm,
      Nat.mul_assoc, Nat.mul_zero, Nat.zero_add, Nat.add_assoc, Nat.mul_left_comm]

@[simp] theorem decode_nil : decode [] = 0 := rfl

theorem decode_cons (b : UInt8) (bytes : List UInt8) :
    decode (b :: bytes) = b.toNat * 256 ^ bytes.length + decode bytes := by
  simpa [decode] using foldl_digit b.toNat bytes

theorem decode_append (a b : List UInt8) :
    decode (a ++ b) = decode a * 256 ^ b.length + decode b := by
  rw [decode, List.foldl_append]
  exact foldl_digit (decode a) b

theorem decode_lt (bytes : List UInt8) : decode bytes < 256 ^ bytes.length := by
  induction bytes with
  | nil => simp
  | cons b bytes ih =>
    have hb : b.toNat + 1 ≤ 256 := b.toNat_lt
    have := Nat.mul_le_mul_right (256 ^ bytes.length) hb
    rw [decode_cons, List.length_cons, Nat.pow_succ]
    rw [Nat.add_mul] at this
    omega

theorem decode_two_lt (high low : UInt8) : decode [high, low] < 2 ^ 16 := by
  simpa using decode_lt [high, low]

@[simp] theorem decode_encode (width n : Nat) : decode (encode width n) = n % 256 ^ width := by
  induction width with
  | zero => simp [encode, Nat.mod_one]
  | succ width ih =>
    rw [encode, decode_cons, ih, length_encode, Nat.pow_succ, Nat.mod_mul,
      Nat.mul_comm (256 ^ width), Nat.add_comm]
    rfl

theorem decode_encode_two {n : Nat} (hn : n < 2 ^ 16) : decode (encode 2 n) = n := by
  rw [decode_encode]
  omega

theorem encode_two_inj {m n : Nat} (hm : m < 2 ^ 16) (hn : n < 2 ^ 16)
    (h : encode 2 m = encode 2 n) : m = n := by
  rw [← decode_encode_two hm, h, decode_encode_two hn]

theorem encode_add_mul (width m n : Nat) : encode width (m * 256 ^ width + n) = encode width n := by
  induction width generalizing m with
  | zero => rfl
  | succ width ih =>
    have split : m * 256 ^ (width + 1) + n = (m * 256) * 256 ^ width + n := by
      rw [Nat.pow_succ, Nat.mul_assoc, Nat.mul_comm 256]
    rw [encode, encode, split, ih (m * 256)]
    congr 1
    rw [Nat.add_comm, Nat.add_mul_div_right _ _ (Nat.pow_pos (by decide))]
    apply UInt8.toNat_inj.1
    simp only [UInt8.toNat_ofNat']
    omega

theorem encode_decode (bytes : List UInt8) : encode bytes.length (decode bytes) = bytes := by
  induction bytes with
  | nil => rfl
  | cons b bytes ih =>
    have small := Nat.div_eq_of_lt (decode_lt bytes)
    rw [List.length_cons, encode, decode_cons, encode_add_mul, ih, Nat.add_comm,
      Nat.add_mul_div_right _ _ (Nat.pow_pos (by decide)), small, Nat.zero_add,
      UInt8.ofNat_toNat]

/-- The word that two bytes stand for is written as the two bytes. -/
theorem encode_word (high low : UInt8) :
    encode 2 (BitVec.ofNat 16 (decode [high, low])).toNat = [high, low] := by
  rw [BitVec.toNat_ofNat, Nat.mod_eq_of_lt (decode_two_lt high low)]
  exact encode_decode [high, low]

end Stun.BigEndian
