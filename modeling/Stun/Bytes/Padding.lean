/-!
# Padding

Attribute values are padded to a multiple of four bytes.
-/
namespace Stun

def padded (n : Nat) : Nat := (n + 3) / 4 * 4

theorem le_padded (n : Nat) : n ≤ padded n := by unfold padded; omega

theorem padded_mod_four (n : Nat) : padded n % 4 = 0 := by unfold padded; omega

/-- The same rounding in signed 32-bit arithmetic, which wraps. -/
def paddedInt32 (n : Int32) : Int32 := (n + 3) &&& ~~~3

theorem toNat_and_not_three (x : BitVec 32) : (x &&& ~~~3).toNat = x.toNat / 4 * 4 := by
  have hones : ~~~(3 : BitVec 32) ||| 3 = BitVec.allOnes 32 := by decide
  have hjoin : (x &&& ~~~3) ||| (x &&& 3) = x := by
    rw [← BitVec.and_or_distrib_left, hones, BitVec.and_allOnes]
  have hdisjoint : (x &&& ~~~3) &&& (x &&& 3) = 0 := by
    rw [BitVec.and_comm x 3, ← BitVec.and_assoc, BitVec.and_assoc x, BitVec.not_and_self]
    simp
  have hsum := congrArg BitVec.toNat (BitVec.add_eq_or_of_and_eq_zero _ _ hdisjoint)
  rw [hjoin, BitVec.toNat_add_of_and_eq_zero hdisjoint] at hsum
  have hlow : (x &&& 3).toNat = x.toNat % 4 := Nat.and_two_pow_sub_one_eq_mod x.toNat 2
  omega

/-- The two roundings agree where nothing wraps. -/
theorem toInt_paddedInt32 {n : Nat} (hn : n + 3 < 2 ^ 31) :
    (paddedInt32 (Int32.ofNat n)).toInt = padded n := by
  change ((BitVec.ofNat 32 n + 3) &&& ~~~3).toInt = _
  have hsum : (BitVec.ofNat 32 n + 3).toNat = n + 3 := by
    rw [BitVec.toNat_add, BitVec.toNat_ofNat]
    change (n % 2 ^ 32 + 3) % 2 ^ 32 = n + 3
    omega
  have hvalue : ((BitVec.ofNat 32 n + 3) &&& ~~~3).toNat = padded n := by
    rw [toNat_and_not_three, hsum, padded]
  have hle : padded n ≤ n + 3 := Nat.div_mul_le_self (n + 3) 4
  rw [BitVec.toInt_eq_toNat_of_lt (by omega), hvalue]

end Stun
