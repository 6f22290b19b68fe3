import Stun.Crc32

/-!
# What the checksum is, and what it detects

Reading a byte through the table is eight turns of the register, so the checksum is that of the
bits in their order, and does not depend on how the data is cut into chunks. A turn is linear and
loses nothing, and up to 32 bits can be put into the register all at once before it is turned. So
two texts of one length that differ in some bits, all of them within 32 consecutive positions, never
have the same checksum.
-/
namespace Stun

namespace Crc32

theorem shift_xor (a b : BitVec 32) : shift (a ^^^ b) = shift a ^^^ shift b := by
  have hcancel (x y : BitVec 32) : x ^^^ y = polynomial ^^^ x ^^^ (polynomial ^^^ y) := by
    rw [BitVec.xor_comm polynomial x, BitVec.xor_assoc, ← BitVec.xor_assoc polynomial,
      BitVec.xor_self, BitVec.zero_xor]
  simp only [shift, BitVec.getLsbD_xor, BitVec.ushiftRight_xor_distrib]
  cases a.getLsbD 0 <;> cases b.getLsbD 0 <;> simp only [Bool.xor_false, Bool.xor_true,
    Bool.not_false, Bool.not_true, Bool.false_eq_true, if_true, if_false]
  · ac_rfl
  · ac_rfl
  · exact hcancel _ _

theorem shifts_xor (n : Nat) (a b : BitVec 32) :
    shifts n (a ^^^ b) = shifts n a ^^^ shifts n b := by
  induction n generalizing a b with
  | zero => rfl
  | succ n ih => rw [shifts, shift_xor, ih, shifts, shifts]

/-- The bit that leaves the register comes back as the highest bit of the polynomial. -/
theorem shift_eq_zero {c : BitVec 32} (h : shift c = 0) : c = 0 := by
  unfold shift at h
  split at h
  next =>
    have htop := congrArg (BitVec.getLsbD · 31) h
    rw [BitVec.getLsbD_xor, BitVec.getLsbD_ushiftRight, BitVec.getLsbD_of_ge c _ (by decide)] at htop
    exact absurd htop (by decide)
  next hlow =>
    apply BitVec.eq_of_getLsbD_eq
    intro i _
    cases i with
    | zero => simpa using hlow
    | succ i =>
      have hbit := congrArg (BitVec.getLsbD · i) h
      rw [BitVec.getLsbD_ushiftRight, Nat.add_comm] at hbit
      exact hbit.trans (by simp)

theorem shift_injective {a b : BitVec 32} (h : shift a = shift b) : a = b := by
  have hzero : shift (a ^^^ b) = 0 := by rw [shift_xor, h, BitVec.xor_self]; rfl
  exact BitVec.xor_eq_zero_iff.1 (shift_eq_zero hzero)

theorem shifts_injective (n : Nat) {a b : BitVec 32} (h : shifts n a = shifts n b) : a = b := by
  induction n generalizing a b with
  | zero => exact h
  | succ n ih => exact shift_injective (ih h)

/-- As long as zeros leave the register, it is only moved. -/
theorem shifts_of_low_zero {n : Nat} {c : BitVec 32} (h : ∀ i < n, c.getLsbD i = false) :
    shifts n c = c >>> n := by
  induction n generalizing c with
  | zero => rfl
  | succ n ih =>
    have hfirst : shift c = c >>> 1 := by rw [shift, h 0 (by omega)]; rfl
    rw [shifts, hfirst, ih, ← BitVec.shiftRight_add, Nat.add_comm]
    intro i hi
    rw [BitVec.getLsbD_ushiftRight, h (1 + i) (by omega)]

def word (bits : List Bool) : BitVec 32 := (BitVec.ofBoolListLE bits).setWidth 32

theorem getLsbD_word (bits : List Bool) {i : Nat} (hi : i < 32) :
    (word bits).getLsbD i = bits.getD i false := by
  simp [word, hi]

theorem word_cons (bit : Bool) (bits : List Bool) :
    word (bit :: bits) = word [bit] ^^^ word bits <<< 1 := by
  apply BitVec.eq_of_getLsbD_eq
  intro i hi
  rw [BitVec.getLsbD_xor, BitVec.getLsbD_shiftLeft, getLsbD_word _ hi, getLsbD_word _ hi]
  cases i with
  | zero => simp
  | succ i => rw [Nat.add_sub_cancel, getLsbD_word _ (by omega)]; simp [hi]

theorem word_injective {bits bits' : List Bool} (hlen : bits.length = bits'.length)
    (hbits : bits.length ≤ 32) (h : word bits = word bits') : bits = bits' := by
  apply List.ext_getElem hlen
  intro i hi hi'
  have hbit := congrArg (BitVec.getLsbD · i) h
  rw [getLsbD_word _ (by omega), getLsbD_word _ (by omega), List.getD_eq_getElem?_getD,
    List.getD_eq_getElem?_getD, List.getElem?_eq_getElem hi, List.getElem?_eq_getElem hi'] at hbit
  exact hbit

theorem shift_word {bits : List Bool} (hbits : bits.length < 32) :
    shift (word bits <<< 1) = word bits := by
  have hmoved := shifts_of_low_zero (n := 1) (c := word bits <<< 1) (by simp)
  rw [shifts, shifts] at hmoved
  rw [hmoved]
  apply BitVec.eq_of_getLsbD_eq
  intro i hi
  rw [BitVec.getLsbD_ushiftRight, BitVec.getLsbD_shiftLeft, Nat.add_sub_cancel_left]
  by_cases htop : i < 31
  · simp [show 1 + i < 32 by omega]
  -- The bit that the first move drops was none of the given ones.
  · have hnone : (word bits).getLsbD i = false := by
      rw [getLsbD_word _ hi, List.getD_eq_getElem?_getD, List.getElem?_eq_none (by omega)]
      rfl
    simp [hnone]

theorem feed_eq_shift (c : BitVec 32) (bit : Bool) : feed c bit = shift (c ^^^ word [bit]) := by
  have hlow : (c ^^^ word [bit]).getLsbD 0 = (c.getLsbD 0 ^^ bit) := by
    rw [BitVec.getLsbD_xor, getLsbD_word _ (by decide)]
    rfl
  have hrest : (c ^^^ word [bit]) >>> 1 = c >>> 1 := by
    have hgone : word [bit] >>> 1 = 0 := by cases bit <;> rfl
    rw [BitVec.ushiftRight_xor_distrib, hgone]
    exact BitVec.xor_zero
  rw [feed, shift, hlow, hrest]

/-- Bits can be put into the register all at once. -/
theorem foldl_feed {bits : List Bool} (hbits : bits.length ≤ 32) (c : BitVec 32) :
    bits.foldl feed c = shifts bits.length (c ^^^ word bits) := by
  induction bits generalizing c with
  | nil => exact BitVec.xor_zero.symm
  | cons bit bits ih =>
    rw [List.length_cons] at hbits
    calc (bit :: bits).foldl feed c
        = shifts bits.length (shift (c ^^^ word [bit]) ^^^ word bits) := by
          rw [List.foldl_cons, ih (by omega), feed_eq_shift]
      _ = shifts bits.length (shift (c ^^^ word [bit] ^^^ word bits <<< 1)) := by
          rw [shift_xor (c ^^^ word [bit]), shift_word (by omega)]
      _ = shifts (bits.length + 1) (c ^^^ word (bit :: bits)) := by
          rw [shifts, word_cons bit bits, BitVec.xor_assoc]

theorem feed_injective {bit : Bool} {c c' : BitVec 32} (h : feed c bit = feed c' bit) : c = c' := by
  rw [feed_eq_shift, feed_eq_shift] at h
  exact BitVec.xor_left_inj _ |>.1 (shift_injective h)

theorem foldl_feed_injective {bits : List Bool} {c c' : BitVec 32}
    (h : bits.foldl feed c = bits.foldl feed c') : c = c' := by
  induction bits generalizing c c' with
  | nil => exact h
  | cons bit bits ih => exact feed_injective (ih h)

theorem length_bits (b : UInt8) : (bits b).length = 8 := by
  rw [bits, List.length_map, List.length_range]

theorem word_bits (b : UInt8) : word (bits b) = b.toBitVec.setWidth 32 := by
  apply BitVec.eq_of_getLsbD_eq
  intro i hi
  rw [getLsbD_word _ hi, BitVec.getLsbD_setWidth]
  by_cases hbyte : i < 8
  · simp [bits, hbyte, hi]
  · simp [bits, hbyte, BitVec.getLsbD_of_ge b.toBitVec i (by omega)]

theorem get_table (i : BitVec 8) : table.get i.toFin = shifts 8 (i.setWidth 32) := by
  rw [← BitVec.ofNat_toNat]
  exact Vector.getElem_ofFn i.isLt

theorem xor_byte (c : BitVec 32) (b : BitVec 8) :
    c ^^^ b.setWidth 32 = (BitVec.truncate 8 c ^^^ b).setWidth 32 ^^^ (c >>> 8) <<< 8 := by
  apply BitVec.eq_of_getLsbD_eq
  intro i hi
  by_cases hbyte : i < 8
  · simp [hbyte, hi]
  · have hsum : 8 + (i - 8) = i := by omega
    simp [hbyte, hi, hsum, BitVec.getLsbD_of_ge b i (by omega)]

theorem shifts_high (c : BitVec 32) : shifts 8 ((c >>> 8) <<< 8) = c >>> 8 := by
  rw [shifts_of_low_zero]
  · apply BitVec.eq_of_getLsbD_eq
    intro i hi
    by_cases htop : 8 + i < 32
    · simp [htop]
    · simp [htop, BitVec.getLsbD_of_ge c (8 + i) (by omega)]
  · intro i hi
    simp [hi]

/-- A step through the table takes the bits of the byte into the register. -/
theorem step_eq_foldl (c : BitVec 32) (b : UInt8) : step c b = (bits b).foldl feed c := by
  have hlen : (bits b).length ≤ 32 := by rw [length_bits]; decide
  rw [foldl_feed hlen, length_bits, word_bits, xor_byte, shifts_xor, shifts_high, step, get_table]

theorem foldl_step (data : List UInt8) (c : BitVec 32) :
    data.foldl step c = (data.flatMap bits).foldl feed c := by
  induction data generalizing c with
  | nil => rfl
  | cons b data ih => rw [List.foldl_cons, List.flatMap_cons, List.foldl_append, ih, step_eq_foldl]

theorem checksum_eq_bitwise (data : List UInt8) : checksum data = bitwise data := by
  rw [checksum, update, foldl_step]
  rfl

theorem update_append (crc : BitVec 32) (data tail : List UInt8) :
    update crc (data ++ tail) = update (update crc data) tail := by
  rw [update, update, update, List.foldl_append, BitVec.not_not]

theorem foldl_update (crc : BitVec 32) (chunks : List (List UInt8)) :
    chunks.foldl update crc = update crc chunks.flatten := by
  induction chunks generalizing crc with
  | nil => exact BitVec.not_not.symm
  | cons chunk chunks ih => rw [List.foldl_cons, List.flatten_cons, ih, update_append]

/-- One bit goes through a register that is kept as a number. -/
def turn (c : Nat) (bit : Bool) : Nat :=
  if c.testBit 0 ≠ bit then 0xEDB88320 ^^^ c / 2 else c / 2

/-- The reflected checksum in plain numbers: all bits of the data, the least significant one of each
byte first, go one by one through a register that starts with ones and is complemented at the end. -/
def reflected (data : List UInt8) : Nat :=
  (data.flatMap fun b => (List.range 8).map b.toNat.testBit).foldl turn 0xFFFFFFFF ^^^ 0xFFFFFFFF

theorem toNat_feed (c : BitVec 32) (bit : Bool) : (feed c bit).toNat = turn c.toNat bit := by
  have hlow : c.getLsbD 0 = c.toNat.testBit 0 := rfl
  have hmoved : (c >>> 1).toNat = c.toNat / 2 := by
    rw [BitVec.toNat_ushiftRight, Nat.shiftRight_eq_div_pow, Nat.pow_one]
  unfold feed turn
  rw [hlow]
  by_cases hbit : c.toNat.testBit 0 = bit
  · rw [if_neg (by simp [hbit]), if_neg (by simp [hbit]), hmoved]
  · rw [if_pos (by simpa using hbit), if_pos hbit, BitVec.toNat_xor, hmoved]
    rfl

theorem toNat_foldl_feed (input : List Bool) (c : BitVec 32) :
    (input.foldl feed c).toNat = input.foldl turn c.toNat := by
  induction input generalizing c with
  | nil => rfl
  | cons bit input ih => rw [List.foldl_cons, List.foldl_cons, ih, toNat_feed]

theorem toNat_bitwise (data : List UInt8) : (bitwise data).toNat = reflected data := by
  have hones : ((data.flatMap bits).foldl feed 0xFFFFFFFF ^^^ BitVec.allOnes 32).toNat =
      reflected data := by
    rw [BitVec.toNat_xor, toNat_foldl_feed]
    rfl
  rwa [BitVec.xor_allOnes] at hones

/-- Data that comes in chunks has the checksum of the whole, however it is cut: the one that the bits
leave behind one by one. -/
theorem foldl_update_eq_reflected (chunks : List (List UInt8)) :
    (chunks.foldl update 0).toNat = reflected chunks.flatten ∧
      chunks.foldl update 0 = checksum chunks.flatten ∧
      ∀ chunks' : List (List UInt8), chunks'.flatten = chunks.flatten →
        chunks'.foldl update 0 = chunks.foldl update 0 := by
  have hwhole (chunks : List (List UInt8)) : chunks.foldl update 0 = checksum chunks.flatten :=
    foldl_update 0 chunks
  refine ⟨?_, hwhole chunks, fun chunks' hsame => ?_⟩
  · rw [hwhole, checksum_eq_bitwise, toNat_bitwise]
  · rw [hwhole, hwhole, hsame]

/-- The text `123456789`, cut in three. -/
example : [[0x31, 0x32, 0x33], [], [0x34, 0x35, 0x36, 0x37, 0x38, 0x39]].foldl update 0 =
    0xCBF43926 := by
  decide +kernel

theorem length_flatMap_bits (data : List UInt8) : (data.flatMap bits).length = 8 * data.length := by
  induction data with
  | nil => rfl
  | cons b data ih =>
    rw [List.flatMap_cons, List.length_append, length_bits, ih, List.length_cons]
    omega

/-- Bit `j` of byte `i`, the least significant one first. Outside the data all bits are zero. -/
def bitAt (data : List UInt8) (i j : Nat) : Bool := (data.getD i 0).toBitVec.getLsbD j

theorem getElem?_flatMap_bits {data : List UInt8} {i j : Nat} (hi : i < data.length) (hj : j < 8) :
    (data.flatMap bits)[8 * i + j]? = some (bitAt data i j) := by
  induction data generalizing i with
  | nil => simp at hi
  | cons b data ih =>
    rw [List.flatMap_cons]
    cases i with
    | zero =>
      rw [List.getElem?_append_left (by rw [length_bits]; omega)]
      simp [bits, bitAt, hj]
    | succ i =>
      have hnext : 8 * (i + 1) + j - (bits b).length = 8 * i + j := by rw [length_bits]; omega
      rw [List.getElem?_append_right (by rw [length_bits]; omega), hnext]
      exact ih (by simpa using hi)

/-- All bits in which the two differ lie within 32 consecutive positions. -/
def Burst (data data' : List UInt8) : Prop :=
  ∃ p, ∀ i j, j < 8 → bitAt data i j ≠ bitAt data' i j → p ≤ 8 * i + j ∧ 8 * i + j < p + 32

theorem Burst.of_bytes {data data' : List UInt8} (k : Nat)
    (h : ∀ i, data.getD i 0 ≠ data'.getD i 0 → k ≤ i ∧ i < k + 4) : Burst data data' := by
  refine ⟨8 * k, fun i j hj hbit => ?_⟩
  obtain ⟨hfrom, hto⟩ := h i fun hbyte => hbit (by rw [bitAt, bitAt, hbyte])
  omega

/-- Whatever was read before, bits that differ within 32 positions leave different registers. -/
theorem foldl_feed_ne {bits bits' : List Bool} (hlen : bits.length = bits'.length) (p : Nat)
    (h : ∀ k, bits[k]? ≠ bits'[k]? → p ≤ k ∧ k < p + 32) (hne : bits ≠ bits') (c : BitVec 32) :
    bits.foldl feed c ≠ bits'.foldl feed c := by
  have hbefore : bits.take p = bits'.take p := by
    apply List.ext_getElem?
    intro k
    rw [List.getElem?_take, List.getElem?_take]
    split
    next hk => exact Decidable.not_not.1 fun hdiffer => by have := h k hdiffer; omega
    next => rfl
  have hbehind : (bits.drop p).drop 32 = (bits'.drop p).drop 32 := by
    apply List.ext_getElem?
    intro k
    rw [List.drop_drop, List.drop_drop, List.getElem?_drop, List.getElem?_drop]
    exact Decidable.not_not.1 fun hdiffer => by have := h _ hdiffer; omega
  have hsplit (bits : List Bool) :
      bits = bits.take p ++ ((bits.drop p).take 32 ++ (bits.drop p).drop 32) := by
    rw [List.take_append_drop, List.take_append_drop]
  have hsize (bits : List Bool) : ((bits.drop p).take 32).length ≤ 32 := List.length_take_le 32 _
  have hwindow : ((bits.drop p).take 32).length = ((bits'.drop p).take 32).length := by
    rw [List.length_take, List.length_take, List.length_drop, List.length_drop, hlen]
  intro heq
  rw [hsplit bits, hsplit bits', hbefore, hbehind, List.foldl_append, List.foldl_append,
    List.foldl_append, List.foldl_append] at heq
  -- What follows the window keeps the registers apart, and so does the window itself.
  have hturned := foldl_feed_injective heq
  rw [foldl_feed (hsize bits), foldl_feed (hsize bits'), hwindow] at hturned
  have hword := (BitVec.xor_right_inj _).1 (shifts_injective _ hturned)
  have hmiddle := word_injective hwindow (hsize bits) hword
  apply hne
  rw [hsplit bits, hsplit bits', hbefore, hbehind, hmiddle]

theorem bits_injective {b b' : UInt8} (h : bits b = bits b') : b = b' := by
  have hword := congrArg word h
  rw [word_bits, word_bits] at hword
  have hbyte := congrArg (BitVec.setWidth 8) hword
  simp only [BitVec.setWidth_setWidth_of_le _ (show 8 ≤ 32 by decide), BitVec.setWidth_eq] at hbyte
  exact UInt8.toBitVec_inj.1 hbyte

theorem flatMap_bits_injective {data data' : List UInt8} (hlen : data.length = data'.length)
    (h : data.flatMap bits = data'.flatMap bits) : data = data' := by
  induction data generalizing data' with
  | nil => exact (List.length_eq_zero_iff.1 hlen.symm).symm
  | cons b data ih =>
    cases data' with
    | nil => cases hlen
    | cons b' data' =>
      rw [List.flatMap_cons, List.flatMap_cons] at h
      obtain ⟨hfirst, hrest⟩ := List.append_inj h (by rw [length_bits, length_bits])
      rw [bits_injective hfirst, ih (Nat.succ.inj hlen) hrest]

/-- A burst is always detected. -/
theorem checksum_ne_of_burst {data data' : List UInt8} (hlen : data.length = data'.length)
    (hburst : Burst data data') (hne : data ≠ data') : checksum data ≠ checksum data' := by
  obtain ⟨p, hp⟩ := hburst
  have hwindow : ∀ k, (data.flatMap bits)[k]? ≠ (data'.flatMap bits)[k]? → p ≤ k ∧ k < p + 32 := by
    intro k hdiffer
    have hk : k = 8 * (k / 8) + k % 8 := (Nat.div_add_mod k 8).symm
    have hbit : k % 8 < 8 := Nat.mod_lt k (by decide)
    by_cases hi : k / 8 < data.length
    · rw [hk] at hdiffer ⊢
      rw [getElem?_flatMap_bits hi hbit, getElem?_flatMap_bits (hlen ▸ hi) hbit] at hdiffer
      exact hp _ _ hbit fun hsame => hdiffer (congrArg some hsame)
    · refine absurd ?_ hdiffer
      rw [List.getElem?_eq_none (by rw [length_flatMap_bits]; omega),
        List.getElem?_eq_none (by rw [length_flatMap_bits]; omega)]
  have hbits : data.flatMap bits ≠ data'.flatMap bits := fun h => hne (flatMap_bits_injective hlen h)
  have hsize : (data.flatMap bits).length = (data'.flatMap bits).length := by
    rw [length_flatMap_bits, length_flatMap_bits, hlen]
  intro h
  rw [checksum, checksum, update, update, foldl_step, foldl_step, BitVec.not_inj] at h
  exact foldl_feed_ne hsize p hwindow hbits _ h

end Crc32

end Stun
