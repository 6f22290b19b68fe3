import Stun.Error

/-!
# Numbers in fields

A field of `w` bits takes the integers from zero up to below `2 ^ w`. Anything else is refused with
the value and the width, never cut down.
-/
namespace Stun

variable (bits : Nat)

/-- The integer `n` as a word, if it fits. -/
def fitInt? (n : Int) : Option (BitVec bits) :=
  if 0 ≤ n ∧ n < 2 ^ bits then some (BitVec.ofInt bits n) else none

def Number.fit? : Number → Option (BitVec bits)
  | .integer n => fitInt? bits n
  | _ => none

def Number.fit (x : Number) : Except Error (BitVec bits) :=
  match x.fit? bits with
  | some word => .ok word
  | none => .error (.conversion (.number x) bits)

/-- The same check for an integer of any size, which is named in full when it is refused. -/
def fitInt (n : Int) : Except Error (BitVec bits) :=
  match fitInt? bits n with
  | some word => .ok word
  | none => .error (.conversion (.integer n) bits)

variable {bits}

theorem fitInt?_eq_some_iff {n : Int} {word : BitVec bits} :
    fitInt? bits n = some word ↔ n = word.toNat := by
  have hword : (word.toNat : Int) < 2 ^ bits := by exact_mod_cast word.isLt
  unfold fitInt?
  constructor
  · intro h
    split at h
    next hn =>
      cases h
      have hlt : n % (2 ^ bits : Nat) = n := Int.emod_eq_of_lt hn.1 (by exact_mod_cast hn.2)
      rw [BitVec.toNat_ofInt, hlt, Int.toNat_of_nonneg hn.1]
    next => cases h
  · rintro rfl
    rw [if_pos ⟨Int.natCast_nonneg _, hword⟩]
    simp

theorem Number.fit_eq_ok_iff {x : Number} {word : BitVec bits} :
    x.fit bits = .ok word ↔ x = .integer word.toNat := by
  cases x with
  | integer n =>
    rw [fit, fit?, Number.integer.injEq, ← fitInt?_eq_some_iff]
    cases fitInt? bits n <;> simp
  | fraction m h odd => simp [fit, fit?]
  | infinity negative => simp [fit, fit?]
  | nan => simp [fit, fit?]

theorem Number.fit_toNat (word : BitVec bits) : (Number.integer word.toNat).fit bits = .ok word :=
  fit_eq_ok_iff.2 rfl

/-- The numbers that a field takes. -/
def Number.Within (bits : Nat) (x : Number) : Prop := ∃ n : Nat, x = .integer n ∧ n < 2 ^ bits

theorem Number.exists_fit_iff {x : Number} :
    (∃ word : BitVec bits, x.fit bits = .ok word) ↔ x.Within bits := by
  constructor
  · rintro ⟨word, hword⟩
    exact ⟨word.toNat, fit_eq_ok_iff.1 hword, word.isLt⟩
  · rintro ⟨n, rfl, hn⟩
    exact ⟨BitVec.ofNatLT n hn, fit_eq_ok_iff.2 rfl⟩

theorem Number.fit_of_not_within {x : Number} (hx : ¬ x.Within bits) :
    x.fit bits = .error (.conversion (.number x) bits) := by
  unfold fit
  split
  next word hword => exact absurd (exists_fit_iff.1 ⟨word, by rw [fit, hword]⟩) hx
  next => rfl

end Stun
