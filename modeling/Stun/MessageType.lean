import Stun.Field

/-!
# Message types

A message type combines a 12-bit method with a 2-bit class. On the wire the two class bits sit
between the method bits: five method bits, a class bit, three method bits, the other class bit,
four method bits.
-/
namespace Stun

inductive MessageClass
  | request
  | indication
  | success
  | error
deriving DecidableEq, Repr

namespace MessageClass

def code : MessageClass → Nat
  | .request => 0
  | .indication => 1
  | .success => 2
  | .error => 3

/-- The class of the two low bits of a number. -/
def ofCode (n : Nat) : MessageClass :=
  match n % 4 with
  | 0 => .request
  | 1 => .indication
  | 2 => .success
  | _ => .error

theorem code_ofCode (n : Nat) : (ofCode n).code = n % 4 := by
  have hlt : n % 4 < 4 := Nat.mod_lt _ (by decide)
  unfold ofCode
  match n % 4, hlt with
  | 0, _ | 1, _ | 2, _ | 3, _ => rfl

end MessageClass

abbrev Method := BitVec 12

def Method.binding : Method := 1

structure MessageType where
  messageClass : MessageClass
  method : Method
deriving DecidableEq, Repr

namespace MessageType

/-- The 14-bit code, which leaves the two leading bits of the header zero. -/
def code (t : MessageType) : Nat :=
  let m := t.method.toNat
  let c := t.messageClass.code
  m % 16 + c % 2 * 16 + m / 16 % 8 * 32 + c / 2 * 256 + m / 128 * 512

def ofCode (n : Nat) : MessageType where
  messageClass := .ofCode (n / 16 % 2 + n / 256 % 2 * 2)
  method := BitVec.ofNat 12 (n % 16 + n / 32 % 8 * 16 + n / 512 % 32 * 128)

theorem code_lt (t : MessageType) : t.code < 2 ^ 14 := by
  have hm := t.method.isLt
  have hc : t.messageClass.code < 4 := by cases t.messageClass <;> decide
  simp only [code]
  omega

theorem ofCode_code (t : MessageType) : ofCode t.code = t := by
  obtain ⟨c, m⟩ := t
  have hm := m.isLt
  have hmethod : BitVec.ofNat 12 (code ⟨c, m⟩ % 16 + code ⟨c, m⟩ / 32 % 8 * 16 +
      code ⟨c, m⟩ / 512 % 32 * 128) = m := by
    apply BitVec.eq_of_toNat_eq
    rw [BitVec.toNat_ofNat]
    cases c <;> simp only [code, MessageClass.code] <;> omega
  have hclass : MessageClass.ofCode (code ⟨c, m⟩ / 16 % 2 + code ⟨c, m⟩ / 256 % 2 * 2) = c := by
    have hbits : code ⟨c, m⟩ / 16 % 2 + code ⟨c, m⟩ / 256 % 2 * 2 = c.code := by
      cases c <;> simp only [code, MessageClass.code] <;> omega
    rw [hbits]
    cases c <;> rfl
  rw [ofCode, hmethod, hclass]

/-- The digits of a method in the mixed base of the code. -/
theorem method_digits {low middle : Nat} (hlow : low < 16) (hmiddle : middle < 8) (high : Nat) :
    (low + middle * 16 + high * 128) % 16 = low ∧
      (low + middle * 16 + high * 128) / 16 % 8 = middle ∧
      (low + middle * 16 + high * 128) / 128 = high := by
  refine ⟨?_, ?_, ?_⟩ <;> omega

theorem code_ofCode {n : Nat} (hn : n < 2 ^ 14) : (ofCode n).code = n := by
  -- Each digit of the number is divided off the one above it.
  have hdigits : n % 16 + n / 16 % 2 * 16 + n / 32 % 8 * 32 + n / 256 % 2 * 256 + n / 512 * 512 = n := by
    have h₁ : n / 16 / 2 = n / 32 := Nat.div_div_eq_div_mul n 16 2
    have h₂ : n / 32 / 8 = n / 256 := Nat.div_div_eq_div_mul n 32 8
    have h₃ : n / 256 / 2 = n / 512 := Nat.div_div_eq_div_mul n 256 2
    omega
  have hhigh : n / 512 % 32 = n / 512 := Nat.mod_eq_of_lt (by omega)
  have hmethod : (ofCode n).method.toNat = n % 16 + n / 32 % 8 * 16 + n / 512 * 128 := by
    rw [ofCode, hhigh, BitVec.toNat_ofNat, Nat.mod_eq_of_lt (by omega)]
  have hclass : (ofCode n).messageClass.code = n / 16 % 2 + n / 256 % 2 * 2 := by
    rw [ofCode, MessageClass.code_ofCode, Nat.mod_eq_of_lt (by omega)]
  have hclassLow : (n / 16 % 2 + n / 256 % 2 * 2) % 2 = n / 16 % 2 := by omega
  have hclassHigh : (n / 16 % 2 + n / 256 % 2 * 2) / 2 = n / 256 % 2 := by omega
  obtain ⟨hmethodLow, hmethodMiddle, hmethodHigh⟩ :=
    method_digits (Nat.mod_lt n (by decide)) (Nat.mod_lt (n / 32) (by decide)) (n / 512)
  rw [code, hmethod, hclass, hmethodLow, hmethodMiddle, hmethodHigh, hclassLow, hclassHigh]
  exact hdigits

end MessageType

end Stun
