/-!
# Numbers as callers give them

A number is a binary64 value kept exactly: an integer, a dyadic fraction in lowest terms, an
infinity, or the invalid value. There is one zero. Only integers can fill a field of a message, so
the field checks read off the first case.
-/
namespace Stun

/-- A binary64 value; `fraction m h` is `m / 2 ^ (h + 1)` with `m` odd. -/
inductive Number
  | integer (value : Int)
  | fraction (numerator : Int) (halvings : Nat) (odd : numerator % 2 = 1)
  | infinity (negative : Bool)
  | nan
deriving DecidableEq, Repr

namespace Number

/-- The value `m / 2 ^ h` in lowest terms. -/
def ratio (m : Int) : Nat → Number
  | 0 => .integer m
  | h + 1 => if odd : m % 2 = 1 then .fraction m h odd else ratio (m / 2) h

def ofBits (bits : UInt64) : Number :=
  let mantissa := bits.toNat % 2 ^ 52
  let exponent := bits.toNat / 2 ^ 52 % 2 ^ 11
  let negative := decide (2 ^ 63 ≤ bits.toNat)
  let signed (n : Nat) : Int := if negative then -n else n
  if exponent = 2047 then
    if mantissa = 0 then .infinity negative else .nan
  else
    let significand := if exponent = 0 then mantissa else mantissa + 2 ^ 52
    let scale := max exponent 1
    if 1075 ≤ scale then .integer (signed (significand * 2 ^ (scale - 1075)))
    else ratio (signed significand) (1075 - scale)

/-- Whether a count has come up to a limit; the invalid value limits nothing. -/
def reachedBy : Number → Nat → Bool
  | .integer n, count => decide (n ≤ count)
  | .fraction m h _, count => decide (m ≤ count * 2 ^ (h + 1))
  | .infinity negative, _ => negative
  | .nan, _ => false

end Number

end Stun
