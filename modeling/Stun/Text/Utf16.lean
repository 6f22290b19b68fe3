/-!
# UTF-16

Reads a sequence of 16-bit units as text. A surrogate pair is one character; a surrogate without
its other half becomes U+FFFD.
-/
namespace Stun.Utf16

def isHigh (u : UInt16) : Bool := decide (0xd800 ≤ u ∧ u < 0xdc00)

def isLow (u : UInt16) : Bool := decide (0xdc00 ≤ u ∧ u < 0xe000)

def replacement : Char := '\ufffd'

/-- The character of a surrogate pair. -/
def pair (high low : UInt16) : Char :=
  Char.ofNat (0x10000 + (high.toNat - 0xd800) * 0x400 + (low.toNat - 0xdc00))

/-- The character of a unit on its own. -/
def single (u : UInt16) : Char := if isHigh u || isLow u then replacement else Char.ofNat u.toNat

def characters : List UInt16 → List Char
  | [] => []
  | [u] => [single u]
  | u :: v :: rest =>
    if isHigh u && isLow v then pair u v :: characters rest
    else single u :: characters (v :: rest)

def decode (units : List UInt16) : String := String.ofList (characters units)

end Stun.Utf16
