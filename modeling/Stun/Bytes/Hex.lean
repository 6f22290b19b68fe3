/-!
# Hexadecimal text

Lowercase digits, of a number without leading zeros or to a least width, and of bytes at two
digits each.
-/
namespace Stun.Hex

def digits (n : Nat) : List Char := Nat.toDigits 16 n

def text (n : Nat) : String := String.ofList (digits n)

def padded (width n : Nat) : String :=
  String.ofList (List.replicate (width - (digits n).length) '0' ++ digits n)

def ofByte (b : UInt8) : List Char := [Nat.digitChar (b.toNat / 16), Nat.digitChar (b.toNat % 16)]

def ofBytes (bytes : List UInt8) : String := String.ofList (bytes.flatMap ofByte)

end Stun.Hex
