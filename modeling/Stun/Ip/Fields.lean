/-!
# Fields of an address text

Cutting a text at separators, and the numbers that the pieces stand for. There is always one piece
more than there are separators, and pieces may be empty.
-/
namespace Stun.Ip

def extendFirst (c : Char) : List (List Char) → List (List Char)
  | [] => [[c]]
  | piece :: pieces => (c :: piece) :: pieces

def fields (separator : Char) : List Char → List (List Char)
  | [] => [[]]
  | c :: rest =>
    if c = separator then [] :: fields separator rest
    else extendFirst c (fields separator rest)

/-- The pieces between double colons, taken from the left. -/
def doubleColonFields : List Char → List (List Char)
  | [] => [[]]
  | [c] => [[c]]
  | c :: d :: rest =>
    if c = ':' ∧ d = ':' then [] :: doubleColonFields rest
    else extendFirst c (doubleColonFields (d :: rest))

def hexDigit? (c : Char) : Option Nat :=
  if c.isDigit then some (c.toNat - '0'.toNat)
  else if 'a' ≤ c ∧ c ≤ 'f' then some (c.toNat - 'a'.toNat + 10)
  else if 'A' ≤ c ∧ c ≤ 'F' then some (c.toNat - 'A'.toNat + 10)
  else none

def IsOctetText (text : List Char) : Prop :=
  1 ≤ text.length ∧ text.length ≤ 3 ∧ text.all Char.isDigit

instance (text : List Char) : Decidable (IsOctetText text) := by
  unfold IsOctetText; infer_instance

def decimal (digits : List Char) : Nat :=
  digits.foldl (fun n c => 10 * n + (c.toNat - '0'.toNat)) 0

def octet? (text : List Char) : Option UInt8 :=
  if IsOctetText text ∧ decimal text ≤ 255 then some (UInt8.ofNat (decimal text)) else none

/-- A group of one to four hexadecimal digits. -/
def group? (text : List Char) : Option (BitVec 16) :=
  if 1 ≤ text.length ∧ text.length ≤ 4 then
    (text.mapM hexDigit?).map fun digits => BitVec.ofNat 16 (digits.foldl (16 * · + ·) 0)
  else none

end Stun.Ip
