import Stun.Number.Shortest

/-!
# The text of a number

Numbers appear in error messages in the shortest digits that read back. The layout says from which
size on a number is written with an exponent.
-/
namespace Stun.Number

/-- A decimal is written positionally when its point is at least `lowest` and at most `highest`. -/
structure Layout where
  lowest : Int
  highest : Int
  mark : Char

/-- Positional from 0.000001 up to below 10 ^ 21. -/
def layout : Layout := ⟨-5, 21, 'e'⟩

def Decimal.render (l : Layout) (d : Decimal) : List Char :=
  let zeros (n : Int) := List.replicate n.toNat '0'
  if l.highest < d.point ∨ d.point < l.lowest then
    let exponent := d.point - 1
    let sign := if exponent < 0 then '-' else '+'
    let tail := l.mark :: sign :: Nat.toDigits 10 exponent.natAbs
    match d.digits with
    | [] => []
    | [digit] => digit :: tail
    | digit :: rest => digit :: '.' :: (rest ++ tail)
  else if d.point ≤ 0 then '0' :: '.' :: (zeros (-d.point) ++ d.digits)
  else if d.digits.length ≤ d.point then d.digits ++ zeros (d.point - d.digits.length)
  else d.digits.take d.point.toNat ++ '.' :: d.digits.drop d.point.toNat

/-- The text of `numerator / 2 ^ h`. -/
def ratioText (numerator : Int) (h : Nat) : String :=
  if numerator = 0 then "0"
  else
    let magnitude := ((Rounding.ofRatio numerator.natAbs h).shortest).render layout
    String.ofList (if numerator < 0 then '-' :: magnitude else magnitude)

def text : Number → String
  | .integer n => ratioText n 0
  | .fraction m h _ => ratioText m (h + 1)
  | .infinity negative => if negative then "-Infinity" else "Infinity"
  | .nan => "NaN"

end Stun.Number
