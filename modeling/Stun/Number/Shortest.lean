import Stun.Number.Basic

/-!
# The shortest decimal that reads back

A positive binary value `m * 2 ^ q` stands for the interval of reals that round to it. On the grid
of decimals with `k` digits only the two neighbours of the value can lie in the interval, so the
first grid with a hit gives the fewest digits, and the nearer of two hits is taken, the even one
when both are equally near.
-/
namespace Stun.Number

/-- The reals between `low / unit` and `high / unit` round to `middle / unit`; the ends belong to
the interval when it is closed. -/
structure Rounding where
  low : Nat
  middle : Nat
  high : Nat
  unit : Nat
  closed : Bool

/-- The interval of `m * 2 ^ q`. The gap below a power of two is half the gap above it, except at
the least exponent. -/
def Rounding.ofBinary (m : Nat) (q : Int) : Rounding where
  low := (4 * m - if m = 2 ^ 52 ∧ -1074 < q then 1 else 2) * 2 ^ (q - 2).toNat
  middle := 4 * m * 2 ^ (q - 2).toNat
  high := (4 * m + 2) * 2 ^ (q - 2).toNat
  unit := 2 ^ (2 - q).toNat
  closed := m % 2 = 0

/-- Writes `n / 2 ^ h` with 53 significant bits, or fewer at the least exponent. -/
def Rounding.ofRatio (n h : Nat) : Rounding :=
  let q : Int := max ((n.log2 : Int) - h - 52) (-1074)
  let shift := -h - q
  ofBinary (n * 2 ^ shift.toNat / 2 ^ (-shift).toNat) q

variable (r : Rounding)

def Rounding.contains (d : Nat) (p : Int) : Bool :=
  let n := d * 10 ^ p.toNat * r.unit
  let scale := 10 ^ (-p).toNat
  if r.closed then decide (r.low * scale ≤ n ∧ n ≤ r.high * scale)
  else decide (r.low * scale < n ∧ n < r.high * scale)

def digitCount (n : Nat) : Nat := (Nat.toDigits 10 n).length

/-- The exponent `e` with `10 ^ e ≤ middle / unit < 10 ^ (e + 1)`. -/
def Rounding.leading : Int :=
  if r.unit ≤ r.middle then digitCount (r.middle / r.unit) - 1
  else -digitCount ((r.unit - 1) / r.middle)

/-- The nearest decimal in the interval among the two neighbours on the grid `10 ^ p`. -/
def Rounding.onGrid? (p : Int) : Option Nat :=
  let n := r.middle * 10 ^ (-p).toNat
  let scale := r.unit * 10 ^ p.toNat
  let below := n / scale
  let twice := 2 * (n % scale)
  let belowFirst := twice < scale ∨ twice = scale ∧ below % 2 = 0
  let candidates := if belowFirst then [below, below + 1] else [below + 1, below]
  candidates.find? (r.contains · p)

/-- The value `0.d₁d₂… * 10 ^ point`, with no zero at the end of the digits. -/
structure Decimal where
  digits : List Char
  point : Int

def Decimal.ofScaled (d : Nat) (p : Int) : Decimal :=
  let digits := Nat.toDigits 10 d
  ⟨(digits.reverse.dropWhile (· = '0')).reverse, digits.length + p⟩

def Rounding.shortest : Decimal :=
  let grid (k : Nat) : Int := r.leading - k
  let onGrid? (k : Nat) := (r.onGrid? (grid k)).map (Decimal.ofScaled · (grid k))
  ((List.range 17).findSome? onGrid?).getD ⟨[], 0⟩

end Stun.Number
