import PulseFlow.Decimal.Binary

/-!
# Shortest decimals

The decimal with the fewest digits that still reads back as a given double.  The reals that round to
m · 2^q form an interval around it, whose ends belong to it when m is even.  For one digit, two
digits and so on the two neighbours of the value on that decimal grid are tried, and the first grid
with a neighbour in the interval gives the answer: the nearer one of two, and of two equally near
ones the one that `Tie` names.
-/

namespace PulseFlow.Decimal

/-- The decimal `coefficient · 10 ^ exponent`. -/
structure Scientific where
  coefficient : Nat
  exponent : Int
deriving DecidableEq, Repr

inductive Tie where
  | up
  | even
deriving DecidableEq, Repr

def digitsOf (n : Nat) : List Char := Nat.toDigits 10 n

/-- The decimal `c · 10 ^ e` as numerator and denominator. -/
def gridPoint (c : Nat) (e : Int) : Nat × Nat :=
  if 0 ≤ e then (c * tenTo e.toNat, 1) else (c, tenTo (-e).toNat)

/-- How many digits stand before the point of `num / den`, counted below zero for small fractions:
the least `k` with `num / den < 10 ^ k`. -/
def pointPosition (num den : Nat) : Int :=
  let k : Int := ((digitsOf num).length : Int) - (digitsOf den).length
  let reaches := if 0 ≤ k then den * tenTo k.toNat ≤ num else den ≤ num * tenTo (-k).toNat
  if reaches then k + 1 else k

/-- The reals that round to a double: numerators over one denominator. -/
structure Interval where
  low : Nat
  value : Nat
  high : Nat
  den : Nat
  closed : Bool

/-- Between the midpoints to the two neighbouring doubles. -/
def Interval.around (m : Nat) (q : Int) : Interval :=
  let below := if m = twoTo 52 ∧ Binary.minExponent < q then 4 * m - 1 else 4 * m - 2
  let scale := if 2 ≤ q then twoTo (q - 2).toNat else 1
  let den := if 2 ≤ q then 1 else twoTo (2 - q).toNat
  ⟨below * scale, 4 * m * scale, (4 * m + 2) * scale, den, m % 2 = 0⟩

def Interval.contains (i : Interval) (num den : Nat) : Bool :=
  let a := i.low * den
  let x := num * i.den
  let b := i.high * den
  if i.closed then a ≤ x && x ≤ b else a < x && x < b

/-- Drops the zeros at the end; `fuel` bounds how many. -/
def Scientific.trim : Nat → Scientific → Scientific
  | 0, d => d
  | fuel + 1, d =>
    if d.coefficient ≠ 0 ∧ d.coefficient % 10 = 0 then
      Scientific.trim fuel ⟨d.coefficient / 10, d.exponent + 1⟩
    else d

/-- The better neighbour of the value on the grid of multiples of `10 ^ e`, if one reads back. -/
def onGrid (tie : Tie) (i : Interval) (e : Int) : Option Scientific :=
  let (gn, gd) := gridPoint 1 e
  let num := i.value * gd
  let den := i.den * gn
  let lower := num / den
  let rest := num % den
  let hits (c : Nat) := i.contains (gridPoint c e).1 (gridPoint c e).2
  let pickLower :=
    2 * rest < den || (2 * rest == den && tie == .even && lower % 2 == 0)
  match hits lower, hits (lower + 1) with
  | true, true => some ⟨if pickLower then lower else lower + 1, e⟩
  | true, false => some ⟨lower, e⟩
  | false, true => some ⟨lower + 1, e⟩
  | false, false => none

/-- Tries grids of more and more digits; seventeen always suffice for a double. -/
def searchGrid (tie : Tie) (i : Interval) (k : Int) : Nat → Nat → Scientific
  | 0, n => (onGrid tie i (k - n)).getD ⟨i.value / i.den, 0⟩
  | fuel + 1, n => (onGrid tie i (k - n)).getD (searchGrid tie i k fuel (n + 1))

/-- The shortest decimal that reads back as `m · 2 ^ q`. -/
def shortest (tie : Tie) (m : Nat) (q : Int) : Scientific :=
  if m = 0 then ⟨0, 0⟩
  else
    let i := Interval.around m q
    let k := pointPosition i.value i.den
    (searchGrid tie i k 17 1).trim 20

end PulseFlow.Decimal
