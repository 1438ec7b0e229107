import PulseFlow.Decimal.Shortest

/-!
# Decimal numerals

The text form of a real number: a sign, digits with at most one point among or around them, and a
power of ten.  A numeral stands for the double nearest to it.
-/

namespace PulseFlow.Decimal

structure Numeral where
  negative : Bool
  magnitude : Scientific
deriving DecidableEq, Repr

/-- The number that a list of digits spells. -/
def ofDigits (ds : List Char) : Nat :=
  ds.foldl (fun n c => 10 * n + (c.toNat - '0'.toNat)) 0

/-- Splits a sign off; without one the number is not negative. -/
def takeSign : List Char → Bool × List Char
  | '-' :: rest => (true, rest)
  | '+' :: rest => (false, rest)
  | cs => (false, cs)

/-- Splits the leading digits off. -/
def takeDigits (cs : List Char) : List Char × List Char :=
  (cs.takeWhile Char.isDigit, cs.dropWhile Char.isDigit)

/-- Reads an exponent that ends the text; an empty text is the exponent zero. -/
def readExponent? : List Char → Option Int
  | [] => some 0
  | c :: rest =>
    if c = 'e' ∨ c = 'E' then
      let (negative, ds) := takeSign rest
      if ds ≠ [] ∧ ds.all Char.isDigit then
        some (if negative then -(ofDigits ds : Int) else ofDigits ds)
      else none
    else none

/-- Reads a numeral that is the whole text. -/
def Numeral.read? (cs : List Char) : Option Numeral :=
  let (negative, cs) := takeSign cs
  let (whole, cs) := takeDigits cs
  let (fraction, cs) := match cs with
    | '.' :: rest => takeDigits rest
    | _ => ([], cs)
  if whole = [] ∧ fraction = [] then none
  else (readExponent? cs).map fun e =>
    ⟨negative, ofDigits (whole ++ fraction), e - fraction.length⟩

/-- Powers of ten beyond this one are out of the range of doubles for any first digit. -/
def farPower : Int := 400

/-- The double nearest to a numeral, found without ever forming a power of ten out of range. -/
def Numeral.toFloat (n : Numeral) : Float :=
  let c := n.magnitude.coefficient
  let e := n.magnitude.exponent
  let k : Int := (digitsOf c).length + e
  if c = 0 ∨ k < -farPower then nearest n.negative 0 1
  else if farPower < k then nearest n.negative (tenTo farPower.toNat) 1
  else if 0 ≤ e then nearest n.negative (c * tenTo e.toNat) 1
  else nearest n.negative c (tenTo (-e).toNat)

end PulseFlow.Decimal
