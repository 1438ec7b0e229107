import PulseFlow.Json.Value
import PulseFlow.Decimal.Numeral

/-!
# Numbers in JSON

A number without point and exponent is whole if it fits 64 bits.  Any other number is a real, read
in two roundings: the digits are collected in 64 bits as long as they fit, the digits after that
count only for their place, and the result is multiplied or divided by a power of ten.
-/

namespace PulseFlow.Json.Number

open Decimal

/-- The largest significand. -/
def maxSignificand : Nat := 18446744073709551615

/-- The largest exponent that is told apart from infinitely many. -/
def maxExponent : Nat := 2147483647

/-- Powers of ten that are doubles. -/
def maxPower : Nat := 308

def powerOfTen (n : Nat) : Float := nearest false (tenTo n) 1

/-- Divides by `10 ^ 308` until the exponent is in reach or nothing is left. -/
def divideDown : Nat → Float → Nat → Float
  | 0, f, _ => f
  | fuel + 1, f, e =>
    if e ≤ maxPower then f / powerOfTen e
    else if f == 0 then f
    else divideDown fuel (f / powerOfTen maxPower) (e - maxPower)

/-- The real `significand · 10 ^ e`. -/
def ofParts (minus : Bool) (significand : Nat) (e : Int) : Number :=
  let f := significand.toUInt64.toFloat
  let signed (x : Float) : Number := .real (if minus then -x else x)
  if e < 0 then signed (divideDown 4 f e.natAbs)
  else if e.natAbs ≤ maxPower then
    let g := f * powerOfTen e.natAbs
    if isFinite g then signed g else .outOfRange
  else if f == 0 then signed f
  else .outOfRange

/-- Digits collected so far: the significand, and whether a digit did not fit any more. -/
structure Digits where
  significand : Nat
  /-- Digits before the point that were left out. -/
  left : Nat
  full : Bool

/-- Adds one digit in front of the point. -/
def Digits.addWhole (d : Digits) (c : Char) : Digits :=
  let n := 10 * d.significand + (c.toNat - '0'.toNat)
  if d.full || n > maxSignificand then { d with left := d.left + 1, full := true }
  else { d with significand := n }

/-- Collects fraction digits while they fit; gives the significand and how many were taken. -/
def takeFraction (significand : Nat) (taken : Nat) : List Char → Nat × Nat
  | [] => (significand, taken)
  | c :: cs =>
    let n := 10 * significand + (c.toNat - '0'.toNat)
    if n > maxSignificand then (significand, taken) else takeFraction n (taken + 1) cs

/-- A whole number, or the nearest real if it does not fit. -/
def ofWhole (minus : Bool) (d : Digits) : Number :=
  if d.full then ofParts minus d.significand d.left
  else if minus then
    if d.significand = 0 ∨ 9223372036854775808 < d.significand then
      .real (-(d.significand.toUInt64.toFloat))
    else .negative (-(d.significand : Int))
  else .natural d.significand

/-- A number with an exponent written with the digits `ds`. -/
def withExponent (minus : Bool) (significand : Nat) (start : Int) (below : Bool)
    (ds : List Char) : Number :=
  let e := ofDigits ds
  if maxExponent < e then
    if significand ≠ 0 ∧ !below then .outOfRange else .real (if minus then -0.0 else 0.0)
  else ofParts minus significand (if below then start - e else start + e)

/-- A number without an exponent; `parts` are its significand and power of ten if it has a point. -/
def finish (minus : Bool) (d : Digits) : Option (Nat × Int) → Number
  | some (s, e) => ofParts minus s e
  | none => ofWhole minus d

def takeMinus : List Char → Bool × List Char
  | '-' :: rest => (true, rest)
  | cs => (false, cs)

/-- The significand and the power of ten that come from digits behind a point, if there is one. -/
def readFraction? (d : Digits) : List Char → Option (Option (Nat × Int) × List Char)
  | '.' :: rest =>
    let (fraction, rest) := takeDigits rest
    if fraction = [] then none
    else
      let (s, taken) := takeFraction d.significand 0 fraction
      some (some (s, (d.left : Int) - taken), rest)
  | cs => some (none, cs)

/-- The number, with its exponent if there is one. -/
def readScale? (minus : Bool) (d : Digits) (parts : Option (Nat × Int)) :
    List Char → Option (Number × List Char)
  | c :: rest =>
    if c = 'e' ∨ c = 'E' then
      let (below, rest) := takeSign rest
      let (ds, rest) := takeDigits rest
      if ds = [] then none
      else
        let (s, e) := parts.getD (d.significand, d.left)
        some (withExponent minus s e below ds, rest)
    else some (finish minus d parts, c :: rest)
  | [] => some (finish minus d parts, [])

/-- Reads a number at the start of a text. -/
def read? (cs : List Char) : Option (Number × List Char) :=
  let (minus, cs) := takeMinus cs
  let (whole, cs) := takeDigits cs
  if whole = [] ∨ (whole.head? = some '0' ∧ 1 < whole.length) then none
  else
    let d := whole.foldl Digits.addWhole ⟨0, 0, false⟩
    (readFraction? d cs).bind fun p => readScale? minus d p.1 p.2

end PulseFlow.Json.Number
