/-!
# Doubles as binary fractions

A finite double is ± m · 2^q with m below 2^53 and q at least -1074.  `Binary.ofFloat` takes a double
apart, `nearest` gives the double nearest to a fraction of natural numbers (a half goes to the even
neighbour), and `remainder` is the exact remainder of a truncated division.
-/

namespace PulseFlow.Decimal

def twoTo (n : Nat) : Nat := Nat.pow 2 n

def tenTo (n : Nat) : Nat := Nat.pow 10 n

inductive Binary where
  | undefined
  | infinite (negative : Bool)
  | finite (negative : Bool) (significand : Nat) (exponent : Int)
deriving DecidableEq, Repr

namespace Binary

/-- The least exponent of a double. -/
def minExponent : Int := -1074

/-- Takes the 64 bits of a double apart. -/
def ofBits (bits : Nat) : Binary :=
  let negative := bits / twoTo 63 % 2 == 1
  let biased : Nat := bits / twoTo 52 % twoTo 11
  let fraction : Nat := bits % twoTo 52
  if biased = 2047 then
    if fraction = 0 then .infinite negative else .undefined
  else if biased = 0 then .finite negative fraction minExponent
  else .finite negative (fraction + twoTo 52) ((biased : Int) - 1075)

def ofFloat (x : Float) : Binary := ofBits x.toBits.toNat

end Binary

def isFinite (x : Float) : Bool :=
  match Binary.ofFloat x with
  | .finite .. => true
  | _ => false

/-- The quotient rounded to the nearest natural number, a half to the even one. -/
def roundHalfEven (num den : Nat) : Nat :=
  let d := num / den
  let r := num % den
  if 2 * r < den then d
  else if 2 * r = den then d + d % 2
  else d + 1

/-- The largest `e` with `2 ^ e ≤ num / den`, for positive `num` and `den`. -/
def floorLog2 (num den : Nat) : Int :=
  let e : Int := (num.log2 : Int) - den.log2
  let fits := if 0 ≤ e then den * twoTo e.toNat ≤ num else den ≤ num * twoTo (-e).toNat
  if fits then e else e - 1

/-- The bits of infinity. -/
def infinityBits : Nat := 2047 * twoTo 52

/-- The bits of the double nearest to `num / den`; what is too large becomes infinity. -/
def nearestBits (num den : Nat) : Nat :=
  if num = 0 then 0
  else
    let q := max (floorLog2 num den - 52) Binary.minExponent
    let m := if 0 ≤ q then roundHalfEven num (den * twoTo q.toNat)
      else roundHalfEven (num * twoTo (-q).toNat) den
    min infinityBits (m + (q - Binary.minExponent).toNat * twoTo 52)

/-- The double nearest to `± num / den`. -/
def nearest (negative : Bool) (num den : Nat) : Float :=
  let bits := nearestBits num den
  Float.ofBits (if negative then bits + twoTo 63 else bits).toUInt64

/-- What is left of `x` after taking away `y` a whole number of times, with the sign of `x`. -/
def remainder (x y : Float) : Float :=
  match Binary.ofFloat x, Binary.ofFloat y with
  | .finite s m q, .finite _ n p =>
    if n = 0 then (0.0 / 0.0)
    else
      let e := min q p
      let r := m * twoTo (q - e).toNat % (n * twoTo (p - e).toNat)
      if 0 ≤ e then nearest s (r * twoTo e.toNat) 1 else nearest s r (twoTo (-e).toNat)
  | .finite .., .infinite _ => x
  | _, _ => (0.0 / 0.0)

end PulseFlow.Decimal
