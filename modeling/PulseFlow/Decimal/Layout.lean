import PulseFlow.Decimal.Shortest

/-!
# Ways to write a double

The digits are those of `shortest`; a `Layout` decides how they are set out: which numbers are
written positionally, whether a whole number keeps a point, and whether a positive exponent has a
sign.
-/

namespace PulseFlow.Decimal

structure Layout where
  /-- Whether a number whose leading digit stands for `10 ^ e` is written without an exponent. -/
  positional : Int → Bool
  /-- Whether a whole number is followed by `.0`. -/
  point : Bool
  /-- Whether a positive exponent is written with a plus sign. -/
  plus : Bool
  tie : Tie

def zeros (n : Nat) : List Char := List.replicate n '0'

/-- Digits `ds` with the point after the first `k` of them, zeros filled in as needed. -/
def positionalText (point : Bool) (ds : List Char) (k : Int) : List Char :=
  if k ≤ 0 then '0' :: '.' :: zeros (-k).toNat ++ ds
  else if ds.length ≤ k.toNat then
    ds ++ zeros (k.toNat - ds.length) ++ (if point then ['.', '0'] else [])
  else ds.take k.toNat ++ '.' :: ds.drop k.toNat

/-- One digit, the rest behind a point, and the power of ten. -/
def exponentText (plus : Bool) (ds : List Char) (e : Int) : List Char :=
  let mantissa := match ds with
    | [] => []
    | [d] => [d]
    | d :: rest => d :: '.' :: rest
  let sign := if e < 0 then ['-'] else if plus then ['+'] else []
  mantissa ++ 'e' :: sign ++ digitsOf e.natAbs

/-- Writes a positive or zero double. -/
def Layout.magnitude (l : Layout) (m : Nat) (q : Int) : List Char :=
  if m = 0 then '0' :: (if l.point then ['.', '0'] else [])
  else
    let d := shortest l.tie m q
    let ds := digitsOf d.coefficient
    let k : Int := ds.length + d.exponent
    if l.positional (k - 1) then positionalText l.point ds k
    else exponentText l.plus ds (k - 1)

def Layout.write (l : Layout) (x : Float) : String :=
  match Binary.ofFloat x with
  | .undefined => "NaN"
  | .infinite negative => if negative then "-inf" else "inf"
  | .finite negative m q =>
    String.ofList (if negative then '-' :: l.magnitude m q else l.magnitude m q)

end PulseFlow.Decimal
