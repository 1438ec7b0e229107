import PulseFlow.Signal.Basic

/-!
# Arithmetic and comparison of signals

Every operation gives an answer for all operands.  Two integers are computed exactly, and a result
that does not fit 64 bits, or a division by zero, is `nan`.  An integer beside a real is turned into
a real.  Adding to a text appends; all else is `nan`, or `false` for a comparison.
-/

namespace PulseFlow.Signal

/-! ## Operands -/

/-- Two numbers brought to one kind. -/
inductive Operands where
  | ints (a b : Int64)
  | reals (a b : Float)

def operands? : Signal → Signal → Option Operands
  | int a, int b => some (.ints a b)
  | int a, real b => some (.reals a.toFloat b)
  | real a, int b => some (.reals a b.toFloat)
  | real a, real b => some (.reals a b)
  | _, _ => none

/-- Whether a whole number fits 64 bits with a sign. -/
def FitsInt (n : Int) : Prop := -9223372036854775808 ≤ n ∧ n < 9223372036854775808

instance (n : Int) : Decidable (FitsInt n) := inferInstanceAs (Decidable (_ ∧ _))

/-- The integer signal for `n`, if it fits. -/
def ofInt (n : Int) : Signal := if FitsInt n then int (Int64.ofInt n) else nan

/-! ## Arithmetic -/

/-- Division toward zero, undefined for a zero divisor or a quotient that does not fit. -/
def divideInts (a b : Int64) : Signal :=
  if b.toInt = 0 then nan else ofInt (a.toInt.tdiv b.toInt)

/-- What division toward zero leaves, undefined where the division is. -/
def moduloInts (a b : Int64) : Signal :=
  if b.toInt = 0 ∨ ¬ FitsInt (a.toInt.tdiv b.toInt) then nan else ofInt (a.toInt.tmod b.toInt)

def arithmetic (onInts : Int64 → Int64 → Signal) (onReals : Float → Float → Float)
    (a b : Signal) : Signal :=
  match operands? a b with
  | some (.ints x y) => onInts x y
  | some (.reals x y) => real (onReals x y)
  | none => nan

def add : Signal → Signal → Signal
  | text a, b => text (a ++ b.toText)
  | nan, text b => text (nan.toText ++ b)
  | a, b => arithmetic (fun x y => ofInt (x.toInt + y.toInt)) (· + ·) a b

def subtract : Signal → Signal → Signal :=
  arithmetic (fun x y => ofInt (x.toInt - y.toInt)) (· - ·)

def multiply : Signal → Signal → Signal :=
  arithmetic (fun x y => ofInt (x.toInt * y.toInt)) (· * ·)

def divide : Signal → Signal → Signal := arithmetic divideInts (· / ·)

def modulo : Signal → Signal → Signal := arithmetic moduloInts Decimal.remainder

/-! ## Comparison -/

/-- Equal values: numbers by value, texts by their characters, arrays by being the same array. -/
def equalTo : Signal → Signal → Bool
  | nan, nan => true
  | text a, text b => a == b
  | array i, array j => i == j
  | a, b =>
    match operands? a b with
    | some (.ints x y) => x == y
    | some (.reals x y) => x == y
    | none => false

def greaterThan (a b : Signal) : Bool :=
  match operands? a b with
  | some (.ints x y) => decide (y < x)
  | some (.reals x y) => decide (y < x)
  | none => false

def lessThan (a b : Signal) : Bool :=
  match operands? a b with
  | some (.ints x y) => decide (x < y)
  | some (.reals x y) => decide (x < y)
  | none => false

/-- Equality that also asks for the same kind: the integer one is not the real one here. -/
def strictlyEqual : Signal → Signal → Bool
  | nan, nan => true
  | int a, int b => a == b
  | real a, real b => a == b
  | text a, text b => a == b
  | array i, array j => i == j
  | _, _ => false

end PulseFlow.Signal
