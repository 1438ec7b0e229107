import PulseFlow.Decimal.Layout

/-!
# Signals

The values that travel along connections: nothing defined, a 64-bit integer, a real, a text, or an
array.  An array signal carries only the array's place in the heap, so all signals with that place
share one array.
-/

namespace PulseFlow

/-- The place of an array in the heap. -/
abbrev ArrayId := Nat

inductive Signal where
  | nan
  | int (value : Int64)
  | real (value : Float)
  | text (value : String)
  | array (id : ArrayId)

namespace Signal

instance : Inhabited Signal := ⟨nan⟩

/-! ## Kinds -/

inductive Kind where
  | nan
  | int
  | real
  | text
  | array
deriving DecidableEq, Repr

def kind : Signal → Kind
  | nan => .nan
  | int _ => .int
  | real _ => .real
  | text _ => .text
  | array _ => .array

def Kind.name : Kind → String
  | .nan => "NaN"
  | .int => "Int"
  | .real => "Real"
  | .text => "String"
  | .array => "Array"

def asInt? : Signal → Option Int64
  | int v => some v
  | _ => none

def asReal? : Signal → Option Float
  | real v => some v
  | _ => none

def asText? : Signal → Option String
  | text v => some v
  | _ => none

def asArray? : Signal → Option ArrayId
  | array i => some i
  | _ => none

/-! ## Text -/

/-- Reals in the text of a signal have no exponent and no point after a whole number. -/
def plainReal : Decimal.Layout where
  positional := fun _ => true
  point := false
  plus := false
  tie := .up

/-- The address at which an array is shown.  Distinct arrays have distinct addresses. -/
def address (i : ArrayId) : Nat := 0x55d0c0de0000 + 32 * i

def arrayText (i : ArrayId) : String :=
  "[Array " ++ String.ofList (Nat.toDigits 16 (address i)) ++ "]"

def intText (v : Int64) : String :=
  if v.toInt < 0 then String.ofList ('-' :: Decimal.digitsOf v.toInt.natAbs)
  else String.ofList (Decimal.digitsOf v.toInt.natAbs)

/-- What is printed for a signal, and what joining it to a text appends. -/
def toText : Signal → String
  | nan => "NaN"
  | int v => intText v
  | real v => plainReal.write v
  | text v => v
  | array i => arrayText i

end Signal

end PulseFlow
