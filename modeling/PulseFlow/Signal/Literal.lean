import PulseFlow.Signal.Arithmetic
import PulseFlow.Decimal.Numeral
import PulseFlow.Text.Blank

/-!
# Literals

The text from which a constant is made: a text between double quotes, the word `NaN`, an integer or
a finite decimal, with blanks around it allowed.  What stands between the quotes is taken as it is;
a backslash only keeps the character after it from ending the text.
-/

namespace PulseFlow.Signal

open Text

/-- Whether no quote stands bare and each backslash has a character after it. -/
def wellQuoted : List Char → Bool
  | [] => true
  | '\\' :: [] => false
  | '\\' :: _ :: rest => wellQuoted rest
  | c :: rest => c != '"' && wellQuoted rest

/-- What stands between two quotes. -/
def readQuoted? : List Char → Option (List Char)
  | '"' :: rest =>
    match rest.getLast? with
    | some '"' => if wellQuoted rest.dropLast then some rest.dropLast else none
    | _ => none
  | _ => none

/-- A sign and digits whose value fits 64 bits. -/
def readInt? (cs : List Char) : Option Int64 :=
  let (negative, ds) := Decimal.takeSign cs
  if ds ≠ [] ∧ ds.all Char.isDigit then
    let n : Int := if negative then -(Decimal.ofDigits ds : Int) else Decimal.ofDigits ds
    if FitsInt n then some (Int64.ofInt n) else none
  else none

/-- A decimal within the range of doubles. -/
def readReal? (cs : List Char) : Option Float :=
  ((Decimal.Numeral.read? cs).map Decimal.Numeral.toFloat).filter Decimal.isFinite

/-- Reads a literal without blanks around it. -/
def readTrimmed? (cs : List Char) : Option Signal :=
  match readQuoted? cs with
  | some s => some (text (String.ofList s))
  | none =>
    if cs = ['N', 'a', 'N'] then some nan
    else match readInt? cs with
      | some n => some (int n)
      | none => (readReal? cs).map real

def readLiteral? (s : String) : Option Signal := readTrimmed? (trim s.toList)

end PulseFlow.Signal
