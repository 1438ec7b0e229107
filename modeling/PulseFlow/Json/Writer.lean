import PulseFlow.Json.Value
import PulseFlow.Decimal.Layout

/-!
# Writing JSON

A value over several lines: two blanks for each level, one item or member on a line, and an empty
list or object on one line.
-/

namespace PulseFlow.Json

/-- Reals in a document keep a point, and those from 1e16 on and below 1e-5 have an exponent. -/
def documentReal : Decimal.Layout where
  positional := fun e => -5 ≤ e && e < 16
  point := true
  plus := true
  tie := .even

/-- A real that is not finite has no numeral; `null` stands in its place. -/
def Number.write : Number → String
  | natural n => String.ofList (Decimal.digitsOf n)
  | negative n => String.ofList ('-' :: Decimal.digitsOf n.natAbs)
  | real x => if Decimal.isFinite x then documentReal.write x else "null"
  | outOfRange => "null"

/-- A control character by its code. -/
def controlEscape (c : Char) : List Char :=
  let digits := Nat.toDigits 16 c.toNat
  ['\\', 'u'] ++ List.replicate (4 - digits.length) '0' ++ digits

def escapeChar (c : Char) : List Char :=
  if c = '"' then ['\\', '"']
  else if c = '\\' then ['\\', '\\']
  else if c = '\x08' then ['\\', 'b']
  else if c = '\x0c' then ['\\', 'f']
  else if c = '\n' then ['\\', 'n']
  else if c = '\r' then ['\\', 'r']
  else if c = '\t' then ['\\', 't']
  else if c.toNat < 0x20 then controlEscape c
  else [c]

def writeText (s : String) : String :=
  String.ofList ('"' :: s.toList.flatMap escapeChar ++ ['"'])

/-- A new line at a level. -/
def newLine (level : Nat) : String :=
  String.ofList ('\n' :: List.replicate (2 * level) ' ')

mutual

/-- Writes a value that stands at a level. -/
def writeAt (level : Nat) : Json → String
  | null => "null"
  | bool b => if b then "true" else "false"
  | number n => n.write
  | text s => writeText (s.getD "")
  | list [] => "[]"
  | list (j :: js) =>
    "[" ++ newLine (level + 1) ++ writeAt (level + 1) j ++ writeItems (level + 1) js
      ++ newLine level ++ "]"
  | object [] => "\x7b\x7d"
  | object ((k, j) :: ms) =>
    "\x7b" ++ newLine (level + 1) ++ writeText (k.getD "") ++ ": " ++ writeAt (level + 1) j
      ++ writeMembers (level + 1) ms ++ newLine level ++ "\x7d"

/-- Writes the items after the first one. -/
def writeItems (level : Nat) : List Json → String
  | [] => ""
  | j :: js => "," ++ newLine level ++ writeAt level j ++ writeItems level js

/-- Writes the members after the first one. -/
def writeMembers (level : Nat) : List (Option String × Json) → String
  | [] => ""
  | (k, j) :: ms =>
    "," ++ newLine level ++ writeText (k.getD "") ++ ": " ++ writeAt level j
      ++ writeMembers level ms

end

def write (j : Json) : String := writeAt 0 j

end PulseFlow.Json
