import PulseFlow.Text.Visible

/-!
# Quoted text

A text between quotes in which every character can be seen: the quote and the backslash have a
backslash before them, the common controls have a letter, and what is not visible is written by its
code point.
-/

namespace PulseFlow.Text

/-- A code point in hexadecimal between braces. -/
def codePoint (c : Char) : List Char :=
  '\\' :: 'u' :: '\x7b' :: Nat.toDigits 16 c.toNat ++ ['\x7d']

/-- One character as it stands between two quotes `q`. -/
def escape (q c : Char) : List Char :=
  if c = '\x00' then ['\\', '0']
  else if c = '\t' then ['\\', 't']
  else if c = '\r' then ['\\', 'r']
  else if c = '\n' then ['\\', 'n']
  else if c = '\\' ∨ c = q then ['\\', c]
  else if isVisible c then [c]
  else codePoint c

/-- Characters between two quotes `q`. -/
def quote (q : Char) (cs : List Char) : String :=
  String.ofList (q :: cs.flatMap (escape q) ++ [q])

/-- A text between double quotes. -/
def quoteText (s : String) : String := quote '"' s.toList

/-- A character between single quotes. -/
def quoteChar (c : Char) : String := quote '\x27' [c]

end PulseFlow.Text
