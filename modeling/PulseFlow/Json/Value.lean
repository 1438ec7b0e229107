/-!
# JSON values

A JSON text as a value that loses nothing a reader of documents may ask for.  Members keep their
order and may repeat.  A whole number is told apart from a real, and a number out of range and a
text with half of a surrogate pair are kept as such, because they only matter where somebody looks.
-/

namespace PulseFlow

namespace Json

inductive Number where
  /-- A whole number without a sign, below 2^64. -/
  | natural (n : Nat)
  /-- A whole number below zero, at least -2^63. -/
  | negative (n : Int)
  | real (x : Float)
  | outOfRange
deriving DecidableEq

end Json

inductive Json where
  | null
  | bool (b : Bool)
  | number (n : Json.Number)
  /-- A text; `none` if it holds half of a surrogate pair. -/
  | text (s : Option String)
  | list (items : List Json)
  | object (members : List (Option String × Json))

namespace Json

instance : Inhabited Json := ⟨null⟩

def Number.inRange : Number → Bool
  | outOfRange => false
  | _ => true

mutual

/-- Whether a value has no number out of range, no broken text, and at most `depth` levels. -/
def clean (depth : Nat) : Json → Bool
  | null => true
  | bool _ => true
  | number n => n.inRange
  | text s => s.isSome
  | list items => depth != 0 && cleanItems (depth - 1) items
  | object members => depth != 0 && cleanMembers (depth - 1) members

def cleanItems (depth : Nat) : List Json → Bool
  | [] => true
  | j :: js => clean depth j && cleanItems depth js

def cleanMembers (depth : Nat) : List (Option String × Json) → Bool
  | [] => true
  | (k, j) :: ms => k.isSome && clean depth j && cleanMembers depth ms

end

end Json

end PulseFlow
