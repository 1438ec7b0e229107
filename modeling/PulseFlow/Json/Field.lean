import PulseFlow.Json.Value
import PulseFlow.Decimal.Binary

/-!
# Fields of a JSON value

A record is written as an object or as the list of its fields in order.  In an object unknown
members are skipped, a known one may stand once; in a list fields at the end may be missing.  What a
missing field means is up to its reader: `required` refuses, `optional` takes a default.
-/

namespace PulseFlow.Json

open Decimal

/-- Members of an object whose names are all sound. -/
def namedMembers? : List (Option String × Json) → Option (List (String × Json))
  | [] => some []
  | (some k, j) :: ms => (namedMembers? ms).map ((k, j) :: ·)
  | (none, _) :: _ => none

/-- The value of a member; `none` if the name is repeated, `some none` if it is missing. -/
def member? (ms : List (String × Json)) (name : String) : Option (Option Json) :=
  match ms.filter fun m => m.1 == name with
  | [] => some none
  | [m] => some (some m.2)
  | _ => none

/-- The fields of a record, in the order of `names`. -/
def fields? (names : List String) : Json → Option (List (Option Json))
  | object ms => (namedMembers? ms).bind fun ms => names.mapM (member? ms)
  | list items =>
    if items.length ≤ names.length then
      some (items.map some ++ List.replicate (names.length - items.length) none)
    else none
  | _ => none

/-! ## Values of fields -/

variable {α : Type}

def required (read : Json → Option α) : Option Json → Option α
  | some j => read j
  | none => none

def optional (default : α) (read : Json → Option α) : Option Json → Option α
  | some j => read j
  | none => some default

/-- A field that may be null. -/
def nullable (read : Json → Option α) : Json → Option (Option α)
  | null => some none
  | j => (read j).map some

def readBool? : Json → Option Bool
  | bool b => some b
  | _ => none

/-- A whole number from zero on, below `2 ^ width`. -/
def readNatural? (width : Nat) : Json → Option Nat
  | number (.natural n) => if n < twoTo width then some n else none
  | _ => none

/-- A whole number of `width` bits with a sign. -/
def readInteger? (width : Nat) : Json → Option Int
  | number (.natural n) => if n < twoTo (width - 1) then some n else none
  | number (.negative n) => if -(twoTo (width - 1) : Int) ≤ n then some n else none
  | _ => none

/-- Any number in range. -/
def readReal? : Json → Option Float
  | number (.natural n) => some n.toUInt64.toFloat
  | number (.negative n) => some (Int64.ofInt n).toFloat
  | number (.real x) => some x
  | _ => none

def readString? : Json → Option String
  | text s => s
  | _ => none

def readList? (read : Json → Option α) : Json → Option (List α)
  | list items => items.mapM read
  | _ => none

end PulseFlow.Json
