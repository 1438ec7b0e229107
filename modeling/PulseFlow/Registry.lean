import PulseFlow.Catalog
import PulseFlow.Prototype

/-!
# The registry

Everything that can be placed by name: the catalog of logics and the prototypes.  No key is in both.
-/

namespace PulseFlow

structure Registry where
  catalog : Catalog := Catalog.standard
  prototypes : Table Key Prototype := ∅

namespace Registry

def contains (r : Registry) (key : Key) : Bool :=
  r.catalog.contains key || r.prototypes.contains key

/-- A new node for a key: a copy of a logic, or an unbound reference. -/
def makeNode (r : Registry) (key : Key) (h : Heap) : Except Error (Node × Heap) :=
  match r.catalog.create? key h with
  | some (l, h) => .ok (Node.native l, h)
  | none =>
    match r.prototypes.get? key with
    | some p => .ok (Node.reference key p.inputs.length p.outputs.length, h)
    | none => .error (.unknownNode key)

/-- All keys, those of the catalog first. -/
def keys (r : Registry) : List Key := r.catalog.keys ++ r.prototypes.keys

/-- Categories that are in use, in order. -/
def categories (r : Registry) : List String :=
  (SortedSet.ofList (r.keys.map Key.category)).toList

/-- Identifiers of a category, in order. -/
def identifiers (r : Registry) (category : String) : List String :=
  (SortedSet.ofList ((r.keys.filter fun k => k.category == category).map Key.identifier)).toList

end Registry

end PulseFlow
