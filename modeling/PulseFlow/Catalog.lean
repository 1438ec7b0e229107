import PulseFlow.Logic.Basic
import PulseFlow.Sorted.Table

/-!
# The catalog of built-in nodes

Logics filed under the keys by which they can be asked for.  A node made from the catalog is a copy.
-/

namespace PulseFlow

abbrev Catalog := Table Key Logic

namespace Catalog

/-- Files a logic under a key that is not taken. -/
def register (c : Catalog) (key : Key) (l : Logic) : Except Error Catalog :=
  if c.contains key then .error (.duplicate key) else .ok (c.insert key l)

/-- A copy of the logic filed under a key. -/
def create? (c : Catalog) (key : Key) (h : Heap) : Option (Logic × Heap) :=
  (c.get? key).map fun l => l.duplicate h

/-- The logics that come with the library, each under its own key. -/
def builtins : List Logic :=
  [.socket, .constant (.int 0), .constant (.real 0), .constant (.text ""), .constant .nan]
    ++ Operator.all.map .arithmetic
    ++ Relation.all.map .relation
    ++ testedKinds.map .typeTest
    ++ ConsoleAction.all.map .console
    ++ ArrayAction.all.map .array

/-- The built-in logics, and brackets as a second name of indexing. -/
def standard : Catalog :=
  Table.ofList (builtins.map (fun l => (l.key, l)) ++ [(⟨"Array", "[]"⟩, .array .index)])

end Catalog

end PulseFlow
