import PulseFlow.Sorted.Set

/-!
# Names of nodes, sockets and kinds

A node is addressed by a number, a socket by a node and one of its ports, and a kind of node by a key
of two words.  Sockets and keys are ordered by their first component, then by their second.
-/

namespace PulseFlow

open Std

abbrev NodeId := Nat

/-- The way a node number is written in messages. -/
def nodeText (id : NodeId) : String := s!"#{id}"

/-- One end of a connection; whether `port` counts inputs or outputs depends on which end. -/
structure Socket where
  node : NodeId
  port : Nat
deriving DecidableEq, Repr, Inhabited

namespace Socket

instance : Ord Socket := ⟨compareLex (compareOn node) (compareOn port)⟩

instance : TransOrd Socket :=
  inferInstanceAs (TransCmp (compareLex (compareOn node) (compareOn port)))

instance : LawfulEqOrd Socket where
  compare_self := ReflCmp.compare_self
  eq_of_compare {a b} h := by
    obtain ⟨hn, hp⟩ := compareLex_eq_eq.1 h
    cases a; cases b
    simp only [mk.injEq]
    exact ⟨LawfulEqOrd.eq_of_compare hn, LawfulEqOrd.eq_of_compare hp⟩

def text (s : Socket) : String := s!"{nodeText s.node}:{s.port}"

end Socket

/-- The name of a kind of node, built in or user defined. -/
structure Key where
  category : String
  identifier : String
deriving DecidableEq, Repr, Inhabited

namespace Key

instance : Ord Key := ⟨compareLex (compareOn category) (compareOn identifier)⟩

instance : TransOrd Key :=
  inferInstanceAs (TransCmp (compareLex (compareOn category) (compareOn identifier)))

instance : LawfulEqOrd Key where
  compare_self := ReflCmp.compare_self
  eq_of_compare {a b} h := by
    obtain ⟨hc, hi⟩ := compareLex_eq_eq.1 h
    cases a; cases b
    simp only [mk.injEq]
    exact ⟨LawfulEqOrd.eq_of_compare hc, LawfulEqOrd.eq_of_compare hi⟩

def text (k : Key) : String := s!"{k.category}.{k.identifier}"

end Key

end PulseFlow
