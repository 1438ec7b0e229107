import PulseFlow.Name

/-!
# Documents

The saved form of a project: a list of prototypes, each with its nodes.  A node of a prototype has an
index of its own, and edges name their target by that index.
-/

namespace PulseFlow

/-- The size of the area on which a prototype is drawn. -/
structure Canvas where
  width : UInt32 := 800
  height : UInt32 := 600
deriving DecidableEq, Repr, Inhabited

/-- Where a node is drawn. -/
structure Placement where
  x : Int32 := 0
  y : Int32 := 0
deriving DecidableEq, Repr, Inhabited

namespace Document

structure Edge where
  node : Nat
  socket : Nat
deriving DecidableEq, Repr

structure PlacedNode where
  index : Nat
  x : Int32 := 0
  y : Int32 := 0
  category : Option String := none
  identifier : Option String := none
  /-- The targets of each output port. -/
  outputs : List (List Edge) := []
deriving DecidableEq, Repr

/-- A constant node with its value. -/
structure Literal (α : Type) where
  node : PlacedNode
  value : α
deriving BEq, Repr

/-- The nodes inside a prototype, sorted by what has to be kept of them. -/
structure InnerNodes where
  /-- Nodes known by their names, built in or prototypes. -/
  named : List PlacedNode := []
  ints : List (Literal Int64) := []
  reals : List (Literal Float) := []
  texts : List (Literal String) := []
  nans : List PlacedNode := []
deriving BEq, Repr

structure Template where
  key : Key
  canvas : Canvas := {}
  /-- Boundary inputs in the order of their ports. -/
  inputs : List PlacedNode := []
  /-- Boundary outputs in the order of their ports. -/
  outputs : List PlacedNode := []
  nodes : InnerNodes := {}
deriving BEq, Repr

/-- All nodes of a template, in the order in which they are wired. -/
def Template.placed (t : Template) : List PlacedNode :=
  t.inputs ++ t.outputs ++ t.nodes.named ++ t.nodes.ints.map Literal.node
    ++ t.nodes.reals.map Literal.node ++ t.nodes.texts.map Literal.node ++ t.nodes.nans

structure Project where
  prototypes : List Template
deriving BEq, Repr

end Document

end PulseFlow
