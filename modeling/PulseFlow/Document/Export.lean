import PulseFlow.Document.Basic
import PulseFlow.Engine.Basic

/-!
# Saving prototypes

The document of a prototype lists its placeholders and its inner nodes; the index of a node is its
place in that list.  Constants are kept with their values.  Arrays and infinite or undefined reals
have no form in a document, and a template that holds one cannot be saved.
-/

namespace PulseFlow

open Document

namespace Prototype

/-- Nodes in the order of their indices: inputs, outputs, inner nodes. -/
def saveOrder (p : Prototype) : List NodeId := p.inputs ++ p.outputs ++ p.innerNodes

/-- The index of a node in the document. -/
def saveIndex? (p : Prototype) (id : NodeId) : Option Nat := p.saveOrder.idxOf? id

def saveFan (p : Prototype) (f : Fan) : List Document.Edge :=
  f.toList.filterMap fun s => (p.saveIndex? s.node).map fun i => ⟨i, s.port⟩

/-- The document form of one node, without its name. -/
def saveNode (p : Prototype) (id : NodeId) : Except Error PlacedNode := do
  let n ← Graph.find p.graph id
  let spot := p.placement id
  return {
    index := (p.saveIndex? id).getD 0
    x := spot.x
    y := spot.y
    outputs := n.outputs.map p.saveFan }

/-- Files an inner node where its kind belongs. -/
def saveInner (p : Prototype) (nodes : InnerNodes) (id : NodeId) : Except Error InnerNodes := do
  let node ← p.saveNode id
  let n ← Graph.find p.graph id
  match n.body.constant? with
  | some (.int value) => return { nodes with ints := nodes.ints ++ [⟨node, value⟩] }
  | some (.real value) =>
    if Decimal.isFinite value then return { nodes with reals := nodes.reals ++ [⟨node, value⟩] }
    else throw (.invalidDocument (.unsavable p.key .real))
  | some (.text value) => return { nodes with texts := nodes.texts ++ [⟨node, value⟩] }
  | some .nan => return { nodes with nans := nodes.nans ++ [node] }
  | some (.array _) => throw (.invalidDocument (.unsavable p.key .array))
  | none =>
    let key := n.key
    let named := { node with category := some key.category, identifier := some key.identifier }
    return { nodes with named := nodes.named ++ [named] }

/-- The document form of a prototype. -/
def save (p : Prototype) : Except Error Document.Template := do
  let inputs ← p.inputs.mapM p.saveNode
  let outputs ← p.outputs.mapM p.saveNode
  let nodes ← p.innerNodes.foldlM p.saveInner {}
  return { key := p.key, canvas := p.canvas, inputs, outputs, nodes }

end Prototype

namespace Engine

/-- The document of one prototype. -/
def exportPrototype (e : Engine) (key : Key) : Except Error Document.Template :=
  match e.prototype? key with
  | some p => p.save
  | none => .error (.unknownPrototype key)

/-- The document of all prototypes, in the order of their keys. -/
def exportProject (e : Engine) : Except Error Project := do
  return ⟨← e.registry.prototypes.values.mapM Prototype.save⟩

end Engine

end PulseFlow
