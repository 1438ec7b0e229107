import PulseFlow.Document.Basic
import PulseFlow.Graph
import PulseFlow.Sorted.Table

/-!
# Prototypes

A prototype is a named template: a graph with placeholders for the inputs and outputs of the nodes
that will stand for it.  Copies of the template that are not in use wait in its pool.
-/

namespace PulseFlow

structure Prototype where
  key : Key
  /-- The template. -/
  graph : Graph
  /-- Placeholders for the inputs, in the order of the ports. -/
  inputs : List NodeId
  /-- Placeholders for the outputs, in the order of the ports. -/
  outputs : List NodeId
  /-- How often the template was edited.  The count has no bound; kept in 64 bits it is the same
  below 2^64 edits. -/
  revision : Nat := 0
  /-- Idle instances, the one put there last first. -/
  pool : List Instance := []
  canvas : Canvas := {}
  placements : Table NodeId Placement := ∅

namespace Prototype

/-- Adds `n` placeholders to a graph. -/
def addPlaceholders (g : Graph) : Nat → List NodeId × Graph
  | 0 => ([], g)
  | n + 1 =>
    let (id, g) := g.add (Node.native .socket)
    let (ids, g) := addPlaceholders g n
    (id :: ids, g)

/-- A prototype whose template has only its placeholders. -/
def declare (key : Key) (inputs outputs : Nat) : Prototype :=
  let (ins, g) := addPlaceholders Graph.empty inputs
  let (outs, g) := addPlaceholders g outputs
  { key, graph := g, inputs := ins, outputs := outs }

def isBoundary (p : Prototype) (id : NodeId) : Bool := p.inputs.contains id || p.outputs.contains id

/-- Template nodes other than the placeholders. -/
def innerNodes (p : Prototype) : List NodeId := p.graph.ids.filter fun id => !p.isBoundary id

/-- The value of a constant node of the template. -/
def constant? (p : Prototype) (id : NodeId) : Option Signal :=
  (p.graph.get? id).bind fun n => n.body.constant?

/-- Where a node is drawn; a node never placed stands at the origin. -/
def placement (p : Prototype) (id : NodeId) : Placement := (p.placements.get? id).getD {}

def boundaryInput (p : Prototype) (port : Nat) : Except Error NodeId :=
  match p.inputs[port]? with
  | some id => .ok id
  | none => .error (.noSuchBoundary p.key port)

def boundaryOutput (p : Prototype) (port : Nat) : Except Error NodeId :=
  match p.outputs[port]? with
  | some id => .ok id
  | none => .error (.noSuchBoundary p.key port)

/-! ## Instances -/

/-- Template numbers with the live numbers of their copies. -/
abbrev Renaming := List (NodeId × NodeId)

/-- Adds copies of nodes to a graph, without connections. -/
def copyNodes (g : Graph) (h : Heap) : List (NodeId × Node) → Renaming × Graph × Heap
  | [] => ([], g, h)
  | (old, n) :: rest =>
    let (n, h) := n.duplicate h
    let (new, g) := g.add n
    let (r, g, h) := copyNodes g h rest
    ((old, new) :: r, g, h)

/-- A fan of the template, led to the copies. -/
def renameFan (r : Renaming) (f : Fan) : Fan :=
  SortedSet.ofList (f.toList.filterMap fun s => (r.lookup s.node).map fun n => ⟨n, s.port⟩)

/-- Connects the copies the way the nodes of the template are connected. -/
def wireCopies (r : Renaming) (g : Graph) (entries : List (NodeId × Node)) : Graph :=
  entries.foldl (fun g (old, n) =>
    match r.lookup old with
    | some new => g.modify new fun copy => { copy with outputs := n.outputs.map (renameFan r) }
    | none => g) g

/-- Copies the template into a live graph. -/
def instantiate (p : Prototype) (id : Nat) (g : Graph) (h : Heap) : Instance × Graph × Heap :=
  let entries := p.graph.entries
  let (r, g, h) := copyNodes g h entries
  let g := wireCopies r g entries
  ({ id
     revision := p.revision
     nodes := (SortedSet.ofList (r.map Prod.snd)).toList
     inputs := p.inputs.filterMap fun i => r.lookup i
     outputs := p.outputs.filterMap fun i => r.lookup i }, g, h)

/-! ## Description -/

/-- A summary for inspection. -/
def describe (p : Prototype) : String :=
  "Prototype \x7b key: NodeKey \x7b category: " ++ Text.quoteText p.key.category
    ++ ", identifier: " ++ Text.quoteText p.key.identifier ++ " \x7d, inputs: "
    ++ toString p.inputs.length ++ ", outputs: " ++ toString p.outputs.length ++ ", nodes: "
    ++ toString p.graph.size ++ ", revision: " ++ toString p.revision ++ ", idle: "
    ++ toString p.pool.length ++ " \x7d"

end Prototype

end PulseFlow
