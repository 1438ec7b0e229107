import PulseFlow.Document.Export
import PulseFlow.Engine.Edit

/-!
# Loading prototypes

A document is loaded in two rounds: first every prototype is declared, so that templates may refer
to each other in any order, then the templates are filled.  If anything fails, the prototypes that
were declared are dropped again.
-/

namespace PulseFlow.Document

/-- Nodes of a draft by their indices in the document. -/
abbrev Indices := List (Nat × NodeId)

/-- A draft while a document is loaded into it. -/
structure Loading where
  draft : Draft
  indices : Indices := []

namespace Loading

variable (t : Template)

/-- Files a node under an index that is not taken. -/
def claim (l : Loading) (index : Nat) (id : NodeId) : Except Error Loading :=
  if (l.indices.lookup index).isSome then
    .error (.invalidDocument (.repeatedIndex t.key index))
  else .ok { l with indices := (index, id) :: l.indices }

/-- Files the placeholders for one side of the boundary. -/
def claimBoundary (port? : Prototype → Nat → Except Error NodeId) (l : Loading)
    (placed : List PlacedNode) : Except Error Loading :=
  placed.zipIdx.foldlM (fun l (n, port) => do
    l.claim t n.index (← port? l.draft.prototype port)) l

/-- Adds a node known by its name. -/
def addNamed (r : Registry) (l : Loading) (n : PlacedNode) : Except Error Loading :=
  match n.category, n.identifier with
  | some category, some identifier =>
    let key : Key := ⟨category, identifier⟩
    match l.draft.add r key with
    | .ok (id, draft) => { l with draft }.claim t n.index id
    | .error (.unknownNode _) => .error (.invalidDocument (.unregistered t.key key))
    | .error e => .error e
  | _, _ => .error (.invalidDocument (.namelessNode t.key n.index))

def addConstant (l : Loading) (n : PlacedNode) (value : Signal) : Except Error Loading :=
  let (id, draft) := l.draft.addLogic (.constant value)
  { l with draft }.claim t n.index id

/-- Makes one connection. -/
def wireEdge (source : PlacedNode) (id : NodeId) (port : Nat) (l : Loading) (edge : Edge) :
    Except Error Loading :=
  match l.indices.lookup edge.node with
  | some target => do
    let draft ← l.draft.connect ⟨id, port⟩ ⟨target, edge.socket⟩
    return { l with draft }
  | none => .error (.invalidDocument (.danglingEdge t.key source.index edge.node))

/-- Puts a node in its place and makes its connections. -/
def wireNode (l : Loading) (n : PlacedNode) : Except Error Loading :=
  match l.indices.lookup n.index with
  | none => .ok l
  | some id => do
    let draft ← l.draft.place id ⟨n.x, n.y⟩
    n.outputs.zipIdx.foldlM (fun l (edges, port) =>
      edges.foldlM (wireEdge t n id port) l) { l with draft }

end Loading

/-- Fills a draft that has only its placeholders. -/
def Template.load (t : Template) (r : Registry) (d : Draft) : Except Error Draft := do
  let l ← Loading.claimBoundary t Prototype.boundaryInput ⟨d, []⟩ t.inputs
  let l ← l.claimBoundary t Prototype.boundaryOutput t.outputs
  let l ← t.nodes.named.foldlM (Loading.addNamed t r) l
  let l ← t.nodes.ints.foldlM (fun l c => l.addConstant t c.node (.int c.value)) l
  let l ← t.nodes.reals.foldlM (fun l c => l.addConstant t c.node (.real c.value)) l
  let l ← t.nodes.texts.foldlM (fun l c => l.addConstant t c.node (.text c.value)) l
  let l ← t.nodes.nans.foldlM (fun l n => l.addConstant t n .nan) l
  let l := { l with draft := l.draft.setCanvas t.canvas }
  return (← t.placed.foldlM (Loading.wireNode t) l).draft

end PulseFlow.Document

namespace PulseFlow.Engine

open Document

/-- Declares the prototypes of a document up to the first that fails; gives the keys declared. -/
def declareAll (e : Engine) : List Template → Except Error Unit × List Key × Engine
  | [] => (.ok (), [], e)
  | t :: ts =>
    match e.declare t.key t.inputs.length t.outputs.length with
    | (.error err, e) => (.error err, [], e)
    | (.ok _, e) =>
      let (result, keys, e) := e.declareAll ts
      (result, t.key :: keys, e)

/-- Fills one template; a draft that fails is left as far as it was before. -/
def loadTemplate (e : Engine) (t : Template) : Except Error Unit × Engine :=
  match e.editBy t.key fun d =>
    match t.load e.registry d with
    | .ok d => (Except.ok (), d)
    | .error err => (Except.error err, d) with
  | (.ok result, e) => (result, e)
  | (.error err, e) => (.error err, e)

/-- Fills the templates up to the first that fails. -/
def loadAll (e : Engine) : List Template → Except Error Unit × Engine
  | [] => (.ok (), e)
  | t :: ts =>
    match e.loadTemplate t with
    | (.error err, e) => (.error err, e)
    | (.ok _, e) => e.loadAll ts

/-- Drops prototypes from the registry. -/
def dropPrototypes (e : Engine) (keys : List Key) : Engine :=
  { e with registry :=
    { e.registry with prototypes := keys.foldl Table.erase e.registry.prototypes } }

/-- Loads a document, all of it or nothing. -/
def importProject (e : Engine) (p : Project) : Except Error Unit × Engine :=
  let (declared, keys, e) := e.declareAll p.prototypes
  let (result, e) := match declared with
    | .ok _ => e.loadAll p.prototypes
    | .error err => (.error err, e)
  match result with
  | .ok _ => (.ok (), e.report (.imported p.prototypes.length))
  | .error err => (.error err, (e.report (.importFailed err keys.length)).dropPrototypes keys)

end PulseFlow.Engine
