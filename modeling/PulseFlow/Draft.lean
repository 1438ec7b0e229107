import PulseFlow.Registry

/-!
# Editing a template

A draft is a prototype while it is edited.  Placeholders stay where they are, and nothing may lead
out of the placeholder of an output, because that is where the nodes standing for the prototype
lead on.  An `Edit` is a whole course of such changes, each of which may depend on how those before
it went.
-/

namespace PulseFlow

structure Draft where
  prototype : Prototype
  heap : Heap

namespace Draft

/-- Puts a node into the template. -/
def addNode (d : Draft) (n : Node) : NodeId × Draft :=
  let (id, graph) := d.prototype.graph.add n
  (id, { d with prototype := { d.prototype with graph } })

/-- Adds a node by name; the prototype under edit counts as registered. -/
def add (r : Registry) (d : Draft) (key : Key) : Except Error (NodeId × Draft) := do
  let (n, heap) ← r.makeNode key d.heap
  return { d with heap }.addNode n

def addLogic (d : Draft) (l : Logic) : NodeId × Draft := d.addNode (Node.native l)

def connect (d : Draft) (source target : Socket) : Except Error Draft :=
  if d.prototype.outputs.contains source.node then .error (.boundaryNode source.node)
  else do
    let graph ← Graph.connect d.prototype.graph source target
    return { d with prototype := { d.prototype with graph } }

def disconnect (d : Draft) (source : Socket) : Except Error Draft := do
  let graph ← Graph.disconnect d.prototype.graph source
  return { d with prototype := { d.prototype with graph } }

def targets (d : Draft) (source : Socket) : Except Error (List Socket) :=
  Graph.targets d.prototype.graph source

/-- Takes an inner node out and joins the connections on its two sides. -/
def remove (d : Draft) (id : NodeId) : Except Error Draft :=
  if d.prototype.isBoundary id then .error (.boundaryNode id)
  else do
    let graph ← Graph.bypass d.prototype.graph id
    let placements := d.prototype.placements.erase id
    return { d with prototype := { d.prototype with graph, placements } }

def place (d : Draft) (id : NodeId) (spot : Placement) : Except Error Draft := do
  let _ ← Graph.find d.prototype.graph id
  let placements := d.prototype.placements.insert id spot
  return { d with prototype := { d.prototype with placements } }

def setCanvas (d : Draft) (canvas : Canvas) : Draft :=
  { d with prototype := { d.prototype with canvas } }

/-! ## Courses of changes -/

inductive Action where
  | input (port : Nat)
  | output (port : Nat)
  | add (key : Key)
  | addLogic (logic : Logic)
  | allocate (items : List Signal)
  | connect (source target : Socket)
  | disconnect (source : Socket)
  | targets (source : Socket)
  | remove (id : NodeId)
  | place (id : NodeId) (placement : Placement)
  | setCanvas (canvas : Canvas)

/-- What an action gives back. -/
inductive Answer where
  | done
  | node (id : NodeId)
  | array (id : ArrayId)
  | sockets (l : List Socket)

/-- Carries an action out; one that fails leaves the draft as it was. -/
def perform (r : Registry) (d : Draft) : Action → Except Error Answer × Draft
  | .input port => ((d.prototype.boundaryInput port).map .node, d)
  | .output port => ((d.prototype.boundaryOutput port).map .node, d)
  | .add key =>
    match d.add r key with
    | .ok (id, d) => (.ok (.node id), d)
    | .error e => (.error e, d)
  | .addLogic l =>
    let (id, d) := d.addLogic l
    (.ok (.node id), d)
  | .allocate items =>
    let (id, heap) := d.heap.alloc items
    (.ok (.array id), { d with heap })
  | .connect source target => settle d (d.connect source target)
  | .disconnect source => settle d (d.disconnect source)
  | .targets source => ((d.targets source).map .sockets, d)
  | .remove id => settle d (d.remove id)
  | .place id placement => settle d (d.place id placement)
  | .setCanvas canvas => (.ok .done, d.setCanvas canvas)
where
  settle (d : Draft) : Except Error Draft → Except Error Answer × Draft
    | .ok d => (.ok .done, d)
    | .error e => (.error e, d)

end Draft

/-- A course of changes: an action, then what to do next in view of its answer, up to a result. -/
inductive Edit (α : Type) where
  | finish (a : α)
  | act (action : Draft.Action) (next : Except Error Draft.Answer → Edit α)

namespace Edit

variable {α β : Type}

def run (r : Registry) : Edit α → Draft → α × Draft
  | finish a, d => (a, d)
  | act action next, d =>
    let (answer, d) := d.perform r action
    run r (next answer) d

protected def bind : Edit α → (α → Edit β) → Edit β
  | finish a, f => f a
  | act action next, f => act action fun answer => (next answer).bind f

instance : Monad Edit where
  pure := finish
  bind := Edit.bind

/-- A single action. -/
def once (action : Draft.Action) : Edit (Except Error Draft.Answer) := act action finish

end Edit

end PulseFlow
