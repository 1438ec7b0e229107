import PulseFlow.About
import PulseFlow.Registry

/-!
# Engines

An engine holds the live graph, the registry, and the nodes that wait to be fired.  Nodes of
instances are in the live graph as well, but callers see only the nodes they placed themselves.

A call that can fail gives its result or the reason together with the engine afterwards.
-/

namespace PulseFlow

structure Engine where
  graph : Graph := Graph.empty
  registry : Registry := {}
  /-- Nodes that wait to be fired, in the order in which they became ready. -/
  pending : List NodeId := []
  /-- References that are bound, in the order in which they were bound. -/
  watch : List NodeId := []
  settings : Settings := {}
  /-- Waves run so far.  The count has no bound; kept in 64 bits it is the same below 2^64 waves. -/
  steps : Nat := 0
  /-- The number of the next new instance. -/
  nextInstance : Nat := 0
  world : World := {}

namespace Engine

instance : Inhabited Engine := ⟨{}⟩

/-- An engine with the built-in nodes and nothing placed. -/
def fresh (settings : Settings) (console : Console) : Engine :=
  { settings, world := { console } }

def report (e : Engine) (v : Event) : Engine := { e with world := e.world.report v }

/-- Makes a new array. -/
def allocate (e : Engine) (items : List Signal) : ArrayId × Engine :=
  let (id, heap) := e.world.heap.alloc items
  (id, { e with world := { e.world with heap } })

/-- Copies a signal with all arrays that can be reached from it. -/
def copySignal (e : Engine) (s : Signal) : Signal × Engine :=
  let (s, heap) := e.world.heap.copy s
  (s, { e with world := { e.world with heap } })

/-! ## Inspection -/

/-- A node that callers may name, or why there is none. -/
def visible (e : Engine) (id : NodeId) : Except Error Node :=
  match e.graph.get? id with
  | some n => if n.internal then .error (.missingNode id) else .ok n
  | none => .error (.missingNode id)

def visible? (e : Engine) (id : NodeId) : Option Node :=
  (e.graph.get? id).filter fun n => !n.internal

/-- The nodes placed by callers, in order. -/
def nodes (e : Engine) : List NodeId := e.graph.ids.filter fun id => (e.visible? id).isSome

def isScheduled (e : Engine) (id : NodeId) : Bool := (e.graph.get? id).any Node.scheduled

/-- All nodes that wait to be fired, in the order of their numbers. -/
def scheduled (e : Engine) : List NodeId := e.graph.ids.filter e.isScheduled

def hasPending (e : Engine) : Bool := !e.pending.isEmpty

/-- The instance that a reference is bound to. -/
def instance? (e : Engine) (id : NodeId) : Option Instance :=
  (e.graph.get? id).bind Node.instance?

def prototype? (e : Engine) (key : Key) : Option Prototype := e.registry.prototypes.get? key

def idleInstances (e : Engine) (key : Key) : Nat :=
  match e.prototype? key with
  | some p => p.pool.length
  | none => 0

/-- Whether a node, or a node of the instance it is bound to, waits to be fired, looking at most
`depth` instances deep. -/
def activeWithin (g : Graph) : Nat → NodeId → Bool
  | 0, id => (g.get? id).any Node.scheduled
  | depth + 1, id =>
    match g.get? id with
    | none => false
    | some n =>
      n.scheduled ||
        match n.body with
        | .reference _ (some i) => i.nodes.any (activeWithin g depth)
        | _ => false

/-- A bound on how deep instances are nested: no more than there are nodes. -/
def depthBound (e : Engine) : Nat := e.graph.cells.size + 1

/-- Whether a node, or anything inside the instance it is bound to, waits to be fired. -/
def isActive (e : Engine) (id : NodeId) : Bool := activeWithin e.graph e.depthBound id

/-! ## Registering -/

def registerLogic (e : Engine) (l : Logic) : Except Error Unit × Engine :=
  if e.registry.prototypes.contains l.key then (.error (.duplicate l.key), e)
  else
    match e.registry.catalog.register l.key l with
    | .ok catalog => (.ok (), { e with registry := { e.registry with catalog } })
    | .error err => (.error err, e)

/-- Replaces a prototype, or adds it. -/
def putPrototype (e : Engine) (p : Prototype) : Engine :=
  { e with registry :=
    { e.registry with prototypes := e.registry.prototypes.insert p.key p } }

/-- Registers a prototype that has only its placeholders. -/
def declare (e : Engine) (key : Key) (inputs outputs : Nat) : Except Error Unit × Engine :=
  if e.registry.contains key then (.error (.duplicate key), e)
  else
    (.ok (), (e.report (.declared key inputs outputs)).putPrototype
      (Prototype.declare key inputs outputs))

/-! ## Placing -/

def addNode (e : Engine) (n : Node) : NodeId × Engine :=
  let (id, graph) := e.graph.add n
  (id, { e with graph })

def addLogic (e : Engine) (l : Logic) : NodeId × Engine := e.addNode (Node.native l)

/-- Places a node by name. -/
def create (e : Engine) (key : Key) : Except Error NodeId × Engine :=
  match e.registry.makeNode key e.world.heap with
  | .ok (n, heap) =>
    let (id, e) := { e with world := { e.world with heap } }.addNode n
    (.ok id, e)
  | .error err => (.error err, e)

end Engine

end PulseFlow
