import PulseFlow.Engine.Basic

/-!
# Binding references to instances

A reference is bound when it first fires: to an idle instance from the pool of its prototype, or
else to a new copy of the template.  The outputs of the instance then lead where the outputs of the
reference lead.  When nothing in the instance waits to be fired, the reference is unbound and the
instance goes back to the pool, unless the template was edited meanwhile or the pool is full; then
its nodes are freed and their numbers used again.

Instances may hold bound references of their own.  Unbinding goes down into them first.
-/

namespace PulseFlow.Engine

/-! ## Binding -/

/-- An instance for reference `id`: the last one pooled, or a new copy of the template. -/
def acquire (e : Engine) (id : NodeId) (p : Prototype) : Instance × Engine :=
  match p.pool with
  | i :: pool =>
    (i, (e.putPrototype { p with pool }).report (.reused i.id p.key))
  | [] =>
    let (i, graph, heap) := p.instantiate e.nextInstance e.graph e.world.heap
    let world := { e.world with heap }
    let e := { e with graph, world, nextInstance := e.nextInstance + 1 }
    (i, e.report (.instantiated p.key id i.nodes.length))

/-- Leads the outputs of an instance where a reference leads. -/
def route (g : Graph) (outputs : List NodeId) (fans : List Fan) : Graph :=
  (outputs.zip fans).foldl (fun g (o, f) => g.modify o fun n => n.modifyFan 0 fun _ => f) g

/-- Binds reference `id`, which is not bound. -/
def engage (e : Engine) (id : NodeId) : Except Error Engine :=
  match e.graph.get? id with
  | none => .error (.missingNode id)
  | some n =>
    match n.body with
    | .native _ => .error (.missingNode id)
    | .reference key _ =>
      match e.prototype? key with
      | none => .error (.unknownPrototype key)
      | some p =>
        let (i, e) := e.acquire id p
        let graph := (route e.graph i.outputs n.outputs).modify id fun n => n.bind (some i)
        .ok { e with graph, watch := e.watch ++ [id] }

/-! ## Unbinding -/

/-- Takes the instance away from a reference. -/
def unbind (e : Engine) (id : NodeId) : Engine :=
  { e with
    graph := e.graph.modify id fun n => n.bind none
    watch := e.watch.filter fun w => w != id }

/-- Frees the nodes of an instance in which no reference is bound. -/
def free (e : Engine) (i : Instance) : Engine :=
  let e := e.report (.discarded i.id)
  { e with
    graph := i.nodes.foldl Slots.vacate e.graph
    pending := e.pending.filter fun id => !i.nodes.contains id }

/-- Whether an instance may go back to the pool of its prototype. -/
def fitsPool (e : Engine) (p : Prototype) (i : Instance) : Bool :=
  i.revision == p.revision &&
    match e.settings.poolCapacity with
    | some capacity => decide (p.pool.length < capacity)
    | none => true

/-- Puts an instance back into the pool of its prototype, or frees it. -/
def shelve (e : Engine) (key : Key) (i : Instance) : Engine :=
  match e.prototype? key with
  | none => e.free i
  | some p =>
    if e.fitsPool p i then
      (e.report (.pooled i.id key)).putPrototype { p with pool := i :: p.pool }
    else e.free i

/-- Leads the outputs of an instance nowhere. -/
def unroute (g : Graph) (outputs : List NodeId) : Graph :=
  outputs.foldl (fun g o => g.modify o fun n => n.modifyFan 0 fun _ => ∅) g

/-- Unbinds a reference if it is bound, those in its instance first, down to `depth` levels. -/
def dismissWithin : Nat → Engine → NodeId → Engine
  | 0, e, _ => e
  | depth + 1, e, id =>
    match e.graph.get? id with
    | none => e
    | some n =>
      match n.body with
      | .reference key (some i) =>
        let e := i.nodes.foldl (dismissWithin depth) (e.unbind id)
        { e with graph := unroute e.graph i.outputs }.shelve key i
      | _ => e

def dismiss (e : Engine) (id : NodeId) : Engine := dismissWithin e.depthBound e id

/-- Unbinds a node that is about to leave.  An instance that still holds signals is not pooled but
given to `scrap`. -/
def withdrawBy (scrap : Engine → Instance → Engine) (e : Engine) (id : NodeId) : Engine :=
  if e.isActive id then
    match e.instance? id with
    | some i => scrap (e.unbind id) i
    | none => e
  else e.dismiss id

/-- Frees an instance with all that is bound inside it, down to `depth` levels. -/
def scrapWithin : Nat → Engine → Instance → Engine
  | 0, e, i => e.free i
  | depth + 1, e, i =>
    let e := e.report (.discarded i.id)
    let e := i.nodes.foldl (fun e id =>
      let e := withdrawBy (scrapWithin depth) e id
      { e with graph := e.graph.vacate id }) e
    { e with pending := e.pending.filter fun id => !i.nodes.contains id }

def scrap (e : Engine) (i : Instance) : Engine := scrapWithin e.depthBound e i

/-- Unbinds a node that is about to leave the graph. -/
def withdraw (e : Engine) (id : NodeId) : Engine := withdrawBy scrap e id

/-- Unbinds all references whose instances have gone quiet. -/
def sweep (e : Engine) : Engine :=
  (e.watch.filter fun id => !e.isActive id).foldl dismiss e

end PulseFlow.Engine
