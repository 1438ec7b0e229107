import PulseFlow.Draft
import PulseFlow.Engine.Instances

/-!
# Changing the graph and the templates

Connections made at a bound reference are made at the outputs of its instance as well, so they work
at once.  Editing a template leaves bound instances as they are and frees the idle ones.
-/

namespace PulseFlow.Engine

/-! ## The graph -/

/-- The placeholder that stands for an output of a bound reference. -/
def boundOutput? (e : Engine) (source : Socket) : Option NodeId :=
  (e.instance? source.node).bind fun i => i.outputs[source.port]?

/-- Applies a change of an output to the graph, and to the placeholder that stands for it. -/
def onOutput (e : Engine) (source : Socket) (change : Graph → Socket → Except Error Graph) :
    Except Error Graph := do
  let g ← change e.graph source
  match e.boundOutput? source with
  | some placeholder => change g ⟨placeholder, 0⟩
  | none => return g

/-- Leads an output to an input as well. -/
def connect (e : Engine) (source target : Socket) : Except Error Unit × Engine :=
  let result : Except Error Graph := do
    let _ ← e.visible source.node
    let _ ← e.visible target.node
    e.onOutput source fun g s => Graph.connect g s target
  match result with
  | .ok graph => (.ok (), { e with graph })
  | .error err => (.error err, e)

/-- Leads an output nowhere. -/
def disconnect (e : Engine) (source : Socket) : Except Error Unit × Engine :=
  let result : Except Error Graph := do
    let _ ← e.visible source.node
    e.onOutput source fun g s => Graph.disconnect g s
  match result with
  | .ok graph => (.ok (), { e with graph })
  | .error err => (.error err, e)

/-- Where an output leads, in order. -/
def targets (e : Engine) (source : Socket) : Except Error (List Socket) := do
  let _ ← e.visible source.node
  Graph.targets e.graph source

/-- Takes a node out for good, with its instance and the connections into it. -/
def remove (e : Engine) (id : NodeId) : Except Error Unit × Engine :=
  match e.visible id with
  | .error err => (.error err, e)
  | .ok _ =>
    let e := e.withdraw id
    (.ok (), { e with
      graph := Graph.erase e.graph id
      pending := e.pending.filter fun p => p != id })

/-! ## Templates -/

/-- Edits a template.  The revision grows, and idle instances of the old template are freed, the one
pooled first at first. -/
def editBy {α : Type} (e : Engine) (key : Key) (change : Draft → α × Draft) :
    Except Error α × Engine :=
  match e.prototype? key with
  | none => (.error (.unknownPrototype key), e)
  | some p =>
    let (a, d) := change ⟨p, e.world.heap⟩
    let revision := p.revision + 1
    let e := { e with world := { e.world with heap := d.heap } }
    let e := e.report (.edited key revision p.pool.length)
    let e := e.putPrototype { d.prototype with revision, pool := [] }
    (.ok a, p.pool.reverse.foldl scrap e)

/-- Edits a template by a course of changes. -/
def edit {α : Type} (e : Engine) (key : Key) (course : Edit α) : Except Error α × Engine :=
  e.editBy key (course.run e.registry)

/-- Registers a prototype and edits its template, which may refer to the prototype itself. -/
def register {α : Type} (e : Engine) (key : Key) (inputs outputs : Nat) (course : Edit α) :
    Except Error α × Engine :=
  match e.declare key inputs outputs with
  | (.ok _, e) => e.edit key course
  | (.error err, e) => (.error err, e)

/-- Frees the idle instances of a prototype. -/
def clearPool (e : Engine) (key : Key) : Except Error Unit × Engine :=
  match e.prototype? key with
  | none => (.error (.unknownPrototype key), e)
  | some p =>
    let e := (e.putPrototype { p with pool := [] }).report (.cleared key p.pool.length)
    (.ok (), p.pool.reverse.foldl scrap e)

end PulseFlow.Engine
