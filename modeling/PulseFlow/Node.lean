import PulseFlow.Logic.Fire

/-!
# Nodes

A node holds the signals that reached it since it last fired, one at most for each input, and for
each output the sockets that it leads to.  It either has a logic of its own or stands for a
prototype, in which case it may be bound to an instance of it.
-/

namespace PulseFlow

/-- The sockets that one output leads to. -/
abbrev Fan := SortedSet Socket

/-- A copy of a prototype's template in the live graph. -/
structure Instance where
  id : Nat
  /-- The revision of the template it is a copy of, counted as `Prototype.revision` is. -/
  revision : Nat
  /-- All of its nodes, in increasing order. -/
  nodes : List NodeId
  inputs : List NodeId
  outputs : List NodeId
deriving DecidableEq, Repr, Inhabited

inductive Body where
  | native (logic : Logic)
  | reference (key : Key) (bound : Option Instance)

namespace Body

instance : Inhabited Body := ⟨native .socket⟩

def key : Body → Key
  | native l => l.key
  | reference k _ => k

def label : Body → String
  | native l => l.label
  | reference k _ => k.text

def constant? : Body → Option Signal
  | native l => l.constant?
  | reference .. => none

def instance? : Body → Option Instance
  | native _ => none
  | reference _ i => i

/-- A copy for another graph; a reference starts unbound there. -/
def duplicate (b : Body) (h : Heap) : Body × Heap :=
  match b with
  | native l =>
    let (l, h) := l.duplicate h
    (native l, h)
  | reference k _ => (reference k none, h)

end Body

structure Node where
  body : Body
  /-- Signals received since the last firing. -/
  inputs : List (Option Signal)
  outputs : List Fan
  /-- Whether the node waits to be fired. -/
  scheduled : Bool := false
  /-- Whether the node belongs to an instance; such nodes are hidden from callers. -/
  internal : Bool := false

namespace Node

/-- A node without signals and connections. -/
def make (body : Body) (inputs outputs : Nat) (internal : Bool) : Node where
  body := body
  inputs := List.replicate inputs none
  outputs := List.replicate outputs ∅
  internal := internal

def native (l : Logic) : Node := make (.native l) l.inputs l.outputs false

def reference (key : Key) (inputs outputs : Nat) : Node :=
  make (.reference key none) inputs outputs false

instance : Inhabited Node := ⟨native .socket⟩

def key (n : Node) : Key := n.body.key

def label (n : Node) : String := n.body.label

def instance? (n : Node) : Option Instance := n.body.instance?

/-- Whether there are inputs and each holds a signal. -/
def ready (n : Node) : Bool := !n.inputs.isEmpty && n.inputs.all Option.isSome

/-- Puts a signal on an input port. -/
def store (n : Node) (port : Nat) (s : Signal) : Node :=
  { n with inputs := n.inputs.set port (some s) }

/-- The signals held, an empty input counting as `nan`. -/
def held (n : Node) : List Signal := n.inputs.map fun s => s.getD .nan

/-- Empties the inputs. -/
def drain (n : Node) : Node :=
  { n with inputs := n.inputs.map fun _ => none, scheduled := false }

/-- The fan of an output port. -/
def fan? (n : Node) (port : Nat) : Option Fan := n.outputs[port]?

/-- Changes the fan of one output port. -/
def modifyFan (n : Node) (port : Nat) (f : Fan → Fan) : Node :=
  { n with outputs := n.outputs.modify port f }

/-- Changes the fans of all output ports. -/
def mapFans (n : Node) (f : Fan → Fan) : Node := { n with outputs := n.outputs.map f }

/-- Binds a reference to an instance, or unbinds it; other nodes stay as they are. -/
def bind (n : Node) (i : Option Instance) : Node :=
  match n.body with
  | .reference k _ => { n with body := .reference k i }
  | .native _ => n

/-- A copy to be owned by an instance: same body and ports, no signals, no connections. -/
def duplicate (n : Node) (h : Heap) : Node × Heap :=
  let (body, h) := n.body.duplicate h
  (make body n.inputs.length n.outputs.length true, h)

end Node

end PulseFlow
