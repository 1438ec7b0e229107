import PulseFlow.Engine.Instances

/-!
# Waves

Work proceeds in waves.  A wave fires the nodes that were pending when it began, in order, each with
the signals it held at that moment; nodes that become ready meanwhile wait for the next wave.  At
its end the references that have gone quiet are unbound.
-/

namespace PulseFlow.Engine

/-! ## Delivering -/

/-- Puts a signal on an input; the node becomes pending when each of its inputs holds one. -/
def deliver (e : Engine) (target : Socket) (s : Signal) : Engine :=
  match e.graph.get? target.node with
  | none => e.report (.lostAtNode target.node)
  | some n =>
    if target.port < n.inputs.length then
      let m := n.store target.port s
      if m.ready && !m.scheduled then
        { e with
          graph := e.graph.modify target.node fun _ => { m with scheduled := true }
          pending := e.pending ++ [target.node] }
      else { e with graph := e.graph.modify target.node fun _ => m }
    else e.report (.lostAtPort target)

/-- Sends a signal wherever an output leads. -/
def emit (e : Engine) (source : Socket) (s : Signal) : Engine :=
  match (e.graph.get? source.node).bind fun n => n.fan? source.port with
  | some fan => fan.toList.foldl (fun e target => e.deliver target s) e
  | none => e.report (.lostAtOutput source)

/-- Sends a signal to an input from outside. -/
def pulse (e : Engine) (target : Socket) (s : Signal) : Except Error Unit × Engine :=
  match e.visible target.node with
  | .error err => (.error err, e)
  | .ok _ =>
    match Graph.checkInput e.graph target with
    | .error err => (.error err, e)
    | .ok _ => (.ok (), e.deliver target s)

/-! ## Firing -/

/-- Hands the inputs of a bound reference to its instance, past the placeholders. -/
def forward (e : Engine) (id : NodeId) (inputs : List Signal) : Engine :=
  let entries := ((e.instance? id).map Instance.inputs).getD []
  (entries.zip inputs).foldl (fun e (placeholder, s) => e.emit ⟨placeholder, 0⟩ s) e

/-- Fires a logic and sends out what it emits. -/
def fireLogic (e : Engine) (id : NodeId) (l : Logic) (inputs : List Signal) : Engine :=
  let f := l.fire inputs e.world
  let graph := e.graph.modify id fun n => { n with body := .native f.logic }
  f.emissions.foldl (fun e m => e.emit ⟨id, m.port⟩ m.signal) { e with graph, world := f.world }

/-- Reports a firing if that is asked for. -/
def traceFiring (e : Engine) (id : NodeId) (n : Node) : Engine :=
  if e.settings.traceFiring then e.report (.firing id n.label) else e

def fire (e : Engine) (id : NodeId) (inputs : List Signal) : Except Error Unit × Engine :=
  match e.graph.get? id with
  | none => (.ok (), e)
  | some n =>
    let e := e.traceFiring id n
    match n.body with
    | .native l => (.ok (), e.fireLogic id l inputs)
    | .reference _ (some _) => (.ok (), e.forward id inputs)
    | .reference _ none =>
      match e.engage id with
      | .ok e => (.ok (), e.forward id inputs)
      | .error err => (.error err, e)

/-- A node about to fire, with its inputs. -/
structure Shot where
  id : NodeId
  inputs : List Signal

/-- Takes the signals out of the nodes of a list; those no longer there are passed over. -/
def collect (g : Graph) : List NodeId → List Shot × Graph
  | [] => ([], g)
  | id :: ids =>
    match g.get? id with
    | some n =>
      let (shots, g) := collect (g.modify id Node.drain) ids
      (⟨id, n.held⟩ :: shots, g)
    | none => collect g ids

/-- Fires in order up to the first failure. -/
def fireAll (e : Engine) : List Shot → Except Error Unit × Engine
  | [] => (.ok (), e)
  | shot :: shots =>
    match e.fire shot.id shot.inputs with
    | (.ok _, e) => e.fireAll shots
    | (.error err, e) => (.error err, e)

/-- Runs one wave; tells whether another one is due. -/
def step (e : Engine) : Except Error Bool × Engine :=
  let (shots, graph) := collect e.graph e.pending
  match { e with graph, pending := [] }.fireAll shots with
  | (.error err, e) => (.error err, e)
  | (.ok _, e) =>
    let e := e.sweep
    let e := { e with steps := e.steps + 1 }
    (.ok e.hasPending, e)

/-! ## Running -/

/-- How a run ends: with nothing pending after a number of waves, with a failure, or because it was
given no more waves.  As `Engine.steps`, the number is that of a 64-bit count below 2^64 waves. -/
inductive Halt where
  | idle (taken : Nat)
  | failed (error : Error)
  | unfinished
deriving DecidableEq, Repr

/-- Runs waves until nothing is pending, after `taken` waves that were run before; at most `budget`
more.  The limit of the settings is checked before each wave. -/
def runFrom (taken : Nat) : Nat → Engine → Halt × Engine
  | 0, e => if e.hasPending then (.unfinished, e) else (.idle taken, e)
  | budget + 1, e =>
    if e.hasPending then
      if e.settings.maxSteps.any fun limit => limit ≤ taken then
        (.failed (.stepLimit (e.settings.maxSteps.getD 0)), e)
      else
        match e.step with
        | (.error err, e) => (.failed err, e)
        | (.ok _, e) => runFrom (taken + 1) budget e
    else (.idle taken, e)

/-- Runs waves until nothing is pending. -/
def run (e : Engine) (budget : Nat) : Halt × Engine := runFrom 0 budget e

end PulseFlow.Engine
