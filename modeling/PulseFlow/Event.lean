import PulseFlow.Error
import PulseFlow.Text.Quoted

/-!
# Events

What an engine reports while it works.  Instances are named by their numbers; the text of an event
leaves it to the reader how such a number is shown.
-/

namespace PulseFlow

inductive Level where
  | trace
  | debug
  | warn
deriving DecidableEq, Repr

def Level.name : Level → String
  | trace => "TRACE"
  | debug => "DEBUG"
  | warn => "WARN"

inductive Event where
  | firing (id : NodeId) (label : String)
  | declared (key : Key) (inputs outputs : Nat)
  | edited (key : Key) (revision dropped : Nat)
  | cleared (key : Key) (count : Nat)
  | reused (instanceId : Nat) (key : Key)
  | instantiated (key : Key) (id : NodeId) (size : Nat)
  | pooled (instanceId : Nat) (key : Key)
  | discarded (instanceId : Nat)
  | imported (count : Nat)
  | importFailed (error : Error) (dropped : Nat)
  | lineRead (line : Option String)
  | keyRead (key : Option Char)
  | readFailed
  | lostAtNode (id : NodeId)
  | lostAtPort (socket : Socket)
  | lostAtOutput (socket : Socket)
deriving DecidableEq, Repr

namespace Event

def level : Event → Level
  | firing .. => .trace
  | lostAtNode _ | lostAtPort _ | lostAtOutput _ | readFailed => .warn
  | _ => .debug

/-- An optional value as it is shown in an event. -/
def optional {α : Type} (f : α → String) : Option α → String
  | some a => "Some(" ++ f a ++ ")"
  | none => "None"

/-- The text of an event; `name` says how the number of an instance is shown. -/
def text (name : Nat → String) : Event → String
  | firing id label => s!"firing {nodeText id} {label}"
  | declared k i o => s!"declared prototype {k.text} ({i} -> {o})"
  | edited k r n => s!"edited prototype {k.text} (revision {r}, {n} idle instances dropped)"
  | cleared k n => s!"cleared {n} idle instances of {k.text}"
  | reused i k => s!"reusing instance {name i} of {k.text}"
  | instantiated k id n => s!"instantiated {k.text} for {nodeText id} ({n} nodes)"
  | pooled i k => s!"instance {name i} of {k.text} returned to pool"
  | discarded i => s!"discarding instance {name i}"
  | imported n => s!"imported {n} prototypes"
  | importFailed e n => s!"import failed ({e.message}), dropping {n} prototypes"
  | lineRead l => s!"read line {optional Text.quoteText l}"
  | keyRead c => s!"read key {optional Text.quoteChar c}"
  | readFailed => "console read failed: stream did not contain valid UTF-8"
  | lostAtNode id => s!"dropped pulse for missing node {nodeText id}"
  | lostAtPort s => s!"dropped pulse for missing port {s.text}"
  | lostAtOutput s => s!"node {nodeText s.node} emitted on missing output {s.port}"

/-- The instance that an event names, if it names one. -/
def instanceId? : Event → Option Nat
  | reused i _ | pooled i _ | discarded i => some i
  | _ => none

end Event

end PulseFlow
