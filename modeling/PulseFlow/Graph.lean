import PulseFlow.Node
import PulseFlow.Slots

/-!
# Graphs

Nodes in slots, connected by the fans of their outputs.  The live graph of an engine and the
template of a prototype are both graphs.

    connecting twice is connecting once                      (fans are sets)
    removing a node removes the connections into it          (`erase`)
    bypassing a node leads what came in at port k on to where its output k led   (`bypass`)
-/

namespace PulseFlow

abbrev Graph := Slots Node

namespace Graph

def empty : Graph := Slots.empty

/-- The node with a number, or why there is none. -/
def find (g : Graph) (id : NodeId) : Except Error Node :=
  match g.get? id with
  | some n => .ok n
  | none => .error (.missingNode id)

/-- Whether a port counts among `arity` ports. -/
def checkPort (s : Socket) (arity : Nat) : Except Error Unit :=
  if s.port < arity then .ok () else .error (.portOutOfRange s arity)

def checkOutput (g : Graph) (s : Socket) : Except Error Unit := do
  checkPort s (← g.find s.node).outputs.length

def checkInput (g : Graph) (s : Socket) : Except Error Unit := do
  checkPort s (← g.find s.node).inputs.length

/-- Leads an output to an input as well. -/
def connect (g : Graph) (source target : Socket) : Except Error Graph := do
  g.checkOutput source
  g.checkInput target
  return g.modify source.node fun n => n.modifyFan source.port fun f => f.insert target

/-- Leads an output nowhere. -/
def disconnect (g : Graph) (source : Socket) : Except Error Graph := do
  g.checkOutput source
  return g.modify source.node fun n => n.modifyFan source.port fun _ => ∅

/-- Where an output leads, in order. -/
def targets (g : Graph) (source : Socket) : Except Error (List Socket) := do
  g.checkOutput source
  return (((← g.find source.node).fan? source.port).getD ∅).toList

/-- Takes a node out for good, with the connections into it. -/
def erase (g : Graph) (id : NodeId) : Graph :=
  (g.close id).map fun n => n.mapFans fun f => f.filter fun s => s.node != id

/-- A fan that used to lead into node `id`, led on through `exits`: what entered at port `k` goes to
the sockets of `exits[k]`. -/
def leadOn (id : NodeId) (exits : List Fan) (f : Fan) : Fan :=
  let ports := (f.toList.filter fun s => s.node == id).map Socket.port
  ports.foldl (fun f k => f.union (exits.getD k ∅)) f

/-- Takes a node out and joins the connections on its two sides, port by port. -/
def bypass (g : Graph) (id : NodeId) : Except Error Graph := do
  let n ← g.find id
  let exits := n.outputs.map fun f => f.filter fun s => s.node != id
  return erase (g.map fun m => m.mapFans (leadOn id exits)) id

end Graph

end PulseFlow
