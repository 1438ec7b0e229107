import PulseFlow.Logic.Basic

/-!
# Firing

What a node sends out, and what it does to the world, once all of its inputs hold a signal.  A node
on arrays that is given something else, a position out of range or an empty array sends nothing and
changes nothing.
-/

namespace PulseFlow

/-- The outcome of a firing: the logic as it is left, the signals sent out in order, the world. -/
structure Firing where
  logic : Logic
  emissions : List Emission
  world : World

/-- A count as a signal; the largest integer stands for all that is larger. -/
def countSignal (n : Nat) : Signal :=
  .int (if n < 9223372036854775808 then Int64.ofNat n else Int64.maxValue)

/-- A position in an array: an integer from zero on. -/
def position? (s : Signal) : Option Nat :=
  s.asInt?.bind fun v => if 0 ≤ v.toInt then some v.toInt.toNat else none

namespace ConsoleAction

def perform : ConsoleAction → Signal → World → World
  | print, s, w => w.write s.toText
  | printLine, s, w => w.write (s.toText ++ "\n")
  | readLine, _, w =>
    let (line, w) := w.readLine
    w.report (.lineRead line)
  | readKey, _, w =>
    let (key, w) := w.readKey
    w.report (.keyRead key)
  | clear, _, w => w.clear

end ConsoleAction

namespace ArrayAction

/-- What an action on the array at `i` does, given the other inputs. -/
def onArray (i : ArrayId) (a b : Signal) (h : Heap) : ArrayAction → List Emission × Heap
  | create => ([], h)
  | length => ([⟨0, countSignal (h.items i).length⟩], h)
  | index =>
    match (position? a).bind fun k => (h.items i)[k]? with
    | some s => ([⟨0, s⟩], h)
    | none => ([], h)
  | insert =>
    match (position? a).bind fun k => h.insertAt? i k b with
    | some h => ([⟨0, .array i⟩], h)
    | none => ([], h)
  | push => ([⟨0, .array i⟩], h.push i a)
  | unshift => ([⟨0, .array i⟩], h.unshift i a)
  | pop =>
    match h.pop? i with
    | some (s, h) => ([⟨0, .array i⟩, ⟨1, s⟩], h)
    | none => ([], h)
  | shift =>
    match h.shift? i with
    | some (s, h) => ([⟨0, .array i⟩, ⟨1, s⟩], h)
    | none => ([], h)
  | contains => ([⟨branch (h.contains i a), a⟩], h)
  | indexOf =>
    match h.indexOf? i a with
    | some k => ([⟨0, countSignal k⟩], h)
    | none => ([], h)
  | join => ([⟨0, .text (h.join i a.toText)⟩], h)

/-- `create` makes a new array whatever its input; all else needs an array as first input. -/
def perform (action : ArrayAction) (inputs : List Signal) (h : Heap) : List Emission × Heap :=
  match action with
  | create =>
    let (i, h) := h.alloc []
    ([⟨0, .array i⟩], h)
  | action =>
    match inputs.getD 0 .nan with
    | .array i => onArray i (inputs.getD 1 .nan) (inputs.getD 2 .nan) h action
    | _ => ([], h)

end ArrayAction

namespace Logic

def fire (l : Logic) (inputs : List Signal) (w : World) : Firing :=
  let first := inputs.getD 0 .nan
  let second := inputs.getD 1 .nan
  match l with
  | socket => ⟨l, [⟨0, first⟩], w⟩
  | constant v => ⟨l, [⟨0, v⟩], w⟩
  | arithmetic op => ⟨l, [⟨0, op.apply first second⟩], w⟩
  | relation r => ⟨l, [⟨branch (r.holds first second), first⟩], w⟩
  | typeTest k => ⟨l, [⟨branch (first.kind == k), first⟩], w⟩
  | console a => ⟨l, [⟨0, first⟩], a.perform first w⟩
  | array a =>
    let (emissions, heap) := a.perform inputs w.heap
    ⟨l, emissions, { w with heap }⟩
  | custom c =>
    let (memory, emissions, w) := c.react c.memory inputs w
    ⟨custom { c with memory }, emissions, w⟩

end Logic

end PulseFlow
