import PulseFlow.Console
import PulseFlow.Event
import PulseFlow.Heap.Copy

/-!
# The world of a running graph

All that a firing node can touch besides its own inputs and outputs: the arrays, the console, and
the report of what happened.
-/

namespace PulseFlow

/-- What a watching node saw: its inputs, and the heap at that moment. -/
structure Observation where
  tag : String
  inputs : List Signal
  heap : Heap

structure World where
  heap : Heap := {}
  console : Console := .script {}
  /-- Reported events, oldest first. -/
  events : Array Event := #[]
  observations : Array Observation := #[]

namespace World

instance : Inhabited World := ⟨{}⟩

def report (w : World) (e : Event) : World := { w with events := w.events.push e }

def reportAll (w : World) (es : List Event) : World := es.foldl report w

def observe (w : World) (tag : String) (inputs : List Signal) : World :=
  { w with observations := w.observations.push ⟨tag, inputs, w.heap⟩ }

def write (w : World) (s : String) : World := { w with console := w.console.write s }

def clear (w : World) : World := { w with console := w.console.clear }

/-- Reports a line that was not valid; other input needs no report. -/
def reportInput {α : Type} (w : World) : Input α → World
  | .garbled => w.report .readFailed
  | _ => w

def readLine (w : World) : Option String × World :=
  let (line, console) := w.console.readLine
  (line.get?, { w with console }.reportInput line)

def readKey (w : World) : Option Char × World :=
  let (key, console) := w.console.readKey
  (key.get?, { w with console }.reportInput key)

end World

end PulseFlow
