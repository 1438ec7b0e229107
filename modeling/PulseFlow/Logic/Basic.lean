import PulseFlow.World

/-!
# What a node does

The built-in kinds of nodes, grouped by what they work on, and nodes defined by the user.  A user's
node has a memory that one firing hands on to the next.
-/

namespace PulseFlow

/-! ## Operations -/

inductive Operator where
  | add
  | subtract
  | multiply
  | divide
  | modulo
deriving DecidableEq, Repr

namespace Operator

def all : List Operator := [add, subtract, multiply, divide, modulo]

def name : Operator → String
  | add => "Add"
  | subtract => "Subtract"
  | multiply => "Multiply"
  | divide => "Divide"
  | modulo => "Modulo"

def apply : Operator → Signal → Signal → Signal
  | add => Signal.add
  | subtract => Signal.subtract
  | multiply => Signal.multiply
  | divide => Signal.divide
  | modulo => Signal.modulo

end Operator

inductive Relation where
  | equal
  | notEqual
  | greater
  | atLeast
  | less
  | atMost
deriving DecidableEq, Repr

namespace Relation

def all : List Relation := [equal, notEqual, greater, atLeast, less, atMost]

def name : Relation → String
  | equal => "EqualTo"
  | notEqual => "NotEqualTo"
  | greater => "GreaterThan"
  | atLeast => "GreaterThanOrEqualTo"
  | less => "LessThan"
  | atMost => "LessThanOrEqualTo"

/-- Whether the relation holds.  `atLeast` and `atMost` hold of signals that cannot be compared. -/
def holds : Relation → Signal → Signal → Bool
  | equal, a, b => a.equalTo b
  | notEqual, a, b => !a.equalTo b
  | greater, a, b => a.greaterThan b
  | atLeast, a, b => !a.lessThan b
  | less, a, b => a.lessThan b
  | atMost, a, b => !a.greaterThan b

end Relation

/-- The kinds for which there is a test, in the order in which the tests are listed. -/
def testedKinds : List Signal.Kind := [.int, .real, .text, .array, .nan]

def testName (k : Signal.Kind) : String := "Is" ++ k.name

inductive ConsoleAction where
  | print
  | printLine
  | readLine
  | readKey
  | clear
deriving DecidableEq, Repr

namespace ConsoleAction

def all : List ConsoleAction := [print, printLine, readLine, readKey, clear]

def name : ConsoleAction → String
  | print => "Print"
  | printLine => "PrintLine"
  | readLine => "ReadLine"
  | readKey => "ReadKey"
  | clear => "Clear"

end ConsoleAction

inductive ArrayAction where
  | create
  | length
  | index
  | insert
  | push
  | pop
  | unshift
  | shift
  | contains
  | indexOf
  | join
deriving DecidableEq, Repr

namespace ArrayAction

def all : List ArrayAction :=
  [create, length, index, insert, push, pop, unshift, shift, contains, indexOf, join]

def name : ArrayAction → String
  | create => "New"
  | length => "Length"
  | index => "Index"
  | insert => "Insert"
  | push => "Push"
  | pop => "Pop"
  | unshift => "Unshift"
  | shift => "Shift"
  | contains => "Contains"
  | indexOf => "IndexOf"
  | join => "Join"

def inputs : ArrayAction → Nat
  | create | length | pop | shift => 1
  | insert => 3
  | _ => 2

def outputs : ArrayAction → Nat
  | pop | shift | contains => 2
  | _ => 1

end ArrayAction

/-- The output taken when a test holds. -/
def positivePort : Nat := 0

/-- The output taken when a test fails. -/
def negativePort : Nat := 1

/-- The output for the outcome of a test. -/
def branch (b : Bool) : Nat := if b then positivePort else negativePort

/-! ## Logics -/

/-- A signal leaving on an output port. -/
structure Emission where
  port : Nat
  signal : Signal

/-- A node defined by the user. -/
structure Custom where
  key : Key
  inputs : Nat
  outputs : Nat
  label : String
  memory : Signal := .nan
  /-- What a firing does with the memory, the inputs and the world. -/
  react : Signal → List Signal → World → Signal × List Emission × World

inductive Logic where
  /-- Hands its input on. -/
  | socket
  /-- Gives the same signal whatever it is pulsed with. -/
  | constant (value : Signal)
  | arithmetic (op : Operator)
  | relation (r : Relation)
  | typeTest (k : Signal.Kind)
  | console (a : ConsoleAction)
  | array (a : ArrayAction)
  | custom (c : Custom)

namespace Logic

instance : Inhabited Logic := ⟨socket⟩

/-- The name under which a logic is registered and saved. -/
def key : Logic → Key
  | socket => ⟨"Core", "Socket"⟩
  | constant v => ⟨"Constant", v.kind.name⟩
  | arithmetic op => ⟨"Math", op.name⟩
  | relation r => ⟨"Compare", r.name⟩
  | typeTest k => ⟨"Type", testName k⟩
  | console a => ⟨"IO", a.name⟩
  | array a => ⟨"Array", a.name⟩
  | custom c => c.key

def inputs : Logic → Nat
  | arithmetic _ | relation _ => 2
  | array a => a.inputs
  | custom c => c.inputs
  | _ => 1

def outputs : Logic → Nat
  | relation _ | typeTest _ => 2
  | array a => a.outputs
  | custom c => c.outputs
  | _ => 1

/-- A short text for a person to read; a constant shows its value, a text in quotes. -/
def label : Logic → String
  | constant (.text s) => "\"" ++ s ++ "\""
  | constant v => v.toText
  | custom c => c.label
  | l => l.key.identifier

def constant? : Logic → Option Signal
  | constant v => some v
  | _ => none

/-- A copy for another place: the arrays of a constant are copied with it. -/
def duplicate (l : Logic) (h : Heap) : Logic × Heap :=
  match l with
  | constant v =>
    let (v, h) := h.copy v
    (constant v, h)
  | l => (l, h)

end Logic

end PulseFlow
