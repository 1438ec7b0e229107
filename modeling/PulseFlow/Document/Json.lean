import PulseFlow.About
import PulseFlow.Document.Basic
import PulseFlow.Json.Field
import PulseFlow.Json.Reader
import PulseFlow.Json.Writer

/-!
# Documents and settings as JSON

Each record of a document has a form as a JSON value and a reader that takes it back.  A literal is
the object of its node with one more member, so it cannot be written as a list, and its other
members are read in full even if they are unknown.
-/

namespace PulseFlow

open Json

/-! ## Writing -/

def Json.ofNat (n : Nat) : Json := number (.natural n)

def Json.ofInt (n : Int) : Json :=
  if 0 ≤ n then number (.natural n.toNat) else number (.negative n)

def Json.ofString (s : String) : Json := text (some s)

def Json.ofMembers (ms : List (String × Json)) : Json :=
  object (ms.map fun m => (some m.1, m.2))

namespace Document

def Edge.toJson (e : Edge) : Json :=
  ofMembers [("node", .ofNat e.node), ("socket", .ofNat e.socket)]

/-- A name is left out when it is absent. -/
def nameMember (name : String) : Option String → List (String × Json)
  | some s => [(name, .ofString s)]
  | none => []

def PlacedNode.members (n : PlacedNode) : List (String × Json) :=
  [("index", .ofNat n.index), ("x", .ofInt n.x.toInt), ("y", .ofInt n.y.toInt)]
    ++ nameMember "category" n.category ++ nameMember "identifier" n.identifier
    ++ [("outputs", .list (n.outputs.map fun es => .list (es.map Edge.toJson)))]

def PlacedNode.toJson (n : PlacedNode) : Json := ofMembers n.members

def Literal.toJson {α : Type} (value : α → Json) (l : Literal α) : Json :=
  ofMembers (l.node.members ++ [("value", value l.value)])

def Canvas.toJson (c : Canvas) : Json :=
  ofMembers [("width", .ofNat c.width.toNat), ("height", .ofNat c.height.toNat)]

def InnerNodes.toJson (n : InnerNodes) : Json :=
  ofMembers [
    ("native", .list (n.named.map PlacedNode.toJson)),
    ("int", .list (n.ints.map (Literal.toJson fun v => .ofInt v.toInt))),
    ("real", .list (n.reals.map (Literal.toJson fun v => .number (.real v)))),
    ("string", .list (n.texts.map (Literal.toJson .ofString))),
    ("nan", .list (n.nans.map PlacedNode.toJson))]

def Template.toJson (t : Template) : Json :=
  ofMembers [
    ("category", .ofString t.key.category),
    ("identifier", .ofString t.key.identifier),
    ("size", Canvas.toJson t.canvas),
    ("inputs", .list (t.inputs.map PlacedNode.toJson)),
    ("outputs", .list (t.outputs.map PlacedNode.toJson)),
    ("nodes", t.nodes.toJson)]

def Project.toJson (p : Project) : Json :=
  ofMembers [("prototypes", .list (p.prototypes.map Template.toJson))]

/-- The text of a document. -/
def Project.write (p : Project) : String := p.toJson.write

/-! ## Reading -/

def readInt32? (j : Json) : Option Int32 := (readInteger? 32 j).map Int32.ofInt

def readUInt32? (j : Json) : Option UInt32 := (readNatural? 32 j).map UInt32.ofNat

def readInt64? (j : Json) : Option Int64 := (readInteger? 64 j).map Int64.ofInt

def Edge.ofJson? (j : Json) : Option Edge :=
  match fields? ["node", "socket"] j with
  | some [node, socket] => do
    return ⟨← required (readNatural? 64) node, ← required (readNatural? 64) socket⟩
  | _ => none

def PlacedNode.ofJson? (j : Json) : Option PlacedNode :=
  match fields? ["index", "x", "y", "category", "identifier", "outputs"] j with
  | some [index, x, y, category, identifier, outputs] => do
    return {
      index := ← required (readNatural? 64) index
      x := ← optional 0 readInt32? x
      y := ← optional 0 readInt32? y
      category := ← optional none (nullable readString?) category
      identifier := ← optional none (nullable readString?) identifier
      outputs := ← optional [] (readList? (readList? Edge.ofJson?)) outputs }
  | _ => none

/-- How many levels a member of a literal may have: documents have at most 127, and a literal stands
at the sixth. -/
def literalDepth : Nat := 121

def Literal.ofJson? {α : Type} (value : Json → Option α) : Json → Option (Literal α)
  | .object ms => do
    let ms ← namedMembers? ms
    let v ← required value (← member? ms "value")
    let others := ms.filter fun m => m.1 != "value"
    if others.all fun m => m.2.clean literalDepth then
      return ⟨← PlacedNode.ofJson? (ofMembers others), v⟩
    else none
  | _ => none

def Canvas.ofJson? (j : Json) : Option Canvas :=
  match fields? ["width", "height"] j with
  | some [width, height] => do
    return ⟨← required readUInt32? width, ← required readUInt32? height⟩
  | _ => none

def InnerNodes.ofJson? (j : Json) : Option InnerNodes :=
  match fields? ["native", "int", "real", "string", "nan"] j with
  | some [named, ints, reals, texts, nans] => do
    return {
      named := ← optional [] (readList? PlacedNode.ofJson?) named
      ints := ← optional [] (readList? (Literal.ofJson? readInt64?)) ints
      reals := ← optional [] (readList? (Literal.ofJson? readReal?)) reals
      texts := ← optional [] (readList? (Literal.ofJson? readString?)) texts
      nans := ← optional [] (readList? PlacedNode.ofJson?) nans }
  | _ => none

def Template.ofJson? (j : Json) : Option Template :=
  match fields? ["category", "identifier", "size", "inputs", "outputs", "nodes"] j with
  | some [category, identifier, size, inputs, outputs, nodes] => do
    let category ← required readString? category
    let identifier ← required readString? identifier
    return {
      key := ⟨category, identifier⟩
      canvas := ← optional {} Canvas.ofJson? size
      inputs := ← optional [] (readList? PlacedNode.ofJson?) inputs
      outputs := ← optional [] (readList? PlacedNode.ofJson?) outputs
      nodes := ← optional {} InnerNodes.ofJson? nodes }
  | _ => none

def Project.ofJson? (j : Json) : Option Project :=
  match fields? ["prototypes"] j with
  | some [prototypes] => do
    return ⟨← required (readList? Template.ofJson?) prototypes⟩
  | _ => none

/-- Reads the text of a document. -/
def Project.read? (s : String) : Option Project := (Json.read? s).bind Project.ofJson?

end Document

/-! ## Settings -/

def Settings.ofJson? (j : Json) : Option Settings :=
  match fields? ["max_steps", "pool_capacity", "trace_firing"] j with
  | some [maxSteps, poolCapacity, traceFiring] => do
    return {
      maxSteps := ← Json.optional none (nullable (readNatural? 64)) maxSteps
      poolCapacity := ← Json.optional none (nullable (readNatural? 64)) poolCapacity
      traceFiring := ← Json.optional false readBool? traceFiring }
  | _ => none

def Settings.read? (s : String) : Option Settings := (Json.read? s).bind Settings.ofJson?

end PulseFlow
