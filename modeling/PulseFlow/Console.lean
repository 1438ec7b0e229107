/-!
# Consoles

The outside world of a running graph, as a value.  A scripted console hands out prepared lines and
keeps what was written; a terminal reads a byte stream line by line and keeps the characters of a
line that were not yet asked for.

Reading a key takes one character.  On a script the empty lines before it are skipped and its line
is dropped once it is used up; on a terminal the line ends are keys as well.
-/

namespace PulseFlow

/-- What a read gives: a value, nothing because the input ended, or nothing because the line was not
valid UTF-8. -/
inductive Input (α : Type) where
  | value (a : α)
  | ended
  | garbled
deriving DecidableEq, Repr

namespace Input

variable {α : Type}

def get? : Input α → Option α
  | value a => some a
  | ended => none
  | garbled => none

end Input

/-! ## Scripts -/

structure Script where
  lines : List String := []
  /-- One entry for each write. -/
  writes : Array String := #[]
  clears : Nat := 0
deriving DecidableEq, Repr, Inhabited

namespace Script

/-- All that was written. -/
def output (s : Script) : String := String.join s.writes.toList

def readLine (s : Script) : Option String × Script :=
  match s.lines with
  | [] => (none, s)
  | line :: rest => (some line, { s with lines := rest })

/-- The first character of the lines, and the lines without it. -/
def takeKey : List String → Option Char × List String
  | [] => (none, [])
  | line :: rest =>
    match line.toList with
    | [] => takeKey rest
    | [c] => (some c, rest)
    | c :: cs => (some c, String.ofList cs :: rest)

def readKey (s : Script) : Option Char × Script :=
  let (key, rest) := takeKey s.lines
  (key, { s with lines := rest })

end Script

/-! ## Terminals -/

structure Terminal where
  /-- Bytes not yet read. -/
  stdin : List UInt8 := []
  /-- Characters of the current line not yet asked for. -/
  keys : List Char := []
  /-- One entry for each write. -/
  writes : Array String := #[]
deriving DecidableEq, Repr, Inhabited

namespace Terminal

/-- The bytes up to and including the first line feed, and the bytes after it. -/
def splitLine : List UInt8 → List UInt8 × List UInt8
  | [] => ([], [])
  | b :: bs =>
    if b = 10 then ([b], bs)
    else
      let (line, rest) := splitLine bs
      (b :: line, rest)

/-- Without the carriage returns and line feeds at the end. -/
def dropLineEnd (cs : List Char) : List Char :=
  (cs.reverse.dropWhile fun c => c == '\r' || c == '\n').reverse

/-- Takes the next line off the stream, its end included. -/
def nextLine (t : Terminal) : Input (List Char) × Terminal :=
  match splitLine t.stdin with
  | ([], _) => (.ended, t)
  | (line, rest) =>
    match String.fromUTF8? ⟨line.toArray⟩ with
    | some s => (.value s.toList, { t with stdin := rest })
    | none => (.garbled, { t with stdin := rest })

/-- The rest of the current line if keys of it are left, else the next line. -/
def readLine (t : Terminal) : Input String × Terminal :=
  if t.keys = [] then
    match t.nextLine with
    | (.value cs, t) => (.value (String.ofList (dropLineEnd cs)), t)
    | (.ended, t) => (.ended, t)
    | (.garbled, t) => (.garbled, t)
  else (.value (String.ofList (dropLineEnd t.keys)), { t with keys := [] })

def readKey (t : Terminal) : Input Char × Terminal :=
  match t.keys with
  | c :: cs => (.value c, { t with keys := cs })
  | [] =>
    match t.nextLine with
    | (.value (c :: cs), t) => (.value c, { t with keys := cs })
    | (.value [], t) => (.ended, t)
    | (.ended, t) => (.ended, t)
    | (.garbled, t) => (.garbled, t)

/-- Moves the cursor home on an empty screen. -/
def clearCode : String := "\x1b[2J\x1b[H"

def output (t : Terminal) : String := String.join t.writes.toList

end Terminal

/-! ## Consoles -/

inductive Console where
  | script (s : Script)
  | terminal (t : Terminal)
deriving Inhabited

namespace Console

def write (text : String) : Console → Console
  | script s => script { s with writes := s.writes.push text }
  | terminal t => terminal { t with writes := t.writes.push text }

def clear : Console → Console
  | script s => script { s with clears := s.clears + 1 }
  | terminal t => terminal { t with writes := t.writes.push Terminal.clearCode }

/-- Nothing read from a script means that it ended. -/
def ofOption {α : Type} : Option α → Input α
  | some a => .value a
  | none => .ended

def readLine : Console → Input String × Console
  | script s => (ofOption s.readLine.1, script s.readLine.2)
  | terminal t => (t.readLine.1, terminal t.readLine.2)

def readKey : Console → Input Char × Console
  | script s => (ofOption s.readKey.1, script s.readKey.2)
  | terminal t => (t.readKey.1, terminal t.readKey.2)

def writes : Console → Array String
  | script s => s.writes
  | terminal t => t.writes

end Console

end PulseFlow
