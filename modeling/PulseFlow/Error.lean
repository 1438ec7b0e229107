import PulseFlow.Name
import PulseFlow.Signal.Basic

/-!
# Failures

Why a call on an engine, a template or a document fails.  Problems with data never appear here: an
operation without a result gives `nan`, and a node without an answer stays silent.
-/

namespace PulseFlow

/-- What is wrong with a well-formed document. -/
inductive DocumentFault where
  | repeatedIndex (prototype : Key) (index : Nat)
  | namelessNode (prototype : Key) (index : Nat)
  | unregistered (prototype : Key) (used : Key)
  | danglingEdge (prototype : Key) (index target : Nat)
  /-- A constant that a document has no form for. -/
  | unsavable (prototype : Key) (kind : Signal.Kind)
deriving DecidableEq, Repr

inductive Error where
  | unknownNode (key : Key)
  | unknownPrototype (key : Key)
  | duplicate (key : Key)
  | missingNode (id : NodeId)
  | portOutOfRange (socket : Socket) (arity : Nat)
  | noSuchBoundary (prototype : Key) (port : Nat)
  | boundaryNode (id : NodeId)
  | stepLimit (limit : Nat)
  | invalidLiteral (text : String)
  | invalidDocument (fault : DocumentFault)
  /-- A text that is no document at all. -/
  | malformed
  /-- A file that cannot be read as text. -/
  | unreadable
deriving DecidableEq, Repr

def DocumentFault.message : DocumentFault → String
  | repeatedIndex p i => s!"{p.text} uses node index {i} twice"
  | namelessNode p i => s!"node {i} in {p.text} has no name"
  | unregistered p k => s!"{p.text} uses unregistered node {k.text}"
  | danglingEdge p i j => s!"edge from node {i} in {p.text} points at missing node {j}"
  | unsavable p k => s!"{p.text} holds a {k.name} constant that cannot be saved"

def Error.message : Error → String
  | unknownNode k => s!"no native node or prototype named {k.text}"
  | unknownPrototype k => s!"prototype {k.text} is not registered"
  | duplicate k => s!"{k.text} is already registered"
  | missingNode i => s!"node {nodeText i} does not exist"
  | portOutOfRange s a => s!"node {nodeText s.node} has no port {s.port} (arity {a})"
  | noSuchBoundary k p => s!"prototype {k.text} has no boundary port {p}"
  | boundaryNode i => s!"node {nodeText i} is a prototype boundary and cannot be removed"
  | stepLimit n => s!"graph still had pending work after {n} steps"
  | invalidLiteral t => s!"invalid literal: {t}"
  | invalidDocument f => s!"invalid save: {f.message}"
  | malformed => "malformed document"
  | unreadable => "unreadable file"

end PulseFlow
