import PulseFlow.Proofs.Nodes

/-!
# Nodes of one form, and what leads where

Two nodes have one form when they do the same at the same numbers of ports.  What a node holds may
differ: the signals at its inputs, the instance it is bound to, the memory of a user's logic, the
place of an array.

A graph is read as a relation between sockets: an output leads to an input (`Leads`).  It is plugged
in when everything that leads somewhere leads to an input that is there.

    l.SameKind l' → l'.key = l.key                            (SameKind.key)
    l.SameKind (l.fire inputs w).logic                        (sameKind_fire)
    l.SameKind (l.duplicate h).1                              (sameKind_duplicate)
-/

namespace PulseFlow

/-! ## Logics -/

namespace Logic

/-- Logics that do the same, but for the place of an array and the memory of a user's logic. -/
inductive SameKind : Logic → Logic → Prop
  | refl (l : Logic) : SameKind l l
  | array (i j : ArrayId) : SameKind (constant (.array i)) (constant (.array j))
  | custom (c : Custom) (memory : Signal) : SameKind (custom c) (custom { c with memory })

namespace SameKind

variable {l l' l'' : Logic}

theorem trans (h : l.SameKind l') (h' : l'.SameKind l'') : l.SameKind l'' := by
  cases h with
  | refl => exact h'
  | array i j =>
    cases h' with
    | refl => exact .array i j
    | array _ k => exact .array i k
  | custom c m =>
    cases h' with
    | refl => exact .custom c m
    | custom _ m' => exact .custom c m'

theorem key (h : l.SameKind l') : l'.key = l.key := by cases h <;> rfl

end SameKind

/-- A copy of a logic differs from it at most in the place of an array. -/
theorem sameKind_duplicate (l : Logic) (h : Heap) : l.SameKind (l.duplicate h).1 := by
  cases l with
  | constant v =>
    cases v with
    | array i =>
      show (constant (.array i)).SameKind (constant (Heap.rename _ _ (.array i)))
      rw [Heap.rename]
      split <;> exact .array _ _
    | _ => exact .refl _
  | _ => exact .refl _

/-- Firing changes nothing of a logic but its memory. -/
theorem sameKind_fire (l : Logic) (inputs : List Signal) (w : World) :
    l.SameKind (l.fire inputs w).logic := by
  cases l with
  | custom c => exact .custom c _
  | _ => exact .refl _

end Logic

/-! ## Nodes -/

/-- Bodies with a logic of one kind, or standing for one prototype. -/
inductive Body.SameForm : Body → Body → Prop
  | native {l l' : Logic} (h : l.SameKind l') : SameForm (.native l) (.native l')
  | reference (k : Key) (b b' : Option Instance) : SameForm (.reference k b) (.reference k b')

theorem Body.SameForm.refl (b : Body) : b.SameForm b := by
  cases b with
  | native l => exact .native (.refl l)
  | reference k i => exact .reference k i i

/-- Nodes that do the same and have as many ports. -/
structure Node.SameForm (n n' : Node) : Prop where
  body : n.body.SameForm n'.body
  inputs : n'.inputs.length = n.inputs.length
  outputs : n'.outputs.length = n.outputs.length

namespace Node.SameForm

variable {n n' n'' : Node}

theorem refl (n : Node) : n.SameForm n := ⟨.refl n.body, rfl, rfl⟩

theorem trans (h : n.SameForm n') (h' : n'.SameForm n'') : n.SameForm n'' where
  body := by
    have hb := h.body
    have hb' := h'.body
    revert hb hb'
    generalize n.body = b, n'.body = b', n''.body = b''
    intro hb hb'
    cases hb with
    | native hl =>
      cases hb' with
      | native hl' => exact .native (hl.trans hl')
    | reference k i j =>
      cases hb' with
      | reference _ _ j' => exact .reference k i j'
  inputs := h'.inputs.trans h.inputs
  outputs := h'.outputs.trans h.outputs

theorem key (h : n.SameForm n') : n'.key = n.key := by
  have hb := h.body
  unfold Node.key
  revert hb
  generalize n.body = b, n'.body = b'
  intro hb
  cases hb with
  | native hl => exact hl.key
  | reference => rfl

theorem bind (n : Node) (i : Option Instance) : n.SameForm (n.bind i) where
  body := by
    cases hb : n.body with
    | native l =>
      rw [body_bind_native hb]
      exact .native (.refl l)
    | reference k b =>
      rw [body_bind_reference hb]
      exact .reference k b i
  inputs := by rw [inputs_bind]
  outputs := by rw [outputs_bind]

end Node.SameForm

/-! ## Signatures -/

/-- What callers know a node by: its key and its numbers of ports. -/
structure Signature where
  key : Key
  inputs : Nat
  outputs : Nat
deriving DecidableEq

def Logic.signature (l : Logic) : Signature := ⟨l.key, l.inputs, l.outputs⟩

def Node.signature (n : Node) : Signature := ⟨n.key, n.inputs.length, n.outputs.length⟩

theorem Logic.SameKind.signature {l l' : Logic} (h : l.SameKind l') :
    l'.signature = l.signature := by
  cases h <;> rfl

theorem Node.SameForm.signature {n n' : Node} (h : n.SameForm n') :
    n'.signature = n.signature := by
  rw [Node.signature, h.key, h.inputs, h.outputs, Node.signature]

theorem Node.signature_native (l : Logic) : (Node.native l).signature = l.signature := by
  simp [Node.signature, Node.native, Node.make, Node.key, Body.key, Logic.signature]

theorem Node.signature_reference (key : Key) (inputs outputs : Nat) :
    (Node.reference key inputs outputs).signature = ⟨key, inputs, outputs⟩ := by
  simp [Node.signature, Node.reference, Node.make, Node.key, Body.key]

/-! ## What leads where -/

namespace Graph

/-- An output leads to an input. -/
def Leads (g : Graph) (source target : Socket) : Prop :=
  ∃ n f, g.get? source.node = some n ∧ n.fan? source.port = some f ∧ target ∈ f

/-- The node is there and has the input. -/
def HasInput (g : Graph) (s : Socket) : Prop :=
  ∃ n, g.get? s.node = some n ∧ s.port < n.inputs.length

/-- Whatever leads somewhere leads to an input that is there. -/
def Plugged (g : Graph) : Prop := ∀ source target, Leads g source target → HasInput g target

variable {g g' : Graph} {s t : Socket} {n n' : Node}

theorem leads_of_get? (hn : g.get? s.node = some n) :
    Leads g s t ↔ ∃ f, n.fan? s.port = some f ∧ t ∈ f := by
  constructor
  · rintro ⟨n', f, hn', hf, ht⟩
    cases hn.symm.trans hn'
    exact ⟨f, hf, ht⟩
  · rintro ⟨f, hf, ht⟩
    exact ⟨n, f, hn, hf, ht⟩

/-- Nodes with the same fans lead to the same places. -/
theorem leads_congr (hn : g.get? s.node = some n) (hn' : g'.get? s.node = some n')
    (ho : n'.outputs = n.outputs) : Leads g' s t ↔ Leads g s t := by
  rw [leads_of_get? hn, leads_of_get? hn', Node.fan?, ho, Node.fan?]

theorem Leads.live (h : Leads g s t) : ∃ n, g.get? s.node = some n := by
  obtain ⟨n, -, hn, -⟩ := h
  exact ⟨n, hn⟩

theorem HasInput.live (h : HasInput g t) : ∃ n, g.get? t.node = some n := by
  obtain ⟨n, hn, -⟩ := h
  exact ⟨n, hn⟩

theorem Leads.mem_outputs (h : Leads g s t) :
    ∃ n f, g.get? s.node = some n ∧ f ∈ n.outputs ∧ t ∈ f := by
  obtain ⟨n, f, hn, hf, ht⟩ := h
  exact ⟨n, f, hn, List.mem_of_getElem? hf, ht⟩

/-- A node leads where all that leads out of it leads. -/
theorem Leads.node {P : NodeId → Prop} (h : Leads g s t)
    (hn : g.get? s.node = some n) (hl : n.LeadsTo P) : P t.node := by
  obtain ⟨m, f, hm, hf, ht⟩ := h.mem_outputs
  cases hn.symm.trans hm
  exact hl f hf t ht

theorem HasInput.of_sameForm (h : HasInput g t) (hg : ∀ n, g.get? t.node = some n →
    ∃ n', g'.get? t.node = some n' ∧ n.SameForm n') : HasInput g' t := by
  obtain ⟨n, hn, hp⟩ := h
  obtain ⟨n', hn', hf⟩ := hg n hn
  exact ⟨n', hn', hf.inputs ▸ hp⟩

end Graph

end PulseFlow
