import PulseFlow.Proofs.Prototypes

/-!
# What operations leave of a node

A node keeps its ports for life.  Binding touches only the body, storing and draining only the
signals, wiring only the fans.  `Registered`, `IsPlaceholder` and `LeadsTo` are what the other
modules ask of a node; each is kept by the operations that do not touch what it speaks of.
-/

namespace PulseFlow.Node

variable {n n' : Node} {i : Option Instance} {t t' : Prototypes}

/-! ## Binding -/

@[simp]
theorem inputs_bind (n : Node) (i : Option Instance) : (n.bind i).inputs = n.inputs := by
  unfold bind
  split <;> rfl

@[simp]
theorem outputs_bind (n : Node) (i : Option Instance) : (n.bind i).outputs = n.outputs := by
  unfold bind
  split <;> rfl

@[simp]
theorem scheduled_bind (n : Node) (i : Option Instance) : (n.bind i).scheduled = n.scheduled := by
  unfold bind
  split <;> rfl

@[simp]
theorem internal_bind (n : Node) (i : Option Instance) : (n.bind i).internal = n.internal := by
  unfold bind
  split <;> rfl

theorem instance?_of_native {l : Logic} (h : n.body = .native l) : n.instance? = none := by
  rw [instance?, h]
  rfl

theorem instance?_of_reference {k : Key} {b : Option Instance} (h : n.body = .reference k b) :
    n.instance? = b := by
  rw [instance?, h]
  rfl

/-- A bound node is a reference. -/
theorem reference_of_instance? {i : Instance} (h : n.instance? = some i) :
    ∃ k, n.body = .reference k (some i) := by
  cases hb : n.body with
  | native l =>
    rw [instance?_of_native hb] at h
    cases h
  | reference k b =>
    rw [instance?_of_reference hb] at h
    exact ⟨k, by rw [h]⟩

@[simp]
theorem instance?_bind_none (n : Node) : (n.bind none).instance? = none := by
  cases hb : n.body with
  | native l => exact instance?_of_native (l := l) (by simp [bind, hb])
  | reference k b => exact instance?_of_reference (k := k) (by simp [bind, hb])

theorem instance?_bind_of_reference {k : Key} {b : Option Instance} (h : n.body = .reference k b)
    (i : Option Instance) : (n.bind i).instance? = i :=
  instance?_of_reference (k := k) (by simp [bind, h])

theorem body_bind_native {l : Logic} (h : n.body = .native l) : (n.bind i).body = .native l := by
  simp [bind, h]

theorem body_bind_reference {k : Key} {b : Option Instance} (h : n.body = .reference k b) :
    (n.bind i).body = .reference k i := by
  simp [bind, h]

/-! ## Fans -/

@[simp]
theorem outputs_modifyFan (n : Node) (port : Nat) (f : Fan → Fan) :
    (n.modifyFan port f).outputs = n.outputs.modify port f := rfl

@[simp]
theorem instance?_modifyFan (n : Node) (port : Nat) (f : Fan → Fan) :
    (n.modifyFan port f).instance? = n.instance? := rfl

/-- On a node with one output, changing its fan is changing all fans. -/
theorem outputs_modifyFan_zero (h : n.outputs.length = 1) (f : Fan) :
    (n.modifyFan 0 fun _ => f).outputs = [f] := by
  rw [outputs_modifyFan]
  obtain ⟨a, ha⟩ := List.length_eq_one_iff.1 h
  rw [ha]
  rfl

/-- What an output leads to is what it was led to last. -/
theorem modifyFan_modifyFan (n : Node) (port : Nat) (f f' : Fan) :
    (n.modifyFan port fun _ => f).modifyFan port (fun _ => f') = n.modifyFan port fun _ => f' := by
  simp [modifyFan, List.modify_modify_eq, Function.comp_def]

/-! ## Placeholders -/

/-- A node with a logic of its own and one output. -/
def IsPlaceholder (n : Node) : Prop := (∃ l, n.body = .native l) ∧ n.outputs.length = 1

theorem IsPlaceholder.instance? (h : n.IsPlaceholder) : n.instance? = none := by
  obtain ⟨⟨l, hl⟩, -⟩ := h
  exact instance?_of_native hl

/-! ## References -/

/-- A reference stands for a registered prototype and has its numbers of ports. -/
def Registered (t : Prototypes) (n : Node) : Prop :=
  ∀ k b, n.body = .reference k b → Prototypes.arity? t k = some (n.inputs.length, n.outputs.length)

theorem Registered.mono (h : n.Registered t)
    (ht : ∀ k a, Prototypes.arity? t k = some a → Prototypes.arity? t' k = some a) :
    n.Registered t' :=
  fun k b hb => ht k _ (h k b hb)

theorem registered_native {l : Logic} (h : n.body = .native l) : n.Registered t := by
  intro k b hb
  rw [h] at hb
  cases hb

theorem registered_bind (h : n.Registered t) (i : Option Instance) : (n.bind i).Registered t := by
  cases hb : n.body with
  | native l => exact registered_native (body_bind_native hb)
  | reference k b =>
    intro k' b' hb'
    rw [body_bind_reference hb] at hb'
    cases hb'
    rw [inputs_bind, outputs_bind]
    exact h k b hb

/-- Nodes with the same body and ports are registered together. -/
theorem Registered.of_body_eq (h : n.Registered t) (hb : n'.body = n.body)
    (hi : n'.inputs.length = n.inputs.length) (ho : n'.outputs.length = n.outputs.length) :
    n'.Registered t := by
  intro k b hk
  rw [hi, ho]
  exact h k b (hb ▸ hk)

/-! ## Connections -/

/-- All connections of a node lead to nodes of which `P` holds. -/
def LeadsTo (P : NodeId → Prop) (n : Node) : Prop := ∀ f ∈ n.outputs, ∀ s ∈ f, P s.node

theorem LeadsTo.imp {P Q : NodeId → Prop} (h : n.LeadsTo P) (hPQ : ∀ id, P id → Q id) :
    n.LeadsTo Q :=
  fun f hf s hs => hPQ s.node (h f hf s hs)

theorem LeadsTo.of_outputs_eq {P : NodeId → Prop} (h : n.LeadsTo P)
    (ho : n'.outputs = n.outputs) : n'.LeadsTo P := by
  unfold LeadsTo
  rw [ho]
  exact h

theorem LeadsTo.modifyFan {P : NodeId → Prop} (h : n.LeadsTo P) (port : Nat) {change : Fan → Fan}
    (hchange : ∀ f : Fan, (∀ s ∈ f, P s.node) → ∀ s ∈ change f, P s.node) :
    (n.modifyFan port change).LeadsTo P := by
  intro f hf s hs
  obtain ⟨j, hj⟩ := List.mem_iff_getElem?.1 hf
  rw [outputs_modifyFan, List.getElem?_modify] at hj
  obtain ⟨f₀, hf₀, rfl⟩ := Option.map_eq_some_iff.1 hj
  have hold := h f₀ (List.mem_of_getElem? hf₀)
  by_cases hport : port = j
  · simp only [if_pos hport] at hs
    exact hchange f₀ hold s hs
  · simp only [if_neg hport] at hs
    exact hold s hs

end PulseFlow.Node
