import PulseFlow.Proofs.Sound

/-!
# Fading graphs

While instances are taken apart, a node of the graph may lose its instance, lose its connections, or
go.  Its signals, its ports and whether it is scheduled stay as they are.  So nothing becomes bound,
scheduled or active on the way:

    Fades g g' → Active g' id → Active g id                                (Fades.active)
-/

namespace PulseFlow

/-! ## Rows: what is found at a number after a change -/

namespace Graph

variable {g : Graph} {id k : NodeId}

theorem instance?_unbind (g : Graph) (id k : NodeId) :
    instance? (g.modify id fun n => n.bind none) k = if k = id then none else instance? g k := by
  unfold instance?
  rw [Slots.get?_modify]
  by_cases hk : id = k
  · subst hk
    cases g.get? id <;> simp
  · rw [if_neg hk, if_neg (Ne.symm hk)]

theorem live_unbind {n : Node} (h : g.get? k = some n) :
    ∃ n', (g.modify id fun n => n.bind none).get? k = some n' ∧ n'.outputs = n.outputs := by
  rw [Slots.get?_modify, h]
  by_cases hk : id = k
  · exact ⟨n.bind none, by simp [hk], by simp⟩
  · exact ⟨n, by simp [hk], rfl⟩

/-- After an unbinding, a node is as it was or has lost its instance. -/
theorem row_unbind {n' : Node} (h : (g.modify id fun n => n.bind none).get? k = some n') :
    ∃ n, g.get? k = some n ∧ (n' = n ∨ (k = id ∧ n' = n.bind none)) := by
  rw [Slots.get?_modify] at h
  by_cases hk : id = k
  · rw [if_pos hk, Option.map_eq_some_iff] at h
    obtain ⟨n, hn, rfl⟩ := h
    exact ⟨n, hn, .inr ⟨hk.symm, rfl⟩⟩
  · rw [if_neg hk] at h
    exact ⟨n', h, .inl rfl⟩

theorem get?_unroute (g : Graph) (outputs : List NodeId) (k : NodeId) :
    (Engine.unroute g outputs).get? k =
      if k ∈ outputs then (g.get? k).map fun n => n.modifyFan 0 fun _ => ∅ else g.get? k := by
  unfold Engine.unroute
  induction outputs generalizing g with
  | nil => simp
  | cons o os ih =>
    rw [List.foldl_cons, ih, Slots.get?_modify]
    by_cases ho : o = k
    · subst ho
      by_cases hos : o ∈ os
      · -- leading an output nowhere twice is leading it nowhere once
        rw [if_pos hos, if_pos rfl, if_pos List.mem_cons_self, Option.map_map]
        congr 1
        funext n
        exact n.modifyFan_modifyFan 0 ∅ ∅
      · rw [if_neg hos, if_pos rfl, if_pos List.mem_cons_self]
    · rw [if_neg ho]
      simp [Ne.symm ho]

/-- Some of the nodes `os` lead elsewhere with their first output; nothing else differs. -/
def Refans (os : List NodeId) (g g' : Graph) : Prop :=
  ∀ k, g'.get? k = g.get? k ∨
    k ∈ os ∧ ∃ f : Fan, g'.get? k = (g.get? k).map fun n => n.modifyFan 0 fun _ => f

namespace Refans

variable {os : List NodeId} {g' : Graph}

theorem keep (h : Refans os g g') (hk : k ∉ os) : g'.get? k = g.get? k :=
  (h k).resolve_right fun hr => hk hr.1

theorem row {n' : Node} (h : Refans os g g') (hn' : g'.get? k = some n') :
    ∃ n, g.get? k = some n ∧ (n' = n ∨ k ∈ os ∧ ∃ f : Fan, n' = n.modifyFan 0 fun _ => f) := by
  rcases h k with hk | ⟨hk, f, hf⟩
  · exact ⟨n', hk ▸ hn', .inl rfl⟩
  · rw [hf, Option.map_eq_some_iff] at hn'
    obtain ⟨n, hn, rfl⟩ := hn'
    exact ⟨n, hn, .inr ⟨hk, f, rfl⟩⟩

theorem live {n : Node} (h : Refans os g g') (hn : g.get? k = some n) :
    ∃ n', g'.get? k = some n' := by
  rcases h k with hk | ⟨-, f, hf⟩
  · exact ⟨n, hk.trans hn⟩
  · rw [hn] at hf
    exact ⟨_, hf⟩

theorem instance? (h : Refans os g g') (k : NodeId) : Graph.instance? g' k = Graph.instance? g k := by
  unfold Graph.instance?
  rcases h k with hk | ⟨-, f, hf⟩
  · rw [hk]
  · rw [hf]
    cases g.get? k <;> rfl

end Refans

theorem refans_unroute (g : Graph) (outputs : List NodeId) :
    Refans outputs g (Engine.unroute g outputs) := by
  intro k
  rw [get?_unroute]
  by_cases hk : k ∈ outputs
  · exact .inr ⟨hk, ∅, if_pos hk⟩
  · exact .inl (if_neg hk)

theorem tidy_unroute (h : g.Tidy) (outputs : List NodeId) : (Engine.unroute g outputs).Tidy := by
  unfold Engine.unroute
  induction outputs generalizing g with
  | nil => exact h
  | cons o os ih => exact ih (Slots.tidy_modify h o _)

/-- Placeholders led nowhere lead nowhere. -/
theorem outputs_unroute {outputs : List NodeId} {n' : Node} (hk : k ∈ outputs)
    (hp : ∀ n, g.get? k = some n → n.IsPlaceholder)
    (h : (Engine.unroute g outputs).get? k = some n') : n'.outputs = [∅] := by
  rw [get?_unroute, if_pos hk, Option.map_eq_some_iff] at h
  obtain ⟨n, hn, rfl⟩ := h
  exact Node.outputs_modifyFan_zero (hp n hn).2 ∅

theorem row_vacate {n' : Node} (h : (g.vacate id).get? k = some n') :
    k ≠ id ∧ g.get? k = some n' := by
  rw [Slots.get?_vacate] at h
  by_cases hk : id = k
  · rw [if_pos hk] at h
    cases h
  · rw [if_neg hk] at h
    exact ⟨Ne.symm hk, h⟩

theorem get?_vacate_of_ne (hk : k ≠ id) : (g.vacate id).get? k = g.get? k := by
  rw [Slots.get?_vacate, if_neg (Ne.symm hk)]

theorem instance?_vacate (hid : instance? g id = none) (k : NodeId) :
    instance? (g.vacate id) k = instance? g k := by
  by_cases hk : k = id
  · subst hk
    rw [hid]
    exact instance?_of_get?_none (by rw [Slots.get?_vacate, if_pos rfl])
  · rw [instance?, get?_vacate_of_ne hk, instance?]

end Graph

/-! ## Fading -/

/-- A node that may have lost its instance and its connections, and nothing else. -/
structure Node.Fades (n n' : Node) : Prop where
  inputs : n'.inputs = n.inputs
  scheduled : n'.scheduled = n.scheduled
  internal : n'.internal = n.internal
  arity : n'.outputs.length = n.outputs.length
  body : n'.body = n.body ∨ ∃ k b, n.body = .reference k b ∧ n'.body = .reference k none

namespace Node.Fades

variable {n n' n'' : Node}

theorem refl (n : Node) : n.Fades n := ⟨rfl, rfl, rfl, rfl, .inl rfl⟩

theorem trans (h : n.Fades n') (h' : n'.Fades n'') : n.Fades n'' where
  inputs := h'.inputs.trans h.inputs
  scheduled := h'.scheduled.trans h.scheduled
  internal := h'.internal.trans h.internal
  arity := h'.arity.trans h.arity
  body := by
    rcases h.body with hb | ⟨k, b, hb, hb'⟩ <;> rcases h'.body with hc | ⟨j, c, hc, hc'⟩
    · exact .inl (hc.trans hb)
    · exact .inr ⟨j, c, hb ▸ hc, hc'⟩
    · exact .inr ⟨k, b, hb, hc.trans hb'⟩
    · rw [hb'] at hc
      cases hc
      exact .inr ⟨k, b, hb, hc'⟩

theorem bind_none (n : Node) : n.Fades (n.bind none) where
  inputs := n.inputs_bind none
  scheduled := n.scheduled_bind none
  internal := n.internal_bind none
  arity := by rw [n.outputs_bind none]
  body := by
    cases hb : n.body with
    | native l => exact .inl (body_bind_native hb)
    | reference k b => exact .inr ⟨k, b, rfl, body_bind_reference hb⟩

theorem modifyFan (n : Node) (port : Nat) (f : Fan → Fan) : n.Fades (n.modifyFan port f) :=
  ⟨rfl, rfl, rfl, by simp, .inl rfl⟩

theorem instance? (h : n.Fades n') {i : Instance} (hi : n'.instance? = some i) :
    n.instance? = some i := by
  rcases h.body with hb | ⟨k, b, -, hb'⟩
  · rw [Node.instance?, ← hb]
    exact hi
  · rw [instance?_of_reference hb'] at hi
    cases hi

theorem ready (h : n.Fades n') : n'.ready = n.ready := by
  rw [Node.ready, h.inputs, Node.ready]

theorem placeholder (h : n.Fades n') (hp : n.IsPlaceholder) : n'.IsPlaceholder := by
  obtain ⟨⟨l, hl⟩, ho⟩ := hp
  refine ⟨⟨l, ?_⟩, h.arity.trans ho⟩
  rcases h.body with hb | ⟨k, b, hb, -⟩
  · exact hb.trans hl
  · rw [hl] at hb
    cases hb

theorem registered {t : Prototypes} (h : n.Fades n') (hr : n.Registered t) : n'.Registered t := by
  rcases h.body with hb | ⟨k, b, hb, hb'⟩
  · exact hr.of_body_eq hb (by rw [h.inputs]) h.arity
  · intro k' b' hk
    rw [hb'] at hk
    cases hk
    rw [h.inputs, h.arity]
    exact hr k b hb

end Node.Fades

/-- A graph that may have lost nodes, and whose nodes may have faded. -/
def Graph.Fades (g g' : Graph) : Prop :=
  ∀ k n', g'.get? k = some n' → ∃ n, g.get? k = some n ∧ n.Fades n'

namespace Graph.Fades

variable {g g' g'' : Graph} {id : NodeId}

theorem refl (g : Graph) : Fades g g := fun _ n' h => ⟨n', h, .refl n'⟩

theorem trans (h : Fades g g') (h' : Fades g' g'') : Fades g g'' := by
  intro k n'' hn''
  obtain ⟨n', hn', hf'⟩ := h' k n'' hn''
  obtain ⟨n, hn, hf⟩ := h k n' hn'
  exact ⟨n, hn, hf.trans hf'⟩

theorem unbind (g : Graph) (id : NodeId) : Fades g (g.modify id fun n => n.bind none) := by
  intro k n' h
  obtain ⟨n, hn, rfl | ⟨-, rfl⟩⟩ := row_unbind h
  · exact ⟨n', hn, .refl n'⟩
  · exact ⟨n, hn, .bind_none n⟩

theorem refans {os : List NodeId} (h : Refans os g g') : Fades g g' := by
  intro k n' hn'
  obtain ⟨n, hn, rfl | ⟨-, f, rfl⟩⟩ := h.row hn'
  · exact ⟨n', hn, .refl n'⟩
  · exact ⟨n, hn, .modifyFan n 0 _⟩

theorem vacate (g : Graph) (id : NodeId) : Fades g (g.vacate id) := fun _ n' h =>
  ⟨n', (row_vacate h).2, .refl n'⟩

theorem node (h : Fades g g') {n n' : Node} (hn : g.get? id = some n) (hn' : g'.get? id = some n') :
    n.Fades n' := by
  obtain ⟨m, hm, hf⟩ := h id n' hn'
  rw [hn] at hm
  cases hm
  exact hf

theorem instance? (h : Fades g g') {i : Instance} (hi : Graph.instance? g' id = some i) :
    Graph.instance? g id = some i := by
  obtain ⟨n', hn', hi'⟩ := instance?_eq_some_iff.1 hi
  obtain ⟨n, hn, hf⟩ := h id n' hn'
  exact instance?_eq_some_iff.2 ⟨n, hn, hf.instance? hi'⟩

theorem instance?_eq_none (h : Fades g g') (hi : Graph.instance? g id = none) :
    Graph.instance? g' id = none := by
  cases hi' : Graph.instance? g' id with
  | none => rfl
  | some i =>
    rw [h.instance? hi'] at hi
    cases hi

theorem get?_eq_none (h : Fades g g') (hn : g.get? id = none) : g'.get? id = none := by
  cases hn' : g'.get? id with
  | none => rfl
  | some n' =>
    obtain ⟨n, hn'', -⟩ := h id n' hn'
    rw [hn] at hn''
    cases hn''

theorem scheduled (h : Fades g g') (hs : Scheduled g' id) : Scheduled g id := by
  obtain ⟨n', hn', hs'⟩ := hs
  obtain ⟨n, hn, hf⟩ := h id n' hn'
  exact ⟨n, hn, hf.scheduled ▸ hs'⟩

theorem internal (h : Fades g g') (hs : Internal g' id) : Internal g id := by
  obtain ⟨n', hn', hs'⟩ := hs
  obtain ⟨n, hn, hf⟩ := h id n' hn'
  exact ⟨n, hn, hf.internal ▸ hs'⟩

/-- What is still there is scheduled, internal or visible as before. -/
theorem still {n' : Node} (h : Fades g g') (hn' : g'.get? id = some n') :
    (Scheduled g id → Scheduled g' id) ∧ (Internal g id → Internal g' id) ∧
      (Visible g id → Visible g' id) := by
  refine ⟨?_, ?_, ?_⟩
  · rintro ⟨n, hn, hs⟩
    exact ⟨n', hn', (h.node hn hn').scheduled.trans hs⟩
  · rintro ⟨n, hn, hs⟩
    exact ⟨n', hn', (h.node hn hn').internal.trans hs⟩
  · rintro ⟨n, hn, hs⟩
    exact ⟨n', hn', (h.node hn hn').internal.trans hs⟩

/-- Nothing becomes active by fading. -/
theorem active (h : Fades g g') (ha : Active g' id) : Active g id := by
  induction ha with
  | scheduled hn' hs =>
    obtain ⟨n, hn, hs⟩ := h.scheduled ⟨_, hn', hs⟩
    exact .scheduled hn hs
  | inside hi hm _ ih => exact .inside (h.instance? hi) hm ih

end Graph.Fades

/-- Graphs that differ in their connections only. -/
structure Graph.Rewires (g g' : Graph) : Prop where
  fades : Graph.Fades g g'
  bound : ∀ k, Graph.instance? g' k = Graph.instance? g k
  live : ∀ k n, g.get? k = some n → ∃ n', g'.get? k = some n'

namespace Graph.Rewires

variable {g g' g'' : Graph} {k : NodeId}

theorem trans (h : Rewires g g') (h' : Rewires g' g'') : Rewires g g'' where
  fades := h.fades.trans h'.fades
  bound := fun k => (h'.bound k).trans (h.bound k)
  live := by
    intro k n hn
    obtain ⟨n', hn'⟩ := h.live k n hn
    exact h'.live k n' hn'

theorem refans {os : List NodeId} (h : Refans os g g') : Rewires g g' :=
  ⟨.refans h, h.instance?, fun _ _ => h.live⟩

theorem modifyFan (g : Graph) (id : NodeId) (port : Nat) (f : Fan → Fan) :
    Rewires g (g.modify id fun n => n.modifyFan port f) := by
  refine ⟨fun k n' hn' => ?_, fun k => ?_, fun k n hn => ?_⟩
  · rw [Slots.get?_modify] at hn'
    split at hn'
    · obtain ⟨n, hn, rfl⟩ := Option.map_eq_some_iff.1 hn'
      exact ⟨n, hn, .modifyFan n port f⟩
    · exact ⟨n', hn', .refl n'⟩
  · rw [Graph.instance?, Slots.get?_modify, Graph.instance?]
    split
    · cases g.get? k <;> rfl
    · rfl
  · rw [Slots.get?_modify, hn]
    split
    · exact ⟨_, rfl⟩
    · exact ⟨n, rfl⟩

theorem scheduled (h : Rewires g g') (hs : Scheduled g k) : Scheduled g' k := by
  obtain ⟨n', hn'⟩ := h.live k _ hs.choose_spec.1
  exact (h.fades.still hn').1 hs

theorem internal (h : Rewires g g') (hi : Internal g k) : Internal g' k := by
  obtain ⟨n', hn'⟩ := h.live k _ hi.choose_spec.1
  exact (h.fades.still hn').2.1 hi

theorem visible (h : Rewires g g') (hv : Visible g k) : Visible g' k := by
  obtain ⟨n', hn'⟩ := h.live k _ hv.choose_spec.1
  exact (h.fades.still hn').2.2 hv

end Graph.Rewires

end PulseFlow
