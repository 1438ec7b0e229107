import PulseFlow.Engine.Wave
import PulseFlow.Proofs.Engaging
import PulseFlow.Proofs.Forms

/-!
# Signals on their way

Signals are stored and taken out without any change to bodies, ports and connections (`Alike`), so
all of soundness but the books of what is pending goes over at once.  Delivering keeps the books:
a node gets into the pending list when its last input is filled.

Signals never reach an idle instance: whatever is not part of one leads only to what is not part of
one (`leadsTo_not_pooled`).
-/

namespace PulseFlow

/-! ## Nodes that differ in their signals -/

/-- Nodes that may differ in the signals they hold, in being scheduled, and in the state of a logic
of their own. -/
structure Node.Alike (n n' : Node) : Prop where
  inputs : n'.inputs.length = n.inputs.length
  outputs : n'.outputs = n.outputs
  internal : n'.internal = n.internal
  body : n'.body = n.body ∨ ∃ l l', n.body = .native l ∧ n'.body = .native l' ∧ l.SameKind l'

namespace Node.Alike

variable {n n' n'' : Node}

theorem refl (n : Node) : n.Alike n := ⟨rfl, rfl, rfl, .inl rfl⟩

theorem store (n : Node) (port : Nat) (s : Signal) : n.Alike (n.store port s) :=
  ⟨List.length_set, rfl, rfl, .inl rfl⟩

theorem drain (n : Node) : n.Alike n.drain := ⟨List.length_map _, rfl, rfl, .inl rfl⟩

theorem trans (h : n.Alike n') (h' : n'.Alike n'') : n.Alike n'' where
  inputs := h'.inputs.trans h.inputs
  outputs := h'.outputs.trans h.outputs
  internal := h'.internal.trans h.internal
  body := by
    rcases h.body with hb | ⟨l, l', hb, hb', hl⟩
    · rw [← hb]
      exact h'.body
    · refine .inr ?_
      rcases h'.body with hc | ⟨m, m', hm, hm', hl'⟩
      · exact ⟨l, l', hb, hc.trans hb', hl⟩
      · rw [hb'] at hm
        cases hm
        exact ⟨l, m', hb, hm', hl.trans hl'⟩

theorem instance? (h : n.Alike n') : n'.instance? = n.instance? := by
  rcases h.body with hb | ⟨l, l', hb, hb', -⟩
  · rw [Node.instance?, hb, Node.instance?]
  · rw [instance?_of_native hb, instance?_of_native hb']

theorem placeholder (h : n.Alike n') (hp : n.IsPlaceholder) : n'.IsPlaceholder := by
  obtain ⟨⟨l, hl⟩, ho⟩ := hp
  refine ⟨?_, by rw [h.outputs]; exact ho⟩
  rcases h.body with hb | ⟨-, l', -, hb', -⟩
  · exact ⟨l, hb.trans hl⟩
  · exact ⟨l', hb'⟩

theorem registered {t : Prototypes} (h : n.Alike n') (hr : n.Registered t) : n'.Registered t := by
  rcases h.body with hb | ⟨l, l', -, hb', -⟩
  · exact hr.of_body_eq hb h.inputs (by rw [h.outputs])
  · exact registered_native hb'

theorem sameForm (h : n.Alike n') : n.SameForm n' where
  body := by
    rcases h.body with hb | ⟨l, l', hb, hb', hl⟩
    · rw [hb]
      exact .refl n.body
    · rw [hb, hb']
      exact .native hl
  inputs := h.inputs
  outputs := by rw [h.outputs]

end Node.Alike

/-- Graphs with the same numbers in use and alike nodes. -/
def Graph.Alike (g g' : Graph) : Prop := ∀ k, Option.Rel Node.Alike (g.get? k) (g'.get? k)

namespace Graph.Alike

variable {g g' : Graph} {id k : NodeId}

theorem refl (g : Graph) : Alike g g := by
  intro k
  cases g.get? k with
  | none => exact .none
  | some n => exact .some (.refl n)

theorem modify {f : Node → Node} (h : ∀ n, g.get? id = some n → n.Alike (f n)) :
    Alike g (g.modify id f) := by
  intro k
  rw [Slots.get?_modify]
  by_cases hk : id = k
  · subst hk
    rw [if_pos rfl]
    cases hn : g.get? id with
    | none => exact .none
    | some n => exact .some (h n hn)
  · rw [if_neg hk]
    exact refl g k

theorem row {n' : Node} (h : Alike g g') (hn' : g'.get? k = some n') :
    ∃ n, g.get? k = some n ∧ n.Alike n' := by
  have hk := h k
  rw [hn'] at hk
  cases hn : g.get? k with
  | none =>
    rw [hn] at hk
    cases hk
  | some n =>
    rw [hn] at hk
    cases hk with
    | some ha => exact ⟨n, rfl, ha⟩

theorem live {n : Node} (h : Alike g g') (hn : g.get? k = some n) :
    ∃ n', g'.get? k = some n' ∧ n.Alike n' := by
  have hk := h k
  rw [hn] at hk
  cases hn' : g'.get? k with
  | none =>
    rw [hn'] at hk
    cases hk
  | some n' =>
    rw [hn'] at hk
    cases hk with
    | some ha => exact ⟨n', rfl, ha⟩

theorem trans {g'' : Graph} (h : Alike g g') (h' : Alike g' g'') : Alike g g'' := by
  intro k
  cases hn : g.get? k with
  | none =>
    have hk := h k
    have hk' := h' k
    rw [hn] at hk
    cases hn' : g'.get? k with
    | none =>
      rw [hn'] at hk'
      exact hk'
    | some n' =>
      rw [hn'] at hk
      cases hk
  | some n =>
    obtain ⟨n', hn', ha⟩ := h.live hn
    obtain ⟨n'', hn'', ha'⟩ := h'.live hn'
    rw [hn'']
    exact .some (ha.trans ha')

theorem instance? (h : Alike g g') (k : NodeId) : Graph.instance? g' k = Graph.instance? g k := by
  unfold Graph.instance?
  have hk := h k
  cases hn : g.get? k with
  | none =>
    rw [hn] at hk
    cases hn' : g'.get? k with
    | none => rfl
    | some n' =>
      rw [hn'] at hk
      cases hk
  | some n =>
    obtain ⟨n', hn', ha⟩ := h.live hn
    rw [hn']
    exact ha.instance?

theorem fans? (h : Alike g g') (k : NodeId) : Graph.fans? g' k = Graph.fans? g k := by
  cases hn' : g'.get? k with
  | some n' =>
    obtain ⟨n, hn, ha⟩ := h.row hn'
    rw [fans?_of_get? hn', fans?_of_get? hn, ha.outputs]
  | none =>
    cases hn : g.get? k with
    | none => rw [Graph.fans?, hn', Graph.fans?, hn]
    | some n =>
      obtain ⟨n', hn'', -⟩ := h.live hn
      rw [hn'] at hn''
      cases hn''

theorem internal_iff (h : Alike g g') (k : NodeId) : Internal g' k ↔ Internal g k := by
  constructor
  · rintro ⟨n', hn', hi⟩
    obtain ⟨n, hn, ha⟩ := h.row hn'
    exact ⟨n, hn, ha.internal ▸ hi⟩
  · rintro ⟨n, hn, hi⟩
    obtain ⟨n', hn', ha⟩ := h.live hn
    exact ⟨n', hn', ha.internal.trans hi⟩

theorem visible (h : Alike g g') (hv : Visible g k) : Visible g' k := by
  obtain ⟨n, hn, hv⟩ := hv
  obtain ⟨n', hn', ha⟩ := h.live hn
  exact ⟨n', hn', ha.internal.trans hv⟩

end Graph.Alike

theorem Wired.of_alike {g g' : Graph} {is : List Instance} (h : Wired g is)
    (ha : Graph.Alike g g') : Wired g' is where
  visible := by
    intro id n' hn' hv
    obtain ⟨n, hn, hal⟩ := ha.row hn'
    exact ((h.visible id n hn (hal.internal ▸ hv)).imp fun x => ha.visible).of_outputs_eq
      hal.outputs
  inner := by
    intro i hi id hid hnot n' hn'
    obtain ⟨n, hn, hal⟩ := ha.row hn'
    exact (h.inner i hi id hid hnot n hn).of_outputs_eq hal.outputs
  single := h.single
  placeholder := by
    intro i hi o ho n' hn'
    obtain ⟨n, hn, hal⟩ := ha.row hn'
    exact hal.placeholder (h.placeholder i hi o ho n hn)
  mirror := by
    intro id n' i hn' hi
    obtain ⟨n, hn, hal⟩ := ha.row hn'
    rw [hal.outputs, ← h.mirror id n i hn (hal.instance? ▸ hi)]
    exact List.map_congr_left fun o _ => ha.fans? o

theorem Idle.of_alike {g g' : Graph} {p : Prototype} {i : Instance} (h : Idle g p i)
    (ha : Graph.Alike g g')
    (hu : ∀ m ∈ i.nodes, ∀ n, g'.get? m = some n → n.scheduled = false) : Idle g' p i where
  current := h.current
  inputs := h.inputs
  outputs := h.outputs
  unscheduled := hu
  unbound := fun m hm => (ha.instance? m).trans (h.unbound m hm)
  dry := by
    intro o ho n' hn'
    obtain ⟨n, hn, hal⟩ := ha.row hn'
    rw [hal.outputs]
    exact h.dry o ho n hn

/-- Soundness goes over to an engine with alike nodes whose books are in order. -/
theorem Sound.of_alike {e e' : Engine} (h : Sound (.rest e)) (ha : Graph.Alike e.graph e'.graph)
    (ht : e'.graph.Tidy) (hr : e'.registry = e.registry) (hw : e'.watch = e.watch)
    (hn : e'.nextInstance = e.nextInstance) (hs : e'.settings = e.settings)
    (hc : Coherent e'.graph e'.pending [])
    (hu : ∀ id, e.Pooled id → ∀ n, e'.graph.get? id = some n → n.scheduled = false) :
    Sound (.rest e') := by
  have hp : ∀ k, e'.prototype? k = e.prototype? k := fun k => by
    rw [Engine.prototype?, hr, Engine.prototype?]
  have hins : Work.instances (.rest e') = Work.instances (.rest e) := by
    show [] ++ (Graph.bound e'.graph ++ Prototypes.pooled e'.registry.prototypes) = _
    rw [Graph.bound_congr ha.instance?, hr]
    rfl
  constructor
  · exact ht
  · show Owning e'.graph e'.nextInstance (Work.instances (.rest e')) []
    rw [hins, hn]
    exact h.owning.of_internal_iff ha.internal_iff
  · show Watching e'.graph e'.watch
    rw [hw]
    exact h.watching.congr ha.instance?
  · exact h.layered.anti fun k i hi => (ha.instance? k).symm.trans hi
  · exact hc
  · show Wired e'.graph (Work.instances (.rest e'))
    rw [hins]
    exact h.wired.of_alike ha
  · intro k p hk i hi
    have hk' : e.prototype? k = some p := (hp k).symm.trans hk
    exact (h.idle k p hk' i hi).of_alike ha fun m hm => hu m ⟨k, p, i, hk', hi, hm⟩
  · intro k p hk c hc
    have hc' : e'.settings.poolCapacity = some c := hc
    rw [hs] at hc'
    exact h.capacity k p ((hp k).symm.trans hk) c hc'
  · show ∀ id n, e'.graph.get? id = some n → n.Registered e'.registry.prototypes
    rw [hr]
    intro id n' hn'
    obtain ⟨n, hn, hal⟩ := ha.row hn'
    exact hal.registered (h.registered id n hn)
  · intro id n' i hn' hi
    obtain ⟨n, hn, hal⟩ := ha.row hn'
    rw [hal.inputs]
    exact h.fitting id n i hn (hal.instance? ▸ hi)
  · exact fun k p hk => h.named k p ((hp k).symm.trans hk)
  · show ∀ k p, e'.prototype? k = some p → p.WellMade e'.registry.prototypes
    rw [hr]
    exact fun k p hk => h.templates k p ((hp k).symm.trans hk)

namespace Engine

variable {e e' e'' : Engine} {id : NodeId} {n : Node}

/-! ## Where signals may go -/

/-- The nodes of a bound instance are in no pool. -/
theorem not_pooled_of_bound {i : Instance} (h : Sound (.rest e)) (hi : e.instance? id = some i)
    {m : NodeId} (hm : m ∈ i.nodes) : ¬ e.Pooled m := by
  rintro ⟨k, p, j, hp, hj, hm'⟩
  have hij := h.owning.eq_of_mem (Sound.mem_of_bound (w := .rest e) hi)
    (Sound.mem_of_pool (w := .rest e) hp hj) hm hm'
  exact h.not_pooled_of_bound hi hp (hij ▸ hj)

theorem not_pooled_of_visible (h : Sound (.rest e)) (hv : Graph.Visible e.graph id) :
    ¬ e.Pooled id := by
  rintro ⟨k, p, i, hp, hi, hm⟩
  exact Graph.not_visible_of_internal
    (h.owning.internal_of_mem (Sound.mem_of_pool (w := .rest e) hp hi) hm) hv

theorem get?_of_visible (h : e.visible id = .ok n) :
    e.graph.get? id = some n ∧ n.internal = false := by
  unfold visible at h
  split at h
  · next m hm =>
    split at h
    · cases h
    · next hint =>
      cases h
      exact ⟨hm, Bool.eq_false_iff.2 hint⟩
  · cases h

/-- A node that is in no pool is visible or belongs to a bound instance. -/
theorem bound_of_not_pooled (h : Sound (.rest e)) (hn : e.graph.get? id = some n)
    (hid : ¬ e.Pooled id) :
    n.internal = false ∨ ∃ r i, e.instance? r = some i ∧ id ∈ i.nodes := by
  cases hint : n.internal with
  | false => exact .inl rfl
  | true =>
    rcases h.owning.mem_of_internal ⟨n, hn, hint⟩ with hd | ⟨i, hi, hm⟩
    · cases hd
    · rcases Work.mem_instances.1 hi with hi | ⟨r, hi⟩ | ⟨k, p, hp, hi⟩
      · cases hi
      · exact .inr ⟨r, i, hi, hm⟩
      · exact absurd ⟨k, p, i, hp, hi, hm⟩ hid

/-- What is in no pool leads only to what is in no pool.  Output placeholders are the one way out of
an instance, and they lead where the reference leads that holds it. -/
theorem leadsTo_not_pooled (h : Sound (.rest e)) (hn : e.graph.get? id = some n)
    (hid : ¬ e.Pooled id) : n.LeadsTo fun m => ¬ e.Pooled m := by
  have hinner : ∀ x m, e.graph.get? x = some m → ¬ e.Pooled x →
      (∀ r i, e.instance? r = some i → x ∉ i.outputs) → m.LeadsTo fun y => ¬ e.Pooled y := by
    intro x m hm hx hout
    rcases bound_of_not_pooled h hm hx with hv | ⟨r, i, hi, hxi⟩
    · exact (h.wired.visible x m hm hv).imp fun y hy => not_pooled_of_visible h hy
    · exact (h.wired.inner i (Sound.mem_of_bound (w := .rest e) hi) x hxi (hout r i hi) m hm).imp
        fun y hy => not_pooled_of_bound h hi hy
  by_cases hout : ∃ r i, e.instance? r = some i ∧ id ∈ i.outputs
  · obtain ⟨r, i, hi, ho⟩ := hout
    obtain ⟨m, hm, hmi⟩ := Graph.instance?_eq_some_iff.1 hi
    have hfan : i.outputs.map (Graph.fans? e.graph) = m.outputs.map fun f => some [f] :=
      h.wired.mirror r m i hm hmi
    have hmem : some n.outputs ∈ i.outputs.map (Graph.fans? e.graph) :=
      List.mem_map.2 ⟨id, ho, Graph.fans?_of_get? hn⟩
    rw [hfan] at hmem
    obtain ⟨f, hf, hfn⟩ := List.mem_map.1 hmem
    have hr : ¬ e.Pooled r := by
      rintro ⟨k, p, j, hp, hj, hrj⟩
      have := (h.idle k p hp j hj).unbound r hrj
      rw [show Graph.instance? (Work.rest e).engine.graph r = some i from hi] at this
      cases this
    -- a reference is bound, so it is no output placeholder itself
    have hleads := hinner r m hm hr fun r' j hj hrj => by
      have := (h.wired.placeholder j (Sound.mem_of_bound (w := .rest e) hj) r hrj m hm).instance?
      rw [hmi] at this
      cases this
    intro f' hf' s hs
    rw [← Option.some.inj hfn, List.mem_singleton] at hf'
    exact hleads f hf s (hf' ▸ hs)
  · exact hinner id n hn hid fun r i hi ho => hout ⟨r, i, hi, ho⟩

/-! ## Delivering -/

/-- What passing on signals does to an engine. -/
structure Feeds (e e' : Engine) : Prop where
  sound : Sound (.rest e')
  registry : e'.registry = e.registry
  settings : e'.settings = e.settings
  keep : ∀ id, e.Pooled id → e'.graph.get? id = e.graph.get? id
  bound : ∀ id, e'.instance? id = e.instance? id
  scheduled : ∀ id, Graph.Scheduled e.graph id → Graph.Scheduled e'.graph id
  alike : Graph.Alike e.graph e'.graph

namespace Feeds

theorem refl (h : Sound (.rest e)) : Feeds e e :=
  ⟨h, rfl, rfl, fun _ _ => rfl, fun _ => rfl, fun _ hs => hs, .refl e.graph⟩

theorem pooled_iff (h : Feeds e e') (id : NodeId) : e'.Pooled id ↔ e.Pooled id := by
  unfold Pooled prototype?
  rw [h.registry]

theorem trans (h : Feeds e e') (h' : Feeds e' e'') : Feeds e e'' where
  sound := h'.sound
  registry := h'.registry.trans h.registry
  settings := h'.settings.trans h.settings
  keep := fun id hid => (h'.keep id ((h.pooled_iff id).2 hid)).trans (h.keep id hid)
  bound := fun id => (h'.bound id).trans (h.bound id)
  scheduled := fun id hs => h'.scheduled id (h.scheduled id hs)
  alike := h.alike.trans h'.alike

theorem flows (h : Feeds e e') : Flows e e' := by
  refine .of_keep (fun k => ?_) h.settings fun id => ?_
  · rw [prototype?, h.registry, prototype?]
  · by_cases hid : e.Pooled id
    · exact .inr (h.keep id hid)
    · exact .inl hid

end Feeds

theorem feeds_world (h : Sound (.rest e)) (world : World) : Feeds e { e with world } :=
  ⟨h.of_eq rfl rfl rfl rfl rfl rfl, rfl, rfl, fun _ _ => rfl, fun _ => rfl, fun _ hs => hs,
    .refl e.graph⟩

theorem feeds_report (h : Sound (.rest e)) (v : Event) : Feeds e (e.report v) := feeds_world h _

end Engine

namespace Node

variable {n : Node}

theorem ready_iff : n.ready = true ↔ n.inputs ≠ [] ∧ ∀ s ∈ n.inputs, s.isSome = true := by
  simp [ready]

/-- A signal more leaves a ready node ready. -/
theorem ready_store (port : Nat) (s : Signal) (h : n.ready = true) :
    (n.store port s).ready = true := by
  rw [ready_iff] at h ⊢
  refine ⟨fun hnil => h.1 ?_, fun x hx => ?_⟩
  · exact List.length_eq_zero_iff.1 (by
      rw [← List.length_set (i := port) (a := some s)]
      exact List.length_eq_zero_iff.2 hnil)
  · rcases List.mem_or_eq_of_mem_set hx with hx | rfl
    · exact h.2 x hx
    · rfl

theorem drain_drain (n : Node) : n.drain.drain = n.drain := by
  simp [drain]

theorem ready_drain (n : Node) : n.drain.ready = false := by
  cases hr : n.drain.ready with
  | false => rfl
  | true =>
    obtain ⟨hne, hall⟩ := ready_iff.1 hr
    obtain ⟨x, xs, hx⟩ := List.exists_cons_of_ne_nil hne
    have hmem : x ∈ n.drain.inputs := by
      rw [hx]
      exact List.mem_cons_self
    obtain ⟨y, -, rfl⟩ := List.mem_map.1 hmem
    exact absurd (hall none hmem) (by decide)

end Node

namespace Graph

variable {g : Graph} {id : NodeId} {n m : Node}

theorem get?_put (hn : g.get? id = some n) (m : Node) (x : NodeId) :
    (g.modify id fun _ => m).get? x = if x = id then some m else g.get? x := by
  rw [Slots.get?_modify]
  by_cases hx : id = x
  · rw [if_pos hx, if_pos hx.symm, ← hx, hn, Option.map_some]
  · rw [if_neg hx, if_neg (Ne.symm hx)]

theorem scheduled_iff_of_get? (hn : g.get? id = some n) :
    Scheduled g id ↔ n.scheduled = true := by
  unfold Scheduled
  simp [hn]

theorem scheduled_put (hn : g.get? id = some n) (hs : n.scheduled = true → m.scheduled = true)
    (x : NodeId) :
    Scheduled (g.modify id fun _ => m) x ↔ Scheduled g x ∨ x = id ∧ m.scheduled = true := by
  by_cases hx : x = id
  · subst hx
    have hm : (g.modify x fun _ => m).get? x = some m := by rw [get?_put hn, if_pos rfl]
    rw [scheduled_iff_of_get? hm, scheduled_iff_of_get? hn]
    exact ⟨fun h => .inr ⟨rfl, h⟩, fun h => h.elim hs And.right⟩
  · unfold Scheduled
    rw [get?_put hn, if_neg hx]
    exact ⟨.inl, fun h => h.resolve_right fun hxm => hx hxm.1⟩

end Graph

/-- The books stay right if a node put back is entered when it becomes ready. -/
theorem Coherent.put {g : Graph} {id : NodeId} {n m : Node} {pending pending' : List NodeId}
    (h : Coherent g pending []) (hn : g.get? id = some n) (hready : m.scheduled = m.ready)
    (hs : n.scheduled = true → m.scheduled = true)
    (hpending : if m.scheduled = true ∧ n.scheduled = false then pending' = pending ++ [id]
      else pending' = pending) :
    Coherent (g.modify id fun _ => m) pending' [] := by
  have hmem := h.mem_pending_iff
  have hbooks : pending'.Nodup ∧
      ∀ x, x ∈ pending' ↔ Graph.Scheduled g x ∨ x = id ∧ m.scheduled = true := by
    by_cases hnew : m.scheduled = true ∧ n.scheduled = false
    · rw [if_pos hnew] at hpending
      subst hpending
      have hid : id ∉ pending := by
        rw [hmem, Graph.scheduled_iff_of_get? hn, hnew.2]
        exact Bool.false_ne_true
      refine ⟨List.nodup_append.2 ⟨h.nodup, List.nodup_singleton id, ?_⟩, fun x => ?_⟩
      · rintro a ha b hb rfl
        exact hid (List.mem_singleton.1 hb ▸ ha)
      · rw [List.mem_append, List.mem_singleton, hmem]
        simp [hnew.1]
    · rw [if_neg hnew] at hpending
      subst hpending
      refine ⟨h.nodup, fun x => ⟨fun hx => .inl ((hmem x).1 hx), ?_⟩⟩
      rintro (hx | ⟨rfl, hm⟩)
      · exact (hmem x).2 hx
      · rw [hmem, Graph.scheduled_iff_of_get? hn]
        by_contra hns
        exact hnew ⟨hm, Bool.eq_false_iff.2 hns⟩
  obtain ⟨hnodup, hbooks⟩ := hbooks
  refine ⟨hnodup, fun x hx => .inr ?_, fun x hx => ?_, fun x m' hm' => ?_⟩
  · exact (Graph.scheduled_put hn hs x).2 ((hbooks x).1 hx)
  · exact (hbooks x).2 ((Graph.scheduled_put hn hs x).1 hx)
  · rw [Graph.get?_put hn] at hm'
    split at hm'
    · cases hm'
      exact hready
    · exact h.ready x m' hm'

namespace Engine

variable {e : Engine} {id : NodeId}

/-- Putting back a changed node that is alike. -/
theorem feeds_modify {n m : Node} {pending : List NodeId} (h : Sound (.rest e))
    (hn : e.graph.get? id = some n) (ha : n.Alike m) (hid : ¬ e.Pooled id)
    (hready : m.scheduled = m.ready) (hs : n.scheduled = true → m.scheduled = true)
    (hpending : if m.scheduled = true ∧ n.scheduled = false then pending = e.pending ++ [id]
      else pending = e.pending) :
    Feeds e { e with graph := e.graph.modify id fun _ => m, pending } := by
  have halike : Graph.Alike e.graph (e.graph.modify id fun _ => m) := by
    refine .modify fun n' hn' => ?_
    rw [hn] at hn'
    cases hn'
    exact ha
  have hcoherent : Coherent (e.graph.modify id fun _ => m) pending [] :=
    h.coherent.put hn hready hs hpending
  have hpool : ∀ x, e.Pooled x → (e.graph.modify id fun _ => m).get? x = e.graph.get? x := by
    intro x hx
    have hne : x ≠ id := fun he => hid (he ▸ hx)
    rw [Graph.get?_put hn, if_neg hne]
  refine ⟨h.of_alike halike (Slots.tidy_modify h.tidy id _) rfl rfl rfl rfl hcoherent ?_, rfl, rfl,
    hpool, halike.instance?, fun x hx => (Graph.scheduled_put hn hs x).2 (.inl hx), halike⟩
  intro x hx m' hm'
  have hm : e.graph.get? x = some m' := (hpool x hx).symm.trans hm'
  obtain ⟨k, p, i, hp, hi, hxi⟩ := hx
  exact (h.idle k p hp i hi).unscheduled x hxi m' hm

theorem deliver_feeds (h : Sound (.rest e)) {target : Socket} (ht : ¬ e.Pooled target.node)
    (s : Signal) : Feeds e (e.deliver target s) := by
  unfold deliver
  cases hn : e.graph.get? target.node with
  | none => exact feeds_report h _
  | some n =>
    dsimp only
    by_cases hport : target.port < n.inputs.length
    · rw [if_pos hport]
      have hbooks : n.scheduled = n.ready := h.coherent.ready target.node n hn
      have hstore := Node.Alike.store n target.port s
      have hsched : (n.store target.port s).scheduled = n.scheduled := rfl
      by_cases hready : ((n.store target.port s).ready && !(n.store target.port s).scheduled) = true
      · rw [if_pos hready]
        rw [Bool.and_eq_true, Bool.not_eq_true', hsched] at hready
        refine feeds_modify h hn ⟨hstore.inputs, hstore.outputs, hstore.internal, hstore.body⟩ ht
          ?_ (fun _ => rfl) ?_
        · exact hready.1.symm
        · rw [if_pos ⟨rfl, hready.2⟩]
      · rw [if_neg hready]
        refine feeds_modify h hn hstore ht ?_ (fun hs => hs) ?_
        · rw [hsched]
          cases hs : n.scheduled with
          | true => exact (Node.ready_store target.port s (hbooks ▸ hs)).symm
          | false =>
            rw [hsched, hs, Bool.not_false, Bool.and_true, Bool.not_eq_true] at hready
            exact hready.symm
        · rw [hsched, if_neg]
          rintro ⟨h₁, h₂⟩
          rw [h₁] at h₂
          cases h₂
    · rw [if_neg hport]
      exact feeds_report h _

theorem emit_feeds (h : Sound (.rest e)) {source : Socket} (hs : ¬ e.Pooled source.node)
    (s : Signal) : Feeds e (e.emit source s) := by
  have hfold : ∀ (targets : List Socket) (e₁ : Engine), Feeds e e₁ →
      (∀ t ∈ targets, ¬ e.Pooled t.node) →
      Feeds e (targets.foldl (fun e target => e.deliver target s) e₁) := by
    intro targets
    induction targets with
    | nil => exact fun e₁ hf _ => hf
    | cons t ts ih =>
      intro e₁ hf ht
      have hd := deliver_feeds hf.sound (fun hp => ht t List.mem_cons_self ((hf.pooled_iff _).1 hp)) s
      exact ih _ (hf.trans hd) fun x hx => ht x (List.mem_cons_of_mem t hx)
  unfold emit
  cases hfan : (e.graph.get? source.node).bind fun n => n.fan? source.port with
  | none => exact feeds_report h _
  | some fan =>
    obtain ⟨n, hn, hfan⟩ := Option.bind_eq_some_iff.1 hfan
    refine hfold fan.toList e (.refl h) fun t ht => ?_
    exact leadsTo_not_pooled h hn hs fan (List.mem_of_getElem? hfan) t ht

end Engine

end PulseFlow
