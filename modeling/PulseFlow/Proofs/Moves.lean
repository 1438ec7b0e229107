import Mathlib.Logic.Relation
import PulseFlow.Proofs.Fading

/-!
# Elementary moves

Taking instances apart comes down to a few moves: an instance is taken from its reference, its
outputs are led nowhere, it is pooled, or it is broken up, its nodes are freed one by one and their
pending entries dropped.  `Move S` is one such move, of an engine at work, that touches only nodes
of which `S` holds.

    Move S w w' → Sound w → Sound w'                                      (Move.sound)
-/

namespace PulseFlow

/-! ## Parts of soundness under fading -/

section Parts

variable {g g' : Graph} {is is' : List Instance} {pending stale stale' : List NodeId}
  {p : Prototype} {i : Instance}

theorem Owning.of_internal_iff {next : Nat} {debris : List NodeId} (h : Owning g next is debris)
    (hi : ∀ id, Graph.Internal g' id ↔ Graph.Internal g id) : Owning g' next is debris :=
  ⟨h.numbered, h.distinct, h.disjoint, fun id => (h.internal id).trans (hi id).symm, h.boundary⟩

theorem Coherent.of_fades (h : Coherent g pending stale) (hf : Graph.Fades g g')
    (hs : ∀ id, Graph.Scheduled g id → id ∈ stale' ∨ Graph.Scheduled g' id)
    (hstale : ∀ id ∈ stale, id ∈ stale') : Coherent g' pending stale' where
  nodup := h.nodup
  scheduled := by
    intro id hid
    rcases h.scheduled id hid with hid | hid
    · exact .inl (hstale id hid)
    · exact hs id hid
  pending := fun id hid => h.pending id (hf.scheduled hid)
  ready := by
    intro id n' hn'
    obtain ⟨n, hn, hfade⟩ := hf id n' hn'
    rw [hfade.scheduled, hfade.ready]
    exact h.ready id n hn

/-- Wiring is kept where nodes fade without losing connections. -/
theorem Wired.of_fades (h : Wired g is) (hf : Graph.Fades g g') (his : ∀ i ∈ is', i ∈ is)
    (ho : ∀ k n', g'.get? k = some n' → Graph.fans? g k = some n'.outputs)
    (hv : ∀ k, Graph.Visible g k → Graph.Visible g' k)
    (hb : ∀ id i, Graph.instance? g' id = some i → ∀ o ∈ i.outputs,
      Graph.fans? g' o = Graph.fans? g o) : Wired g' is' := by
  have row : ∀ k n', g'.get? k = some n' →
      ∃ n, g.get? k = some n ∧ n.Fades n' ∧ n'.outputs = n.outputs := by
    intro k n' hn'
    obtain ⟨n, hn, hfade⟩ := hf k n' hn'
    have hout := ho k n' hn'
    rw [Graph.fans?, hn, Option.map_some, Option.some.injEq] at hout
    exact ⟨n, hn, hfade, hout.symm⟩
  constructor
  · intro id n' hn' hint
    obtain ⟨n, hn, hfade, hout⟩ := row id n' hn'
    exact ((h.visible id n hn (hfade.internal ▸ hint)).imp hv).of_outputs_eq hout
  · intro i hi id hid hnot n' hn'
    obtain ⟨n, hn, -, hout⟩ := row id n' hn'
    exact (h.inner i (his i hi) id hid hnot n hn).of_outputs_eq hout
  · exact fun i hi => h.single i (his i hi)
  · intro i hi o hoi n' hn'
    obtain ⟨n, hn, hfade, -⟩ := row o n' hn'
    exact hfade.placeholder (h.placeholder i (his i hi) o hoi n hn)
  · intro id n' i hn' hi
    obtain ⟨n, hn, hfade, hout⟩ := row id n' hn'
    have hi' : Graph.instance? g' id = some i := Graph.instance?_eq_some_iff.2 ⟨n', hn', hi⟩
    rw [hout, ← h.mirror id n i hn (hfade.instance? hi)]
    exact List.map_congr_left fun o hoi => hb id i hi' o hoi

theorem Idle.of_fades (h : Idle g p i) (hf : Graph.Fades g g')
    (hd : ∀ o ∈ i.outputs, ∀ n', g'.get? o = some n' → n'.outputs = [∅]) : Idle g' p i where
  current := h.current
  inputs := h.inputs
  outputs := h.outputs
  unscheduled := by
    intro m hm n' hn'
    obtain ⟨n, hn, hfade⟩ := hf m n' hn'
    rw [hfade.scheduled]
    exact h.unscheduled m hm n hn
  unbound := fun m hm => hf.instance?_eq_none (h.unbound m hm)
  dry := hd

/-- An idle instance stays idle where nodes fade without losing connections. -/
theorem Idle.of_fans (h : Idle g p i) (hf : Graph.Fades g g')
    (ho : ∀ k n', g'.get? k = some n' → Graph.fans? g k = some n'.outputs) : Idle g' p i := by
  refine h.of_fades hf fun o hoi n' hn' => ?_
  have hout := ho o n' hn'
  rw [Graph.fans?, Option.map_eq_some_iff] at hout
  obtain ⟨n, hn, hout⟩ := hout
  rw [← hout]
  exact h.dry o hoi n hn

/-- Being idle depends on the revision and the ports of the prototype only. -/
theorem Idle.of_ports {q : Prototype} (h : Idle g p i) (hr : q.revision = p.revision)
    (hi : q.inputs.length = p.inputs.length) (ho : q.outputs.length = p.outputs.length) :
    Idle g q i :=
  ⟨h.current.trans hr.symm, h.inputs.trans hi.symm, h.outputs.trans ho.symm, h.unscheduled,
    h.unbound, h.dry⟩

theorem registered_of_fades {t : Prototypes} (hf : Graph.Fades g g')
    (h : ∀ id n, g.get? id = some n → n.Registered t) :
    ∀ id n, g'.get? id = some n → n.Registered t := by
  intro id n' hn'
  obtain ⟨n, hn, hfade⟩ := hf id n' hn'
  exact hfade.registered (h id n hn)

theorem fitting_of_fades (hf : Graph.Fades g g')
    (h : ∀ id n i, g.get? id = some n → n.instance? = some i → i.inputs.length = n.inputs.length) :
    ∀ id n i, g'.get? id = some n → n.instance? = some i → i.inputs.length = n.inputs.length := by
  intro id n' i hn' hi
  obtain ⟨n, hn, hfade⟩ := hf id n' hn'
  rw [hfade.inputs]
  exact h id n i hn (hfade.instance? hi)

end Parts

/-! ## The moves, one by one -/

namespace Sound

variable {e : Engine} {hand : List Instance} {debris stale : List NodeId} {i : Instance}
  {id : NodeId}

/-- Taking an instance from its reference. -/
theorem take (h : Sound ⟨e, hand, debris, stale⟩) (hi : e.instance? id = some i) :
    Sound ⟨e.unbind id, i :: hand, debris, stale⟩ := by
  have hf : Graph.Fades e.graph (e.unbind id).graph := .unbind e.graph id
  have hrow : ∀ k, Graph.instance? (e.unbind id).graph k =
      if k = id then none else Graph.instance? e.graph k := Graph.instance?_unbind e.graph id
  have hlive : ∀ k n, e.graph.get? k = some n →
      ∃ n', (e.unbind id).graph.get? k = some n' ∧ n'.outputs = n.outputs := fun _ _ =>
    Graph.live_unbind
  have hfans : ∀ k, Graph.fans? (e.unbind id).graph k = Graph.fans? e.graph k := by
    intro k
    cases hn : e.graph.get? k with
    | none => rw [Graph.fans?, hf.get?_eq_none hn, Graph.fans?, hn]
    | some n =>
      obtain ⟨n', hn', ho⟩ := hlive k n hn
      rw [Graph.fans?, hn', Graph.fans?, hn, Option.map_some, Option.map_some, ho]
  have hout : ∀ k n', (e.unbind id).graph.get? k = some n' →
      Graph.fans? e.graph k = some n'.outputs := by
    intro k n' hn'
    rw [← hfans k, Graph.fans?, hn', Option.map_some]
  have hperm : (Work.instances ⟨e, hand, debris, stale⟩).Perm
      (Work.instances ⟨e.unbind id, i :: hand, debris, stale⟩) := by
    have hb : (Graph.bound e.graph).Perm (i :: Graph.bound (e.unbind id).graph) :=
      Graph.bound_perm_cons hi (by rw [hrow, if_pos rfl]) fun k hk => by rw [hrow, if_neg hk]
    unfold Work.instances
    exact ((hb.append_right _).append_left hand).trans List.perm_middle
  constructor
  · exact Slots.tidy_modify h.tidy id _
  · refine (h.owning.perm hperm).of_internal_iff fun k => ⟨hf.internal, fun hk => ?_⟩
    obtain ⟨n', hn', -⟩ := hlive k _ hk.choose_spec.1
    exact (hf.still hn').2.1 hk
  · refine ⟨h.watching.nodup.filter _, fun k => ?_⟩
    have hw : k ∈ e.watch ↔ ∃ j, Graph.instance? e.graph k = some j := h.watching.mem_iff k
    show k ∈ e.watch.filter _ ↔ ∃ j, Graph.instance? (e.unbind id).graph k = some j
    rw [List.mem_filter, hw, hrow]
    by_cases hk : k = id
    · simp [hk]
    · simp [hk]
  · exact h.layered.anti fun k j => hf.instance?
  · refine h.coherent.of_fades hf (fun k hk => .inr ?_) fun _ hk => hk
    obtain ⟨n', hn', -⟩ := hlive k _ hk.choose_spec.1
    exact (hf.still hn').1 hk
  · refine h.wired.of_fades hf (fun j hj => hperm.mem_iff.2 hj) hout (fun k hk => ?_)
      fun k j _ o _ => hfans o
    obtain ⟨n', hn', -⟩ := hlive k _ hk.choose_spec.1
    exact (hf.still hn').2.2 hk
  · exact fun k p hp j hj => (h.idle k p hp j hj).of_fans hf hout
  · exact h.capacity
  · exact registered_of_fades hf h.registered
  · exact fitting_of_fades hf h.fitting
  · exact h.named
  · exact h.templates

/-- An instance in hand is bound to nothing. -/
theorem not_bound_of_hand (h : Sound ⟨e, hand, debris, stale⟩) (hi : i ∈ hand) :
    Graph.instance? e.graph id ≠ some i := by
  intro hb
  have hn := h.nodup_instances
  rw [Work.instances, List.nodup_append] at hn
  exact hn.2.2 i hi i (List.mem_append_left _ (Graph.mem_bound.2 ⟨id, hb⟩)) rfl

/-- An instance in hand is not pooled. -/
theorem not_pooled_of_hand (h : Sound ⟨e, hand, debris, stale⟩) (hi : i ∈ hand) {k : Key}
    {p : Prototype} (hp : e.prototype? k = some p) : i ∉ p.pool := by
  intro hm
  have hn := h.nodup_instances
  rw [Work.instances, List.nodup_append] at hn
  exact hn.2.2 i hi i (List.mem_append_right _ (Prototypes.mem_pooled.2 ⟨k, p, hp, hm⟩)) rfl

/-- An engine with other connections that are in order. -/
theorem of_rewires {g' : Graph} (h : Sound ⟨e, hand, debris, stale⟩)
    (hr : Graph.Rewires e.graph g') (ht : g'.Tidy)
    (hw : Wired g' (Work.instances ⟨e, hand, debris, stale⟩))
    (hd : ∀ k p, e.prototype? k = some p → ∀ j ∈ p.pool, ∀ o ∈ j.outputs, ∀ n',
      g'.get? o = some n' → n'.outputs = [∅]) :
    Sound ⟨{ e with graph := g' }, hand, debris, stale⟩ := by
  have hf := hr.fades
  have hsame : Work.instances ⟨{ e with graph := g' }, hand, debris, stale⟩ =
      Work.instances ⟨e, hand, debris, stale⟩ := by
    unfold Work.instances
    rw [Graph.bound_congr hr.bound]
  constructor
  · exact ht
  · show Owning _ _ _ _
    rw [hsame]
    exact h.owning.of_internal_iff fun k => ⟨hf.internal, hr.internal⟩
  · exact h.watching.congr hr.bound
  · exact h.layered.anti fun k j => hf.instance?
  · exact h.coherent.of_fades hf (fun k hk => .inr (hr.scheduled hk)) fun _ hk => hk
  · show Wired _ _
    rw [hsame]
    exact hw
  · exact fun k p hp j hj => (h.idle k p hp j hj).of_fades hf (hd k p hp j hj)
  · exact h.capacity
  · exact registered_of_fades hf h.registered
  · exact fitting_of_fades hf h.fitting
  · exact h.named
  · exact h.templates

/-- Leading the outputs of an instance in hand elsewhere. -/
theorem refan {g' : Graph} (h : Sound ⟨e, hand, debris, stale⟩) (hi : i ∈ hand)
    (hr : Graph.Refans i.outputs e.graph g') (ht : g'.Tidy) :
    Sound ⟨{ e with graph := g' }, hand, debris, stale⟩ := by
  have hrewires := Graph.Rewires.refans hr
  have hmem : i ∈ Work.instances ⟨e, hand, debris, stale⟩ := mem_of_hand hi
  -- an output of another instance is not an output of this one
  have hother : ∀ j ∈ Work.instances ⟨e, hand, debris, stale⟩, j ≠ i → ∀ o ∈ j.nodes,
      o ∉ i.outputs := by
    intro j hj hne o ho hoi
    exact hne (h.owning.eq_of_mem hj hmem ho (h.owning.outputs_subset hmem hoi))
  refine h.of_rewires hrewires ht ?_ ?_
  · constructor
    · intro k n' hn' hint
      obtain ⟨n, hn, rfl | ⟨hk, f, rfl⟩⟩ := hr.row hn'
      · exact (h.wired.visible k n' hn hint).imp fun x => hrewires.visible
      · -- an output of an instance is internal
        exact absurd ⟨n, hn, hint⟩ (Graph.not_visible_of_internal
          (h.owning.internal_of_mem hmem (h.owning.outputs_subset hmem hk)))
    · intro j hj k hk hnot n' hn'
      obtain ⟨n, hn, rfl | ⟨hk', f, rfl⟩⟩ := hr.row hn'
      · exact h.wired.inner j hj k hk hnot n' hn
      · have hji : j = i := by
          by_contra hne
          exact hother j hj hne k hk hk'
        exact absurd hk' (hji ▸ hnot)
    · exact h.wired.single
    · intro j hj o ho n' hn'
      obtain ⟨n, hn, hfade⟩ := hrewires.fades o n' hn'
      exact hfade.placeholder (h.wired.placeholder j hj o ho n hn)
    · intro k n' j hn' hj
      have hb : Graph.instance? e.graph k = some j := by
        rw [← hrewires.bound k]
        exact Graph.instance?_eq_some_iff.2 ⟨n', hn', hj⟩
      have hne : j ≠ i := fun hji => h.not_bound_of_hand hi (hji ▸ hb)
      obtain ⟨n, hn, rfl | ⟨hk, f, rfl⟩⟩ := hr.row hn'
      · rw [← h.wired.mirror k n' j hn hj]
        refine List.map_congr_left fun o ho => ?_
        have hjm := mem_of_bound (w := ⟨e, hand, debris, stale⟩) hb
        rw [Graph.fans?, hr.keep (hother j hjm hne o (h.owning.outputs_subset hjm ho)), Graph.fans?]
      · -- a placeholder is bound to nothing
        have := (h.wired.placeholder i hmem k hk n hn).instance?
        rw [Node.instance?_modifyFan, this] at hj
        cases hj
  · intro k p hp j hj o ho n' hn'
    have hjm := mem_of_pool (w := ⟨e, hand, debris, stale⟩) hp hj
    have hne : j ≠ i := fun hji => h.not_pooled_of_hand hi hp (hji ▸ hj)
    rw [hr.keep (hother j hjm hne o (h.owning.outputs_subset hjm ho))] at hn'
    exact (h.idle k p hp j hj).dry o ho n' hn'

/-- Exchanging instances between the hand and the pool of a prototype loses none. -/
theorem instances_putPrototype {q : Prototype} {hand' : List Instance}
    (hpool : (hand ++ Prototypes.poolOf e.registry.prototypes q.key).Perm (hand' ++ q.pool)) :
    (Work.instances ⟨e, hand, debris, stale⟩).Perm
      (Work.instances ⟨e.putPrototype q, hand', debris, stale⟩) := by
  have hold := Prototypes.pooled_perm e.registry.prototypes q.key
  have hnew := Prototypes.pooled_insert e.registry.prototypes q.key q
  generalize Prototypes.pooled (e.registry.prototypes.erase q.key) = others at hold hnew
  have hswap : ∀ a b c d : List Instance, (a ++ (b ++ (c ++ d))).Perm ((a ++ c) ++ (b ++ d)) := by
    intro a b c d
    rw [List.append_assoc, ← List.append_assoc b, ← List.append_assoc c]
    exact (List.perm_append_comm.append_right d).append_left a
  unfold Work.instances
  calc List.Perm (hand ++ (Graph.bound e.graph ++ Prototypes.pooled e.registry.prototypes))
        (hand ++ (Graph.bound e.graph ++
          (Prototypes.poolOf e.registry.prototypes q.key ++ others))) :=
      (hold.append_left _).append_left _
    List.Perm _ ((hand ++ Prototypes.poolOf e.registry.prototypes q.key) ++
        (Graph.bound e.graph ++ others)) := hswap _ _ _ _
    List.Perm _ ((hand' ++ q.pool) ++ (Graph.bound e.graph ++ others)) := hpool.append_right _
    List.Perm _ (hand' ++ (Graph.bound e.graph ++ (q.pool ++ others))) := (hswap _ _ _ _).symm
    List.Perm _ (hand' ++ (Graph.bound e.graph ++
        Prototypes.pooled (e.registry.prototypes.insert q.key q))) :=
      (hnew.symm.append_left _).append_left _

/-- Replacing a prototype or adding one, while instances go from its pool into the hand or back. -/
theorem putPrototype {q : Prototype} {hand' : List Instance} (h : Sound ⟨e, hand, debris, stale⟩)
    (harity : ∀ k a, Prototypes.arity? e.registry.prototypes k = some a →
      Prototypes.arity? (e.registry.prototypes.insert q.key q) k = some a)
    (hpool : (hand ++ Prototypes.poolOf e.registry.prototypes q.key).Perm (hand' ++ q.pool))
    (hidle : ∀ i ∈ q.pool, Idle e.graph q i)
    (hcapacity : ∀ c, e.settings.poolCapacity = some c → q.pool.length ≤ c)
    (hmade : q.WellMade e.registry.prototypes) :
    Sound ⟨e.putPrototype q, hand', debris, stale⟩ := by
  have ht : ∀ k, (e.putPrototype q).prototype? k =
      if k = q.key then some q else e.prototype? k := fun k => Table.get?_insert _ _ _ _
  have hperm : (Work.instances ⟨e, hand, debris, stale⟩).Perm
      (Work.instances ⟨e.putPrototype q, hand', debris, stale⟩) := instances_putPrototype hpool
  constructor
  · exact h.tidy
  · exact h.owning.perm hperm
  · exact h.watching
  · exact h.layered
  · exact h.coherent
  · exact h.wired.of_fades (.refl _) (fun j hj => hperm.mem_iff.2 hj)
      (fun k n hn => Graph.fans?_of_get? hn) (fun _ hk => hk) fun _ _ _ _ _ => rfl
  · intro k p hp j hj
    rw [ht] at hp
    split at hp
    · cases hp
      exact hidle j hj
    · exact h.idle k p hp j hj
  · intro k p hp c hc
    rw [ht] at hp
    split at hp
    · cases hp
      exact hcapacity c hc
    · exact h.capacity k p hp c hc
  · exact fun id n hn => (h.registered id n hn).mono harity
  · exact h.fitting
  · intro k p hp
    rw [ht] at hp
    split at hp
    · next hk => cases hp; exact hk.symm
    · exact h.named k p hp
  · intro k p hp
    rw [ht] at hp
    split at hp
    · cases hp
      exact hmade.mono harity
    · exact (h.templates k p hp).mono harity

/-- Putting an instance in hand into a pool. -/
theorem pool {p : Prototype} (h : Sound ⟨e, i :: hand, debris, stale⟩)
    (hp : e.prototype? p.key = some p) (hfit : e.fitsPool p i = true)
    (hidle : Idle e.graph p i) :
    Sound ⟨e.putPrototype { p with pool := i :: p.pool }, hand, debris, stale⟩ := by
  refine h.putPrototype ?_ ?_ ?_ ?_ ?_
  · intro k a ha
    exact (Prototypes.arity?_insert_same (q := { p with pool := i :: p.pool }) hp rfl rfl k).trans ha
  · show (i :: hand ++ Prototypes.poolOf e.registry.prototypes p.key).Perm (hand ++ i :: p.pool)
    rw [Prototypes.poolOf_of_get? hp]
    exact List.perm_middle.symm
  · intro j hj
    have hj' : Idle e.graph p j := by
      rcases List.mem_cons.1 hj with rfl | hj
      · exact hidle
      · exact h.idle p.key p hp j hj
    exact hj'.of_ports rfl rfl rfl
  · intro c hc
    unfold Engine.fitsPool at hfit
    rw [hc, Bool.and_eq_true, decide_eq_true_eq] at hfit
    exact hfit.2
  · have hmade := h.templates p.key p hp
    exact hmade.of_eq rfl rfl rfl

/-- Breaking an instance in hand up. -/
theorem breakUp (h : Sound ⟨e, i :: hand, debris, stale⟩) :
    Sound ⟨e, hand, i.nodes ++ debris, i.nodes ++ stale⟩ := by
  have hsub : ∀ j ∈ Work.instances ⟨e, hand, i.nodes ++ debris, i.nodes ++ stale⟩,
      j ∈ Work.instances ⟨e, i :: hand, debris, stale⟩ := fun j hj => List.mem_cons_of_mem i hj
  have hnodes : (debris ++ (Work.instances ⟨e, i :: hand, debris, stale⟩).flatMap
      Instance.nodes).Perm (i.nodes ++ debris ++ (Work.instances ⟨e, hand, i.nodes ++ debris,
        i.nodes ++ stale⟩).flatMap Instance.nodes) := by
    show (debris ++ (i :: _).flatMap Instance.nodes).Perm _
    rw [List.flatMap_cons, ← List.append_assoc]
    exact List.Perm.append_right _ List.perm_append_comm
  have hown := h.owning
  constructor
  · exact h.tidy
  · refine ⟨fun j hj => hown.numbered j (hsub j hj), ?_, hnodes.nodup_iff.1 hown.disjoint,
      fun id => (hnodes.mem_iff.symm).trans (hown.internal id),
      fun j hj => hown.boundary j (hsub j hj)⟩
    exact (List.nodup_cons.1 (show (i.id :: List.map Instance.id _).Nodup from hown.distinct)).2
  · exact h.watching
  · exact h.layered
  · exact h.coherent.of_fades (.refl _) (fun _ hk => .inr hk) fun _ hk => List.mem_append_right _ hk
  · exact h.wired.of_fades (.refl _) hsub (fun k n hn => Graph.fans?_of_get? hn)
      (fun _ hk => hk) fun _ _ _ _ _ => rfl
  · exact h.idle
  · exact h.capacity
  · exact h.registered
  · exact h.fitting
  · exact h.named
  · exact h.templates

/-- Freeing a node of an instance that was broken up. -/
theorem vacate (h : Sound ⟨e, hand, id :: debris, stale⟩) (hid : e.instance? id = none)
    (hstale : id ∈ stale) :
    Sound ⟨{ e with graph := e.graph.vacate id }, hand, debris, stale⟩ := by
  have hf := Graph.Fades.vacate e.graph id
  have hinst := Graph.instance?_vacate (g := e.graph) hid
  have hins : Work.instances ⟨{ e with graph := e.graph.vacate id }, hand, debris, stale⟩ =
      Work.instances ⟨e, hand, id :: debris, stale⟩ := by
    unfold Work.instances
    rw [Graph.bound_congr hinst]
  have hown := h.owning
  have hint : Graph.Internal e.graph id :=
    (hown.internal id).1 (List.mem_append_left _ List.mem_cons_self)
  have hnot : id ∉ debris ++ (Work.instances ⟨e, hand, id :: debris, stale⟩).flatMap
      Instance.nodes := (List.nodup_cons.1 hown.disjoint).1
  have hkeep : ∀ k, k ≠ id → (e.graph.vacate id).get? k = e.graph.get? k := fun _ =>
    Graph.get?_vacate_of_ne
  have hout : ∀ k n', (e.graph.vacate id).get? k = some n' →
      Graph.fans? e.graph k = some n'.outputs := by
    intro k n' hn'
    rw [Graph.fans?, (Graph.row_vacate hn').2, Option.map_some]
  constructor
  · exact Slots.tidy_vacate h.tidy id
  · show Owning _ _ _ _
    rw [hins]
    refine ⟨hown.numbered, hown.distinct, (List.nodup_cons.1 hown.disjoint).2, fun k => ?_,
      hown.boundary⟩
    constructor
    · intro hk
      have hne : k ≠ id := fun he => hnot (he ▸ hk)
      obtain ⟨n, hn, hi⟩ := (hown.internal k).1 (List.mem_cons_of_mem id hk)
      exact ⟨n, (hkeep k hne).trans hn, hi⟩
    · rintro ⟨n, hn, hi⟩
      obtain ⟨hne, hn⟩ := Graph.row_vacate hn
      rcases List.mem_cons.1 ((hown.internal k).2 ⟨n, hn, hi⟩) with rfl | hk
      · exact absurd rfl hne
      · exact hk
  · exact h.watching.congr hinst
  · exact h.layered.anti fun k j => hf.instance?
  · refine h.coherent.of_fades hf (fun k hk => ?_) fun _ hk => hk
    by_cases hne : k = id
    · exact .inl (hne ▸ hstale)
    · obtain ⟨n, hn, hs⟩ := hk
      exact .inr ⟨n, (hkeep k hne).trans hn, hs⟩
  · show Wired _ _
    rw [hins]
    refine h.wired.of_fades hf (fun _ hj => hj) hout (fun k hk => ?_) fun k j hj o ho => ?_
    · have hne : k ≠ id := fun he => Graph.not_visible_of_internal hint (he ▸ hk)
      obtain ⟨n, hn, hv⟩ := hk
      exact ⟨n, (hkeep k hne).trans hn, hv⟩
    · have hjm : j ∈ Work.instances ⟨e, hand, id :: debris, stale⟩ :=
        mem_of_bound (w := ⟨e, hand, id :: debris, stale⟩) (hf.instance? hj)
      have hne : o ≠ id := fun he => hown.not_mem_debris hjm (hown.outputs_subset hjm ho)
        (he ▸ List.mem_cons_self)
      rw [Graph.fans?, hkeep o hne, Graph.fans?]
  · exact fun k p hp j hj => (h.idle k p hp j hj).of_fans hf hout
  · exact h.capacity
  · exact registered_of_fades hf h.registered
  · exact fitting_of_fades hf h.fitting
  · exact h.named
  · exact h.templates

/-- Dropping the pending entries of nodes that are gone. -/
theorem flush {gone : List NodeId} (h : Sound ⟨e, hand, debris, gone ++ stale⟩)
    (hgone : ∀ id ∈ gone, e.graph.get? id = none) :
    Sound ⟨{ e with pending := e.pending.filter fun id => !gone.contains id }, hand, debris,
      stale⟩ := by
  refine ⟨h.tidy, h.owning, h.watching, h.layered, ?_, h.wired, h.idle, h.capacity, h.registered,
    h.fitting, h.named, h.templates⟩
  refine ⟨h.coherent.nodup.filter _, fun id hid => ?_, fun id hid => ?_, h.coherent.ready⟩
  · simp only [List.mem_filter, Bool.not_eq_true', List.contains_eq_mem, decide_eq_false_iff_not]
      at hid
    rcases h.coherent.scheduled id hid.1 with hs | hs
    · exact .inl ((List.mem_append.1 hs).resolve_left hid.2)
    · exact .inr hs
  · simp only [List.mem_filter, Bool.not_eq_true', List.contains_eq_mem, decide_eq_false_iff_not]
    refine ⟨h.coherent.pending id hid, fun hm => ?_⟩
    obtain ⟨n, hn, -⟩ := hid
    have := hgone id hm
    rw [hn] at this
    cases this

end Sound

/-! ## Moves -/

/-- One move of taking instances apart, at nodes of which `S` holds. -/
inductive Move (S : NodeId → Prop) : Work → Work → Prop
  | report {e : Engine} {hand : List Instance} {debris stale : List NodeId} (v : Event) :
      Move S ⟨e, hand, debris, stale⟩ ⟨e.report v, hand, debris, stale⟩
  | take {e : Engine} {hand : List Instance} {debris stale : List NodeId} {id : NodeId}
      {i : Instance} (hi : e.instance? id = some i) (hS : S id) :
      Move S ⟨e, hand, debris, stale⟩ ⟨e.unbind id, i :: hand, debris, stale⟩
  | unroute {e : Engine} {hand : List Instance} {debris stale : List NodeId} {i : Instance}
      (hi : i ∈ hand) (hS : ∀ o ∈ i.outputs, S o) :
      Move S ⟨e, hand, debris, stale⟩
        ⟨{ e with graph := Engine.unroute e.graph i.outputs }, hand, debris, stale⟩
  | pool {e : Engine} {hand : List Instance} {debris stale : List NodeId} {i : Instance}
      {p : Prototype} (hp : e.prototype? p.key = some p) (hfit : e.fitsPool p i = true)
      (hidle : Idle e.graph p i) :
      Move S ⟨e, i :: hand, debris, stale⟩
        ⟨e.putPrototype { p with pool := i :: p.pool }, hand, debris, stale⟩
  | breakUp {e : Engine} {hand : List Instance} {debris stale : List NodeId} {i : Instance} :
      Move S ⟨e, i :: hand, debris, stale⟩ ⟨e, hand, i.nodes ++ debris, i.nodes ++ stale⟩
  | vacate {e : Engine} {hand : List Instance} {debris stale : List NodeId} {id : NodeId}
      (hid : e.instance? id = none) (hstale : id ∈ stale) (hS : S id) :
      Move S ⟨e, hand, id :: debris, stale⟩
        ⟨{ e with graph := e.graph.vacate id }, hand, debris, stale⟩
  | flush {e : Engine} {hand : List Instance} {debris stale gone : List NodeId}
      (hgone : ∀ id ∈ gone, e.graph.get? id = none) :
      Move S ⟨e, hand, debris, gone ++ stale⟩
        ⟨{ e with pending := e.pending.filter fun id => !gone.contains id }, hand, debris, stale⟩

/-- A prototype without its pool. -/
def Prototype.bare (p : Prototype) : Prototype := { p with pool := [] }

namespace Move

variable {S : NodeId → Prop} {w w' : Work}

theorem sound (m : Move S w w') (h : Sound w) : Sound w' := by
  cases m with
  | report v => exact h.of_eq rfl rfl rfl rfl rfl rfl
  | take hi _ => exact h.take hi
  | unroute hi _ => exact h.refan hi (Graph.refans_unroute _ _) (Graph.tidy_unroute h.tidy _)
  | pool hp hfit hidle => exact h.pool hp hfit hidle
  | breakUp => exact h.breakUp
  | vacate hid hstale _ => exact h.vacate hid hstale
  | flush hgone => exact h.flush hgone

theorem fades (m : Move S w w') : Graph.Fades w.engine.graph w'.engine.graph := by
  cases m with
  | take _ _ => exact .unbind _ _
  | unroute _ _ => exact .refans (Graph.refans_unroute _ _)
  | vacate _ _ _ => exact .vacate _ _
  | report _ | pool _ _ _ | breakUp | flush _ => exact .refl _

/-- Nodes outside `S` stay as they are. -/
theorem keep (m : Move S w w') {k : NodeId} (hk : ¬ S k) :
    w'.engine.graph.get? k = w.engine.graph.get? k := by
  cases m with
  | @take e _ _ _ id _ _ hS =>
    have hne : id ≠ k := fun h => hk (h ▸ hS)
    show (e.graph.modify id _).get? k = _
    rw [Slots.get?_modify, if_neg hne]
  | @unroute e _ _ _ i _ hS =>
    exact (Graph.refans_unroute e.graph i.outputs).keep fun ho => hk (hS k ho)
  | @vacate e _ _ _ id _ _ hS =>
    have hne : k ≠ id := fun h => hk (h ▸ hS)
    exact Graph.get?_vacate_of_ne hne
  | report _ | pool _ _ _ | breakUp | flush _ => rfl

/-- Prototypes change in their pools only. -/
theorem bare (m : Move S w w') (k : Key) :
    (w'.engine.prototype? k).map Prototype.bare = (w.engine.prototype? k).map Prototype.bare := by
  cases m with
  | @pool e _ _ _ i p hp _ _ =>
    show ((e.registry.prototypes.insert p.key { p with pool := i :: p.pool }).get? k).map _ = _
    rw [Table.get?_insert]
    by_cases hk : k = p.key
    · rw [if_pos hk, hk]
      show some p.bare = (e.prototype? p.key).map Prototype.bare
      rw [hp, Option.map_some]
    · rw [if_neg hk]
      rfl
  | report _ | take _ _ | unroute _ _ | breakUp | vacate _ _ _ | flush _ => rfl

theorem settings (m : Move S w w') : w'.engine.settings = w.engine.settings := by
  cases m with
  | report _ | take _ _ | unroute _ _ | pool _ _ _ | breakUp | vacate _ _ _ | flush _ => rfl

/-- Pending entries are dropped at most. -/
theorem pending (m : Move S w w') : w'.engine.pending.Sublist w.engine.pending := by
  cases m with
  | flush _ => exact List.filter_sublist
  | report _ | take _ _ | unroute _ _ | pool _ _ _ | breakUp | vacate _ _ _ => exact .refl _

/-- No move makes an instance. -/
theorem instances (m : Move S w w') {i : Instance} (hi : i ∈ w'.instances) : i ∈ w.instances := by
  have hf := m.fades
  rw [Work.mem_instances] at hi ⊢
  rcases hi with hi | ⟨id, hi⟩ | ⟨k, p, hp, hi⟩
  · cases m with
    | take hb _ =>
      rcases List.mem_cons.1 hi with rfl | hi
      · exact .inr (.inl ⟨_, hb⟩)
      · exact .inl hi
    | pool _ _ _ | breakUp => exact .inl (List.mem_cons_of_mem _ hi)
    | report _ | unroute _ _ | vacate _ _ _ | flush _ => exact .inl hi
  · exact .inr (.inl ⟨id, hf.instance? hi⟩)
  · cases m with
    | @pool e _ _ _ j q hq _ _ =>
      have ht : (e.registry.prototypes.insert q.key { q with pool := j :: q.pool }).get? k =
          some p := hp
      rw [Table.get?_insert] at ht
      split at ht
      · cases ht
        rcases List.mem_cons.1 hi with rfl | hi
        · exact .inl List.mem_cons_self
        · exact .inr (.inr ⟨q.key, q, hq, hi⟩)
      · exact .inr (.inr ⟨k, p, ht, hi⟩)
    | report _ | take _ _ | unroute _ _ | breakUp | vacate _ _ _ | flush _ =>
      exact .inr (.inr ⟨k, p, hp, hi⟩)

end Move

/-- Any number of moves. -/
abbrev Moves (S : NodeId → Prop) : Work → Work → Prop := Relation.ReflTransGen (Move S)

namespace Moves

variable {S : NodeId → Prop} {w w' : Work}

theorem sound (m : Moves S w w') (h : Sound w) : Sound w' := by
  induction m with
  | refl => exact h
  | tail _ m ih => exact m.sound ih

theorem fades (m : Moves S w w') : Graph.Fades w.engine.graph w'.engine.graph := by
  induction m with
  | refl => exact .refl _
  | tail _ m ih => exact ih.trans m.fades

theorem keep (m : Moves S w w') {k : NodeId} (hk : ¬ S k) :
    w'.engine.graph.get? k = w.engine.graph.get? k := by
  induction m with
  | refl => rfl
  | tail _ m ih => exact (m.keep hk).trans ih

theorem bare (m : Moves S w w') (k : Key) :
    (w'.engine.prototype? k).map Prototype.bare = (w.engine.prototype? k).map Prototype.bare := by
  induction m with
  | refl => rfl
  | tail _ m ih => exact (m.bare k).trans ih

theorem settings (m : Moves S w w') : w'.engine.settings = w.engine.settings := by
  induction m with
  | refl => rfl
  | tail _ m ih => exact m.settings.trans ih

theorem pending (m : Moves S w w') : w'.engine.pending.Sublist w.engine.pending := by
  induction m with
  | refl => exact .refl _
  | tail _ m ih => exact m.pending.trans ih

theorem instances (m : Moves S w w') {i : Instance} (hi : i ∈ w'.instances) :
    i ∈ w.instances := by
  induction m with
  | refl => exact hi
  | tail _ m ih => exact ih (m.instances hi)

/-- A prototype found afterwards was there before, but for its pool. -/
theorem prototype (m : Moves S w w') {k : Key} {p' : Prototype}
    (hp' : w'.engine.prototype? k = some p') :
    ∃ p, w.engine.prototype? k = some p ∧ p'.bare = p.bare := by
  have hb := m.bare k
  rw [hp', Option.map_some, eq_comm, Option.map_eq_some_iff] at hb
  obtain ⟨p, hp, hb⟩ := hb
  exact ⟨p, hp, hb.symm⟩

end Moves

end PulseFlow
