import PulseFlow.Proofs.Enclosure
import PulseFlow.Proofs.Identity
import PulseFlow.Proofs.Nests
import PulseFlow.Proofs.Settling

/-!
# Removing a node

When a node is removed, its nest leaves the graph: the node, and for a bound reference all that lies
in its instance.  Nothing else happens.  The nodes that stay are as they were, but lead to the
removed node no longer; what waits and what is watched stays in order; and no prototype changes.  In
particular no instance goes to a pool, since between two calls every bound reference is active.

    Visible e.graph id → (e.remove id).1 = .ok () ∧ e.Removes id (e.remove id).2   (removes_after)
-/

namespace PulseFlow

namespace Engine

variable {e e' : Engine} {id m : NodeId}

/-- What is changed when a node is removed. -/
structure Removes (e : Engine) (id : NodeId) (e' : Engine) : Prop where
  /-- The nodes that are removed. -/
  nest : ∀ m, m ∈ e.nest id ↔ Graph.Nested e.graph id m
  gone : ∀ m ∈ e.nest id, e'.graph.get? m = none
  /-- The others lose their connections into the removed node, and nothing else. -/
  kept : ∀ m, m ∉ e.nest id → e'.graph.get? m = (e.graph.get? m).map (Node.forget id)
  leads : ∀ source target, Graph.Leads e'.graph source target → target.node ∉ e.nest id
  pending : e'.pending = e.pending.filter fun m => m ∉ e.nest id
  watch : e'.watch = e.watch.filter fun m => m ∉ e.nest id
  /-- Prototypes with their pools, arrays, settings and counts are as they were. -/
  rest : e' = { e with
    graph := e'.graph
    pending := e'.pending
    watch := e'.watch
    world := { e.world with events := e'.world.events } }

/-! ## The nest -/

/-- A node that is withdrawn takes all that lies in it along: each reference on the way down loses
its instance, and between two calls no instance is pooled. -/
theorem nested_withdraw (h : e.Settled) (hv : Graph.Visible e.graph id)
    (hm : Graph.Nested e.graph id m) :
    (e.withdraw id).instance? m = none ∧ (m ≠ id → (e.withdraw id).graph.get? m = none) := by
  have hmoves := withdraw_moves h.sound (S := Graph.Nested e.graph id) .refl
    (Graph.closed_nested e.graph id)
  have hreg : (e.withdraw id).registry = e.registry := (withdraw_busy h.sound h.busy hv).2
  induction hm with
  | refl => exact ⟨hmoves.2, fun hne => absurd rfl hne⟩
  | tail _ hm ih =>
    obtain ⟨i, hi, hm⟩ := hm
    have hpool : ∀ k p, (e.withdraw id).prototype? k = some p → i ∉ p.pool := by
      intro k p hp
      rw [prototype?, hreg] at hp
      exact h.sound.not_pooled_of_bound hi hp
    have hgone := hmoves.1.gone h.sound hi ih.1 hpool _ hm
    exact ⟨Graph.instance?_of_get?_none hgone, fun _ => hgone⟩

/-! ## What stays -/

theorem eq_of_outer (h : e'.outer = e.outer) (hreg : e'.registry = e.registry) :
    e' = { e with
      graph := e'.graph
      pending := e'.pending
      watch := e'.watch
      world := { e.world with events := e'.world.events } } := by
  obtain ⟨graph, registry, pending, watch, settings, steps, next, world⟩ := e
  obtain ⟨graph', registry', pending', watch', settings', steps', next', world'⟩ := e'
  simp only [outer, mk.injEq, World.mk.injEq, true_and] at h
  cases hreg
  obtain ⟨-, rfl, rfl, rfl, hheap, hconsole, hobservations⟩ := h
  dsimp only
  rw [← hheap, ← hconsole, ← hobservations]

/-- All that leads somewhere leads to an input that is there. -/
theorem plugged_after (settings : Settings) (console : Console) (commands : List Command) :
    Graph.Plugged ((fresh settings console).after commands).graph := by
  have hkeep : ∀ {e e'}, Sound (.rest e) → Sound (.rest e') → Change .all e e' →
      e.Drawn ∧ Graph.Plugged e.graph → e'.Drawn ∧ Graph.Plugged e'.graph := fun h h' hc he =>
    ⟨hc.drawn h he.1, hc.plugged h h' he.1 he.2⟩
  refine (after_induct hkeep ⟨drawn_fresh settings console, ?_⟩ commands).2
  rintro s t ⟨n, f, hn, -⟩
  have hnone : (fresh settings console).graph.get? s.node = none := Slots.get?_empty s.node
  rw [hnone] at hn
  cases hn

theorem remove_of_visible (hv : Graph.Visible e.graph id) :
    e.remove id = (.ok (), { e.withdraw id with
      graph := Graph.erase (e.withdraw id).graph id
      pending := (e.withdraw id).pending.filter fun p => p != id }) := by
  obtain ⟨n, hn, hint⟩ := hv
  have hok : e.visible id = .ok n := by
    rw [visible, hn]
    exact if_neg (by rw [hint]; decide)
  rw [remove, hok]

theorem removed_of_visible (hv : Graph.Visible e.graph id) :
    (e.remove id).2.graph = Graph.erase (e.withdraw id).graph id ∧
      (e.remove id).2.pending = ((e.withdraw id).pending.filter fun p => p != id) ∧
      (e.remove id).2.watch = (e.withdraw id).watch ∧
      (e.remove id).2.outer = (e.withdraw id).outer ∧
      (e.remove id).2.registry = (e.withdraw id).registry := by
  rw [remove_of_visible hv]
  exact ⟨rfl, rfl, rfl, rfl, rfl⟩

/-- Removal at an engine that is settled, given that nothing leads nowhere afterwards. -/
theorem removes_of_settled (h : e.Settled) (hv : Graph.Visible e.graph id)
    (hplugged : Graph.Plugged (e.remove id).2.graph) : e.Removes id (e.remove id).2 := by
  have hnest : ∀ m, m ∈ e.nest id ↔ Graph.Nested e.graph id m := fun m => mem_nest h.sound.layered
  obtain ⟨hmoves, -⟩ := withdraw_moves h.sound (S := Graph.Nested e.graph id) .refl
    (Graph.closed_nested e.graph id)
  have hkeep : ∀ m, ¬ Graph.Nested e.graph id m →
      (e.withdraw id).graph.get? m = e.graph.get? m := fun _ => hmoves.keep
  have h' : Sound (.rest (e.remove id).2) := (remove_serves h id).settled.sound
  obtain ⟨hgraph, hpending, hwatch, houter, hreg⟩ := removed_of_visible hv
  replace hpending : (e.remove id).2.pending.Sublist e.pending :=
    hpending ▸ List.filter_sublist.trans hmoves.pending
  replace hwatch : (e.remove id).2.watch.Sublist e.watch := hwatch ▸ hmoves.watch
  replace houter : (e.remove id).2.outer = e.outer := houter.trans hmoves.outer
  replace hreg : (e.remove id).2.registry = e.registry :=
    hreg.trans (withdraw_busy h.sound h.busy hv).2
  generalize (e.remove id).2 = e' at *
  have hgone : ∀ m ∈ e.nest id, e'.graph.get? m = none := by
    intro m hm
    rw [hgraph, Graph.get?_erase]
    by_cases hid : id = m
    · rw [if_pos hid]
    · rw [if_neg hid, (nested_withdraw h hv ((hnest m).1 hm)).2 (Ne.symm hid), Option.map_none]
  have hkept : ∀ m, m ∉ e.nest id → e'.graph.get? m = (e.graph.get? m).map (Node.forget id) := by
    intro m hm
    have hid : id ≠ m := fun hid => hm ((hnest m).2 (hid ▸ .refl))
    rw [hgraph, Graph.get?_erase, if_neg hid, hkeep m fun hs => hm ((hnest m).2 hs)]
  refine ⟨hnest, hgone, hkept, ?_, ?_, ?_, eq_of_outer houter hreg⟩
  · intro source target hl hm
    obtain ⟨n, hn, -⟩ := hplugged source target hl
    rw [hgone target.node hm] at hn
    cases hn
  · refine eq_filter_of_sublist hpending h.sound.coherent.nodup fun a ha => ?_
    rw [mem_pending_iff h', decide_eq_true_eq]
    constructor
    · rintro ⟨n, hn, -⟩ ha
      rw [hgone a ha] at hn
      cases hn
    · intro hnot
      obtain ⟨n, hn, hs⟩ := (mem_pending_iff h.sound a).1 ha
      exact ⟨n.forget id, by rw [hkept a hnot, hn, Option.map_some], hs⟩
  · refine eq_filter_of_sublist hwatch h.sound.watching.nodup fun a ha => ?_
    have hiff : a ∈ e'.watch ↔ ∃ i, Graph.instance? e'.graph a = some i := h'.watching.mem_iff a
    rw [hiff, decide_eq_true_eq]
    constructor
    · rintro ⟨i, hi⟩ ha
      rw [Graph.instance?_of_get?_none (hgone a ha)] at hi
      cases hi
    · intro hnot
      obtain ⟨i, hi⟩ := (h.sound.watching.mem_iff a).1 ha
      obtain ⟨n, hn, hni⟩ := Graph.instance?_eq_some_iff.1 hi
      have hn' : e'.graph.get? a = some (n.forget id) :=
        (hkept a hnot).trans (congrArg (Option.map (Node.forget id)) hn)
      exact ⟨i, Graph.instance?_eq_some_iff.2 ⟨n.forget id, hn', hni⟩⟩

/-- In every engine that commands lead to, removing a node that callers may name succeeds, and takes
away that node with all that lies in it and nothing else. -/
theorem removes_after (settings : Settings) (console : Console) (commands : List Command)
    (id : NodeId) (hid : Graph.Visible ((fresh settings console).after commands).graph id) :
    let e := (fresh settings console).after commands
    (e.remove id).1 = .ok () ∧ e.Removes id (e.remove id).2 := by
  intro e
  have hnext : (e.remove id).2 =
      (fresh settings console).after (commands ++ [.call (.remove id)]) := by
    rw [after, List.foldl_append]
    rfl
  refine ⟨by rw [remove_of_visible hid], ?_⟩
  refine removes_of_settled (settled_after settings console commands) hid ?_
  rw [hnext]
  exact plugged_after settings console _

/-- A signal that is three waves deep in nested instances. -/
def deepSession : List Command := fourfoldSession ++ [.step, .step, .step]

theorem removes_after_deepSession :
    let e := (fresh {} (.script {})).after deepSession
    (e.watch, e.nest 0) = ([0, 4], [2, 3, 6, 7, 8, 4, 5, 0]) ∧ e.Removes 0 (e.remove 0).2 := by
  have hmem : 0 ∈ ((fresh {} (.script {})).after deepSession).nodes := by decide +kernel
  have hremoves := removes_after {} (.script {}) deepSession 0 ((mem_nodes _ 0).1 hmem)
  exact ⟨by decide +kernel, hremoves.2⟩

end Engine

end PulseFlow
