import PulseFlow.Proofs.Teardown

/-!
# Nests

The nest of a node is the node itself with all that lies in the instance it is bound to, at any
depth.  As a list it is computed by going down as deep as there are nodes; the nodes of an instance
stand in it before the reference that holds the instance.

    Layered e.graph → (m ∈ e.nest id ↔ Nested e.graph id m)                        (mem_nest)

An instance that is taken from its reference and put into no pool is gone with all of its nodes
(`Moves.gone`).
-/

namespace PulseFlow

/-- A sublist of a list without repetitions is what is left when the other members are dropped. -/
theorem eq_filter_of_sublist {α : Type} {l l' : List α} {p : α → Bool} (hs : l'.Sublist l)
    (hn : l.Nodup) (hm : ∀ a ∈ l, a ∈ l' ↔ p a = true) : l' = l.filter p := by
  induction hs with
  | slnil => rfl
  | @cons l₁ l₂ a hs ih =>
    obtain ⟨ha, hn⟩ := List.nodup_cons.1 hn
    have hdrop : ¬ p a = true := fun hp =>
      ha (hs.subset ((hm a List.mem_cons_self).2 hp))
    rw [List.filter_cons_of_neg hdrop]
    exact ih hn fun b hb => hm b (List.mem_cons_of_mem a hb)
  | @cons_cons l₁ l₂ a hs ih =>
    obtain ⟨ha, hn⟩ := List.nodup_cons.1 hn
    rw [List.filter_cons_of_pos ((hm a List.mem_cons_self).1 List.mem_cons_self)]
    refine congrArg (a :: ·) (ih hn fun b hb => ?_)
    rw [← hm b (List.mem_cons_of_mem a hb), List.mem_cons]
    refine ⟨.inr, fun hb' => hb'.resolve_left ?_⟩
    rintro rfl
    exact ha hb

/-! ## What lies in a node -/

namespace Graph

variable {g g' : Graph} {id m r : NodeId} {depth : Nat}

/-- A node lies in the instance that another one is bound to. -/
def Holds (g : Graph) (r m : NodeId) : Prop := ∃ i, instance? g r = some i ∧ m ∈ i.nodes

/-- A node is another one, or lies in its instance at some depth. -/
def Nested (g : Graph) : NodeId → NodeId → Prop := Relation.ReflTransGen (Holds g)

/-- All that lies in a node down to `depth` levels, the node itself last. -/
def nestWithin (g : Graph) : Nat → NodeId → List NodeId
  | 0, id => [id]
  | depth + 1, id =>
    match instance? g id with
    | some i => i.nodes.flatMap (nestWithin g depth) ++ [id]
    | none => [id]

theorem nestWithin_of_unbound (h : instance? g id = none) (depth : Nat) :
    nestWithin g depth id = [id] := by
  cases depth with
  | zero => rfl
  | succ depth => rw [nestWithin, h]

theorem nestWithin_of_bound {i : Instance} (h : instance? g id = some i) :
    nestWithin g (depth + 1) id = i.nodes.flatMap (nestWithin g depth) ++ [id] := by
  rw [nestWithin, h]

theorem self_mem_nestWithin (g : Graph) (depth : Nat) (id : NodeId) :
    id ∈ nestWithin g depth id := by
  cases hi : instance? g id with
  | none =>
    rw [nestWithin_of_unbound hi]
    exact List.mem_singleton_self id
  | some i =>
    cases depth with
    | zero => exact List.mem_singleton_self id
    | succ depth =>
      rw [nestWithin_of_bound hi]
      exact List.mem_append_right _ (List.mem_singleton_self id)

theorem nested_of_unbound (h : instance? g id = none) : Nested g id m ↔ m = id := by
  constructor
  · intro hm
    rcases Relation.ReflTransGen.cases_head hm with rfl | ⟨k, ⟨i, hi, -⟩, -⟩
    · rfl
    · rw [h] at hi
      cases hi
  · rintro rfl
    exact .refl

theorem nested_of_bound {i : Instance} (h : instance? g id = some i) :
    Nested g id m ↔ (∃ k ∈ i.nodes, Nested g k m) ∨ m = id := by
  constructor
  · intro hm
    rcases Relation.ReflTransGen.cases_head hm with rfl | ⟨k, ⟨j, hj, hk⟩, hkm⟩
    · exact .inr rfl
    · cases h.symm.trans hj
      exact .inl ⟨k, hk, hkm⟩
  · rintro (⟨k, hk, hkm⟩ | rfl)
    · exact .head ⟨i, h, hk⟩ hkm
    · exact .refl

theorem nested_of_mem_nestWithin (h : m ∈ nestWithin g depth id) : Nested g id m := by
  induction depth generalizing id with
  | zero =>
    rw [List.mem_singleton.1 h]
    exact .refl
  | succ depth ih =>
    cases hi : instance? g id with
    | none =>
      rw [nestWithin_of_unbound hi] at h
      rw [List.mem_singleton.1 h]
      exact .refl
    | some i =>
      rw [nestWithin_of_bound hi, List.mem_append, List.mem_flatMap, List.mem_singleton] at h
      refine (nested_of_bound hi).2 (h.imp_left ?_)
      rintro ⟨k, hk, hm⟩
      exact ⟨k, hk, ih hm⟩

/-- Looking deep enough misses nothing. -/
theorem mem_nestWithin (h : Shallow g depth id) : m ∈ nestWithin g depth id ↔ Nested g id m := by
  refine ⟨nested_of_mem_nestWithin, fun hm => ?_⟩
  induction depth generalizing id with
  | zero =>
    rw [(nested_of_unbound h).1 hm]
    exact self_mem_nestWithin g 0 id
  | succ depth ih =>
    cases hi : instance? g id with
    | none =>
      rw [(nested_of_unbound hi).1 hm]
      exact self_mem_nestWithin g _ id
    | some i =>
      rw [nestWithin_of_bound hi, List.mem_append, List.mem_flatMap, List.mem_singleton]
      refine ((nested_of_bound hi).1 hm).imp_left ?_
      rintro ⟨k, hk, hm⟩
      exact ⟨k, hk, ih (h i hi k hk) hm⟩

/-- Nests go down: what lies in an instance does not contain the reference that holds it. -/
theorem Layered.not_nested {i : Instance} (h : Layered g) (hi : instance? g id = some i)
    (hm : m ∈ i.nodes) : ¬ Nested g m id := by
  obtain ⟨level, hl⟩ := h
  have hle : ∀ {k}, Nested g m k → level m ≤ level k := by
    intro k hk
    induction hk with
    | refl => exact Nat.le_refl _
    | tail _ hx ih =>
      obtain ⟨j, hj, hx⟩ := hx
      have hlevel := hl _ j hj _ hx
      omega
  intro hid
  have hlevel := hl id i hi m hm
  have := hle hid
  omega

/-- With a reference, a nest contains what the reference holds. -/
theorem closed_nested (g : Graph) (id : NodeId) : Closed g (Nested g id) :=
  fun _ i hk hi _ hm => .tail hk ⟨i, hi, hm⟩

/-- What lies in a node that is not active is not active. -/
theorem Nested.not_active (h : Nested g id m) (hact : ¬ Active g id) : ¬ Active g m := by
  induction h with
  | refl => exact hact
  | tail _ hm ih =>
    obtain ⟨i, hi, hm⟩ := hm
    exact fun ha => ih (.inside hi hm ha)

end Graph

/-! ## What is left when instances are taken apart -/

/-- An engine without all that changes when instances are taken apart: the graph and the lists of
nodes, the prototypes with their pools, and the reports. -/
def Engine.outer (e : Engine) : Engine :=
  { e with
    graph := .empty
    registry := { e.registry with prototypes := ∅ }
    pending := []
    watch := []
    world := { e.world with events := #[] } }

namespace Moves

variable {S : NodeId → Prop} {w w' : Work}

/-- Watched nodes are dropped at most. -/
theorem watch (m : Moves S w w') : w'.engine.watch.Sublist w.engine.watch := by
  induction m with
  | refl => exact .refl _
  | tail _ m ih =>
    refine List.Sublist.trans ?_ ih
    cases m with
    | take _ _ => exact List.filter_sublist
    | report _ | unroute _ _ | pool _ _ _ | breakUp | vacate _ _ _ | flush _ => exact .refl _

theorem outer (m : Moves S w w') : w'.engine.outer = w.engine.outer := by
  induction m with
  | refl => rfl
  | tail _ m ih =>
    refine Eq.trans ?_ ih
    cases m with
    | report _ | take _ _ | unroute _ _ | pool _ _ _ | breakUp | vacate _ _ _ | flush _ => rfl

/-- The nodes of an instance are gone once nothing holds it any more.  Nodes that are still there
would belong to an instance that is bound or pooled, and there is no other instance they can belong
to. -/
theorem gone {e e' : Engine} {r : NodeId} {i : Instance} (m : Moves S (.rest e) (.rest e'))
    (h : Sound (.rest e)) (hi : e.instance? r = some i) (hun : e'.instance? r = none)
    (hpool : ∀ k p, e'.prototype? k = some p → i ∉ p.pool) :
    ∀ x ∈ i.nodes, e'.graph.get? x = none := by
  intro x hx
  by_contra hlive
  obtain ⟨n', hn'⟩ := Option.ne_none_iff_exists'.1 hlive
  have hmem : i ∈ Work.instances (.rest e) := Sound.mem_of_bound (w := .rest e) hi
  have hint : Graph.Internal e'.graph x :=
    (m.fades.still hn').2.1 (h.owning.internal_of_mem hmem hx)
  obtain ⟨j, hj, hxj⟩ := ((m.sound h).owning.mem_of_internal hint).resolve_left List.not_mem_nil
  have hij : j = i := h.owning.eq_of_mem (m.instances hj) hmem hxj hx
  subst hij
  rcases Work.mem_instances.1 hj with hj | ⟨s, hs⟩ | ⟨k, p, hp, hj⟩
  · cases hj
  · have hold : Graph.instance? e.graph s = some j := m.fades.instance? hs
    have hsr : s = r := h.holder_unique hold hi
    rw [hsr] at hs
    cases hun.symm.trans hs
  · exact hpool k p hp hj

end Moves

namespace Engine

variable {e : Engine} {id m : NodeId}

/-- A node with all that lies in it. -/
def nest (e : Engine) (id : NodeId) : List NodeId := Graph.nestWithin e.graph e.depthBound id

theorem mem_nest (h : Graph.Layered e.graph) : m ∈ e.nest id ↔ Graph.Nested e.graph id m :=
  Graph.mem_nestWithin (shallow_depthBound h id)

end Engine

end PulseFlow
