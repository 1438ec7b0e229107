import Mathlib.Data.List.Basic
import PulseFlow.Engine.Basic
import PulseFlow.Proofs.Slots

/-!
# Bound references, nesting and activity

A bound reference holds an instance, and the nodes of that instance may be bound references again.
In a layered graph, one in which each node of an instance lies one level below the reference that
holds it, the nesting is no deeper than there are nodes, so looking `depthBound` levels deep misses
nothing:

    Layered e.graph → (e.isActive id = true ↔ Active e.graph id)              (isActive_iff)
-/

namespace PulseFlow

theorem filterMap_range_eq {α : Type} {f : Nat → Option α} {m n : Nat}
    (hm : ∀ k, m ≤ k → f k = none) (hn : ∀ k, n ≤ k → f k = none) :
    (List.range m).filterMap f = (List.range n).filterMap f := by
  have grow : ∀ (f : Nat → Option α) (m k : Nat), (∀ j, m ≤ j → f j = none) →
      (List.range (m + k)).filterMap f = (List.range m).filterMap f := by
    intro f m k h
    induction k with
    | zero => rfl
    | succ k ih =>
      rw [← Nat.add_assoc, List.range_succ, List.filterMap_append, ih]
      simp [h (m + k) (by omega)]
  rcases Nat.le_total m n with h | h
  · obtain ⟨k, rfl⟩ := Nat.le.dest h
    exact (grow f m k hm).symm
  · obtain ⟨k, rfl⟩ := Nat.le.dest h
    exact grow f n k hn

/-- A function that gives one value less on a range. -/
theorem filterMap_range_perm {α : Type} {f f' : Nat → Option α} {n k : Nat} {a : α} (hk : k < n)
    (hf : f k = some a) (hf' : f' k = none) (h : ∀ j, j ≠ k → f' j = f j) :
    ((List.range n).filterMap f).Perm (a :: (List.range n).filterMap f') := by
  obtain ⟨l, l', hl⟩ := List.append_of_mem (List.mem_range.2 hk)
  have hnodup : (l ++ k :: l').Nodup := hl ▸ List.nodup_range
  have agree : ∀ j ∈ l ++ l', f' j = f j := by
    intro j hj
    refine h j fun hjk => ?_
    subst hjk
    rw [List.nodup_append] at hnodup
    rcases List.mem_append.1 hj with hj | hj
    · exact hnodup.2.2 j hj j List.mem_cons_self rfl
    · exact (List.nodup_cons.1 hnodup.2.1).1 hj
  have hl₁ : l.filterMap f' = l.filterMap f :=
    List.filterMap_congr fun j hj => agree j (List.mem_append_left _ hj)
  have hl₂ : l'.filterMap f' = l'.filterMap f :=
    List.filterMap_congr fun j hj => agree j (List.mem_append_right _ hj)
  rw [hl, List.filterMap_append, List.filterMap_append, List.filterMap_cons_some hf,
    List.filterMap_cons_none hf', hl₁, hl₂]
  exact List.perm_middle

namespace Graph

variable {g g' : Graph} {id : NodeId} {i : Instance}

/-! ## What is bound -/

/-- The instance that a node is bound to. -/
def instance? (g : Graph) (id : NodeId) : Option Instance := (g.get? id).bind Node.instance?

/-- All instances that nodes of a graph are bound to, in the order of those nodes. -/
def bound (g : Graph) : List Instance := (List.range g.cells.size).filterMap (instance? g)

theorem instance?_eq_some_iff :
    instance? g id = some i ↔ ∃ n, g.get? id = some n ∧ n.instance? = some i := by
  simp [instance?, Option.bind_eq_some_iff]

theorem instance?_of_get? {n : Node} (h : g.get? id = some n) : instance? g id = n.instance? := by
  simp [instance?, h]

theorem instance?_of_get?_none (h : g.get? id = none) : instance? g id = none := by
  simp [instance?, h]

theorem lt_size_of_instance? (h : instance? g id = some i) : id < g.cells.size := by
  obtain ⟨n, hn, -⟩ := instance?_eq_some_iff.1 h
  exact Slots.lt_size_of_get? hn

theorem instance?_eq_none_of_size_le (h : g.cells.size ≤ id) : instance? g id = none := by
  cases hi : instance? g id with
  | none => rfl
  | some i => exact absurd (lt_size_of_instance? hi) (Nat.not_lt.2 h)

theorem mem_bound : i ∈ bound g ↔ ∃ id, instance? g id = some i := by
  simp only [bound, List.mem_filterMap, List.mem_range]
  constructor
  · rintro ⟨id, -, h⟩
    exact ⟨id, h⟩
  · rintro ⟨id, h⟩
    exact ⟨id, lt_size_of_instance? h, h⟩

theorem bound_congr (h : ∀ id, instance? g' id = instance? g id) : bound g' = bound g := by
  have hfun : instance? g' = instance? g := funext h
  unfold bound
  rw [hfun]
  refine filterMap_range_eq (fun k hk => ?_) fun k hk => instance?_eq_none_of_size_le hk
  rw [← hfun]
  exact instance?_eq_none_of_size_le hk

/-- Unbinding one reference takes one instance out of the list. -/
theorem bound_perm_cons (hi : instance? g id = some i) (hid : instance? g' id = none)
    (h : ∀ k, k ≠ id → instance? g' k = instance? g k) : (bound g).Perm (i :: bound g') := by
  have hlt := lt_size_of_instance? hi
  have hb' : bound g' = (List.range g.cells.size).filterMap (instance? g') := by
    refine filterMap_range_eq (fun k hk => instance?_eq_none_of_size_le hk) fun k hk => ?_
    rw [h k fun hk' => absurd hlt (Nat.not_lt.2 (hk' ▸ hk))]
    exact instance?_eq_none_of_size_le hk
  rw [hb']
  exact filterMap_range_perm hlt hi hid h

/-- Where no instance is bound twice, an instance has one holder. -/
theorem holder_unique {r s : NodeId} (hn : (bound g).Nodup) (hr : instance? g r = some i)
    (hs : instance? g s = some i) : r = s := by
  by_contra hne
  have hp : (bound g).Perm (i :: (List.range g.cells.size).filterMap
      fun k => if k = r then none else instance? g k) :=
    filterMap_range_perm (lt_size_of_instance? hr) hr (if_pos rfl) fun j hj => if_neg hj
  refine (List.nodup_cons.1 ((hp.nodup_iff).1 hn)).1 (List.mem_filterMap.2 ⟨s, ?_, ?_⟩)
  · exact List.mem_range.2 (lt_size_of_instance? hs)
  · rw [if_neg (Ne.symm hne)]
    exact hs

/-! ## Activity -/

/-- A node is active when it waits to be fired, or holds an instance with an active node. -/
inductive Active (g : Graph) : NodeId → Prop
  | scheduled {id : NodeId} {n : Node} :
      g.get? id = some n → n.scheduled = true → Active g id
  | inside {id m : NodeId} {i : Instance} :
      instance? g id = some i → m ∈ i.nodes → Active g m → Active g id

/-- Below `id`, references are bound at most `depth` levels deep. -/
def Shallow (g : Graph) : Nat → NodeId → Prop
  | 0, id => instance? g id = none
  | depth + 1, id => ∀ i, instance? g id = some i → ∀ m ∈ i.nodes, Shallow g depth m

theorem shallow_of_unbound (h : instance? g id = none) (depth : Nat) : Shallow g depth id := by
  cases depth with
  | zero => exact h
  | succ depth =>
    intro i hi
    rw [h] at hi
    cases hi

/-- Bindings that go away make no graph deeper. -/
theorem Shallow.anti {depth : Nat} (h : Shallow g depth id)
    (hb : ∀ id i, instance? g' id = some i → instance? g id = some i) : Shallow g' depth id := by
  induction depth generalizing id with
  | zero =>
    cases hi : instance? g' id with
    | none => exact hi
    | some i => exact absurd (hb id i hi) (by rw [show instance? g id = none from h]; simp)
  | succ depth ih => exact fun i hi m hm => ih (h i (hb id i hi) m hm)

theorem activeWithin_iff {depth : Nat} (h : Shallow g depth id) :
    Engine.activeWithin g depth id = true ↔ Active g id := by
  induction depth generalizing id with
  | zero =>
    have h0 : instance? g id = none := h
    rw [Engine.activeWithin]
    constructor
    · intro ha
      cases hn : g.get? id with
      | none => simp [hn] at ha
      | some n => exact .scheduled hn (by simpa [hn] using ha)
    · intro ha
      cases ha with
      | scheduled hn hs => simp [hn, hs]
      | inside hi hm _ => exact absurd (h0.symm.trans hi) (by simp)
  | succ depth ih =>
    rw [Engine.activeWithin]
    cases hn : g.get? id with
    | none =>
      simp only [Bool.false_eq_true, false_iff]
      intro ha
      cases ha with
      | scheduled hn' _ => rw [hn] at hn'; cases hn'
      | inside hi _ _ => rw [instance?_of_get?_none hn] at hi; cases hi
    | some n =>
      have hinst := instance?_of_get? hn
      simp only [Bool.or_eq_true]
      constructor
      · rintro (hs | hs)
        · exact .scheduled hn hs
        · split at hs
          · next k i hb =>
            have hi : instance? g id = some i := by rw [hinst, Node.instance?, hb]; rfl
            obtain ⟨m, hm, ha⟩ := List.any_eq_true.1 hs
            exact .inside hi hm ((ih (h i hi m hm)).1 ha)
          · cases hs
      · intro ha
        cases ha with
        | scheduled hn' hs =>
          rw [hn] at hn'
          cases hn'
          exact .inl hs
        | @inside _ m i hi hm ha =>
          right
          have hb : ∃ k, n.body = .reference k (some i) := by
            rw [hinst, Node.instance?] at hi
            cases hbody : n.body with
            | native l => rw [hbody] at hi; cases hi
            | reference k b => rw [hbody] at hi; exact ⟨k, by rw [show b = some i from hi]⟩
          obtain ⟨k, hb⟩ := hb
          rw [hb]
          exact List.any_eq_true.2 ⟨m, hm, (ih (h i hi m hm)).2 ha⟩

/-! ## Layers -/

/-- Each node of an instance lies one level below the reference that holds the instance. -/
def Layered (g : Graph) : Prop :=
  ∃ level : NodeId → Nat,
    ∀ id i, instance? g id = some i → ∀ m ∈ i.nodes, level m = level id + 1

theorem Layered.anti (h : Layered g)
    (hb : ∀ id i, instance? g' id = some i → instance? g id = some i) : Layered g' := by
  obtain ⟨level, hl⟩ := h
  exact ⟨level, fun id i hi => hl id i (hb id i hi)⟩

/-- How many nodes may lie below a level. -/
def below (g : Graph) (level : NodeId → Nat) (k : Nat) : Nat :=
  (List.range g.cells.size).countP fun m => decide (k < level m)

theorem below_lt {level : NodeId → Nat} {m : NodeId} {k : Nat} (hm : m < g.cells.size)
    (hk : k < level m) : below g level (level m) < below g level k := by
  unfold below
  obtain ⟨l, l', hl⟩ := List.append_of_mem (List.mem_range.2 hm)
  have mono : ∀ l : List NodeId, l.countP (fun x => decide (level m < level x)) ≤
      l.countP fun x => decide (k < level x) := fun l =>
    List.countP_mono_left fun x _ hx => by
      simp only [decide_eq_true_eq] at hx ⊢
      omega
  rw [hl, List.countP_append, List.countP_append, List.countP_cons_of_neg (by simp),
    List.countP_cons_of_pos (by simpa using hk)]
  have h₁ := mono l
  have h₂ := mono l'
  omega

/-- The induction is on the depth; every level that holds a bound reference uses up one of the nodes
counted by `below`. -/
theorem shallow_of_below_lt {level : NodeId → Nat}
    (hl : ∀ id i, instance? g id = some i → ∀ m ∈ i.nodes, level m = level id + 1)
    {depth : Nat} (h : below g level (level id) < depth) : Shallow g depth id := by
  induction depth generalizing id with
  | zero => omega
  | succ depth ih =>
    intro i hi m hm
    cases hm' : instance? g m with
    | none => exact shallow_of_unbound hm' depth
    | some j =>
      have hlevel := hl id i hi m hm
      have hlt : below g level (level m) < below g level (level id) :=
        below_lt (lt_size_of_instance? hm') (by omega)
      exact ih (by omega)

theorem below_le_size (level : NodeId → Nat) (k : Nat) : below g level k ≤ g.cells.size := by
  have h := List.countP_le_length (p := fun m => decide (k < level m))
    (l := List.range g.cells.size)
  rwa [List.length_range] at h

end Graph

namespace Engine

variable {e : Engine}

theorem shallow_depthBound (h : Graph.Layered e.graph) (id : NodeId) :
    Graph.Shallow e.graph e.depthBound id := by
  obtain ⟨level, hl⟩ := h
  refine Graph.shallow_of_below_lt hl ?_
  have := Graph.below_le_size (g := e.graph) level (level id)
  unfold depthBound
  omega

theorem isActive_iff (h : Graph.Layered e.graph) (id : NodeId) :
    e.isActive id = true ↔ Graph.Active e.graph id :=
  Graph.activeWithin_iff (shallow_depthBound h id)

end Engine

end PulseFlow
