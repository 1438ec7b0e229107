import PulseFlow.Proofs.Copies
import PulseFlow.Proofs.Moves

/-!
# Binding a reference

A reference that fires unbound gets an instance from the pool of its prototype, or a new one; the
instance is in hand until its outputs lead where the reference leads and the reference holds it.
Binding never fails in a sound engine, and leaves it sound (`engage_spec`).  Only the pool of one
prototype gets smaller, and the nodes of instances that stay pooled stay as they are (`Flows`).
-/

namespace PulseFlow

namespace Engine

/-- A node of an idle instance. -/
def Pooled (e : Engine) (id : NodeId) : Prop :=
  ∃ k p i, e.prototype? k = some p ∧ i ∈ p.pool ∧ id ∈ i.nodes

/-- What firing may do to an engine, as far as pools go: they get smaller, and the nodes of what
stays pooled are not touched. -/
structure Flows (e e' : Engine) : Prop where
  settings : e'.settings = e.settings
  pool : ∀ k p' i, e'.prototype? k = some p' → i ∈ p'.pool →
    ∃ p, e.prototype? k = some p ∧ i ∈ p.pool
  frozen : ∀ id, e'.Pooled id → e'.graph.get? id = e.graph.get? id

namespace Flows

variable {e e' e'' : Engine} {id : NodeId}

theorem refl (e : Engine) : Flows e e := ⟨rfl, fun _ p _ hp hi => ⟨p, hp, hi⟩, fun _ _ => rfl⟩

theorem pooled (h : Flows e e') (hid : e'.Pooled id) : e.Pooled id := by
  obtain ⟨k, p', i, hp', hi, hm⟩ := hid
  obtain ⟨p, hp, hi⟩ := h.pool k p' i hp' hi
  exact ⟨k, p, i, hp, hi, hm⟩

theorem trans (h : Flows e e') (h' : Flows e' e'') : Flows e e'' where
  settings := h'.settings.trans h.settings
  pool := by
    intro k p'' i hp'' hi
    obtain ⟨p', hp', hi⟩ := h'.pool k p'' i hp'' hi
    exact h.pool k p' i hp' hi
  frozen := fun id hid => (h'.frozen id hid).trans (h.frozen id (h'.pooled hid))

/-- Where the prototypes stay and no pooled node is touched. -/
theorem of_keep (ht : ∀ k, e'.prototype? k = e.prototype? k) (hs : e'.settings = e.settings)
    (hk : ∀ id, ¬ e.Pooled id ∨ e'.graph.get? id = e.graph.get? id) : Flows e e' where
  settings := hs
  pool := fun k p' i hp' hi => ⟨p', by rw [← ht k, hp'], hi⟩
  frozen := by
    intro id hid
    refine (hk id).resolve_left fun hn => hn ?_
    obtain ⟨k, p, i, hp, hi, hm⟩ := hid
    exact ⟨k, p, i, by rw [← ht k, hp], hi, hm⟩

end Flows

end Engine

/-! ## Growing -/

/-- A node that holds nothing and waits for nothing. -/
structure Node.Blank (n : Node) : Prop where
  scheduled : n.scheduled = false
  ready : n.ready = false
  instance? : n.instance? = none

/-- A graph with some nodes more, which are blank and registered. -/
structure Graph.Grows (t : Prototypes) (g g' : Graph) : Prop where
  keep : ∀ k n, g.get? k = some n → g'.get? k = some n
  row : ∀ k n', g'.get? k = some n' →
    g.get? k = some n' ∨ g.get? k = none ∧ n'.Blank ∧ n'.Registered t

namespace Graph.Grows

variable {t : Prototypes} {g g' : Graph} {k : NodeId}

theorem instance? (h : Grows t g g') (k : NodeId) : Graph.instance? g' k = Graph.instance? g k := by
  cases hn' : g'.get? k with
  | none =>
    cases hn : g.get? k with
    | none => rw [instance?_of_get?_none hn', instance?_of_get?_none hn]
    | some n =>
      rw [h.keep k n hn] at hn'
      cases hn'
  | some n' =>
    rcases h.row k n' hn' with hn | ⟨hn, hblank, -⟩
    · rw [instance?_of_get? hn', instance?_of_get? hn]
    · rw [instance?_of_get? hn', instance?_of_get?_none hn]
      exact hblank.instance?

theorem scheduled_iff (h : Grows t g g') (k : NodeId) : Scheduled g' k ↔ Scheduled g k := by
  constructor
  · rintro ⟨n', hn', hs⟩
    rcases h.row k n' hn' with hn | ⟨-, hblank, -⟩
    · exact ⟨n', hn, hs⟩
    · rw [hblank.scheduled] at hs
      cases hs
  · rintro ⟨n, hn, hs⟩
    exact ⟨n, h.keep k n hn, hs⟩

theorem visible (h : Grows t g g') (hv : Visible g k) : Visible g' k := by
  obtain ⟨n, hn, hv⟩ := hv
  exact ⟨n, h.keep k n hn, hv⟩

/-- What was there is as it was. -/
theorem get?_of_internal (h : Grows t g g') (hk : Internal g k) : g'.get? k = g.get? k := by
  obtain ⟨n, hn, -⟩ := hk
  rw [hn]
  exact h.keep k n hn

end Graph.Grows

/-! ## Getting an instance into the hand -/

namespace Sound

variable {e : Engine} {hand : List Instance} {debris stale : List NodeId} {i : Instance}

/-- Taking an instance out of a pool. -/
theorem fetch {p : Prototype} {pool : List Instance} (h : Sound ⟨e, hand, debris, stale⟩)
    (hp : e.prototype? p.key = some p) (hpool : p.pool = i :: pool) :
    Sound ⟨e.putPrototype { p with pool }, i :: hand, debris, stale⟩ := by
  refine h.putPrototype ?_ ?_ ?_ ?_ ?_
  · intro k a ha
    exact (Prototypes.arity?_insert_same (q := { p with pool }) hp rfl rfl k).trans ha
  · show (hand ++ Prototypes.poolOf e.registry.prototypes p.key).Perm (i :: hand ++ pool)
    rw [Prototypes.poolOf_of_get? hp, hpool]
    exact List.perm_middle
  · intro j hj
    have hj' : j ∈ p.pool := by
      rw [hpool]
      exact List.mem_cons_of_mem i hj
    exact (h.idle p.key p hp j hj').of_ports rfl rfl rfl
  · intro c hc
    have hle := h.capacity p.key p hp c hc
    rw [hpool, List.length_cons] at hle
    show pool.length ≤ c
    omega
  · have hmade := h.templates p.key p hp
    exact hmade.of_eq rfl rfl rfl

/-- The connections that were there are in order in a graph that grew, if what is new and visible
leads to visible nodes. -/
theorem wired_of_grows {t : Prototypes} {g' : Graph} (h : Sound ⟨e, hand, debris, stale⟩)
    (hg : Graph.Grows t e.graph g')
    (hv : ∀ x c, g'.get? x = some c → e.graph.get? x = none → c.internal = false →
      c.LeadsTo (Graph.Visible g')) :
    Wired g' (Work.instances ⟨e, hand, debris, stale⟩) := by
  have hown := h.owning
  have hnode : ∀ j ∈ Work.instances ⟨e, hand, debris, stale⟩, ∀ x ∈ j.nodes,
      g'.get? x = e.graph.get? x := fun j hj x hx =>
    hg.get?_of_internal (hown.internal_of_mem hj hx)
  constructor
  · intro x c hc hvis
    rcases hg.row x c hc with hc' | ⟨hnone, -⟩
    · exact (h.wired.visible x c hc' hvis).imp fun y => hg.visible
    · exact hv x c hc hnone hvis
  · intro j hj x hx hnot c hc
    exact h.wired.inner j hj x hx hnot c ((hnode j hj x hx).symm.trans hc)
  · exact h.wired.single
  · intro j hj o ho c hc
    exact h.wired.placeholder j hj o ho c
      ((hnode j hj o (hown.outputs_subset hj ho)).symm.trans hc)
  · intro x c j hc hj
    rcases hg.row x c hc with hc' | ⟨-, hblank, -⟩
    · rw [← h.wired.mirror x c j hc' hj]
      refine List.map_congr_left fun o ho => ?_
      have hjm : j ∈ Work.instances ⟨e, hand, debris, stale⟩ :=
        mem_of_bound (w := ⟨e, hand, debris, stale⟩) (Graph.instance?_eq_some_iff.2 ⟨c, hc', hj⟩)
      rw [Graph.fans?, hnode j hjm o (hown.outputs_subset hjm ho), Graph.fans?]
    · rw [hblank.instance?] at hj
      cases hj

/-- An engine whose graph grew, where the new nodes find their owners and are wired. -/
theorem of_grows {g' : Graph} {world : World} {next : Nat} {hand' : List Instance}
    (h : Sound ⟨e, hand, debris, stale⟩) (hg : Graph.Grows e.registry.prototypes e.graph g')
    (ht : g'.Tidy)
    (ho : Owning g' next
      (hand' ++ (Graph.bound e.graph ++ Prototypes.pooled e.registry.prototypes)) debris)
    (hw : Wired g' (hand' ++ (Graph.bound e.graph ++ Prototypes.pooled e.registry.prototypes))) :
    Sound ⟨{ e with graph := g', world, nextInstance := next }, hand', debris, stale⟩ := by
  have hinst := hg.instance?
  have hins : Work.instances ⟨{ e with graph := g', world, nextInstance := next }, hand', debris,
      stale⟩ = hand' ++ (Graph.bound e.graph ++ Prototypes.pooled e.registry.prototypes) := by
    unfold Work.instances
    rw [Graph.bound_congr hinst]
  have hnode : ∀ j ∈ Work.instances ⟨e, hand, debris, stale⟩, ∀ x ∈ j.nodes,
      g'.get? x = e.graph.get? x := fun j hj x hx =>
    hg.get?_of_internal (h.owning.internal_of_mem hj hx)
  constructor
  · exact ht
  · show Owning g' next _ debris
    rw [hins]
    exact ho
  · exact h.watching.congr hinst
  · exact h.layered.anti fun x j hj => (hinst x).symm.trans hj
  · refine ⟨h.coherent.nodup, fun x hx => ?_, fun x hx => ?_, fun x c hc => ?_⟩
    · exact (h.coherent.scheduled x hx).imp (fun hs => hs) (hg.scheduled_iff x).2
    · exact h.coherent.pending x ((hg.scheduled_iff x).1 hx)
    · rcases hg.row x c hc with hc | ⟨-, hblank, -⟩
      · exact h.coherent.ready x c hc
      · rw [hblank.scheduled, hblank.ready]
  · show Wired g' _
    rw [hins]
    exact hw
  · intro k q hq j hj
    have hjm := mem_of_pool (w := ⟨e, hand, debris, stale⟩) hq hj
    have hidle := h.idle k q hq j hj
    refine ⟨hidle.current, hidle.inputs, hidle.outputs, fun x hx c hc => ?_, fun x hx => ?_,
      fun o ho c hc => ?_⟩
    · exact hidle.unscheduled x hx c ((hnode j hjm x hx).symm.trans hc)
    · exact (hinst x).trans (hidle.unbound x hx)
    · exact hidle.dry o ho c ((hnode j hjm o (h.owning.outputs_subset hjm ho)).symm.trans hc)
  · exact h.capacity
  · intro x c hc
    rcases hg.row x c hc with hc | ⟨-, -, hreg⟩
    · exact h.registered x c hc
    · exact hreg
  · intro x c j hc hj
    rcases hg.row x c hc with hc | ⟨-, hblank, -⟩
    · exact h.fitting x c j hc hj
    · rw [hblank.instance?] at hj
      cases hj
  · exact h.named
  · exact h.templates

end Sound

namespace Prototype.Made

variable {p : Prototype} {g g' : Graph} {i : Instance} {x : NodeId}

theorem not_mem_of_get? (hm : p.Made g g' i) {n : Node} (hn : g.get? x = some n) :
    x ∉ i.nodes := by
  intro hx
  rw [hm.fresh x hx] at hn
  cases hn

/-- The nodes made are internal and lead to one another. -/
theorem closed (hm : p.Made g g' i) (hx : x ∈ i.nodes) :
    ∃ c, g'.get? x = some c ∧ c.internal = true ∧ c.LeadsTo (· ∈ i.nodes) := by
  obtain ⟨_, _, c, -, hc, hcopy, hleads⟩ := hm.copy x hx
  exact ⟨c, hc, hcopy.internal, hleads⟩

theorem grows {t : Prototypes} (hm : p.Made g g' i) (hp : p.WellMade t) :
    Graph.Grows t g g' := by
  constructor
  · exact fun x n hn => (hm.keep x (hm.not_mem_of_get? hn)).trans hn
  · intro x c hc
    by_cases hx : x ∈ i.nodes
    · obtain ⟨old, n, c', hn, hc', hcopy, -⟩ := hm.copy x hx
      have hcc : c' = c := Option.some.inj (hc'.symm.trans hc)
      subst hcc
      exact .inr ⟨hm.fresh x hx, ⟨hcopy.scheduled, hcopy.ready, hcopy.instance?⟩,
        hcopy.registered (hp.registered old n hn)⟩
    · exact .inl ((hm.keep x hx).symm.trans hc)

theorem internal_iff (hm : p.Made g g' i) (x : NodeId) :
    Graph.Internal g' x ↔ x ∈ i.nodes ∨ Graph.Internal g x := by
  by_cases hx : x ∈ i.nodes
  · obtain ⟨c, hc, hint, -⟩ := hm.closed hx
    exact ⟨fun _ => .inl hx, fun _ => ⟨c, hc, hint⟩⟩
  · unfold Graph.Internal
    rw [hm.keep x hx]
    exact ⟨.inr, fun h => h.resolve_left hx⟩

/-- What is made has the next number and nodes of its own. -/
theorem owning {next : Nat} {is : List Instance} {debris : List NodeId} (hm : p.Made g g' i)
    (h : Owning g next is debris) (hid : i.id = next) :
    Owning g' (next + 1) (i :: is) debris where
  numbered := by
    intro j hj
    rcases List.mem_cons.1 hj with rfl | hj
    · omega
    · have := h.numbered j hj
      omega
  distinct := by
    refine List.nodup_cons.2 ⟨fun hmem => ?_, h.distinct⟩
    obtain ⟨j, hj, hji⟩ := List.mem_map.1 hmem
    have := h.numbered j hj
    omega
  disjoint := by
    rw [List.flatMap_cons]
    refine List.Perm.nodup_iff (List.perm_append_comm_assoc _ _ _) |>.2 ?_
    refine List.nodup_append.2 ⟨hm.nodup, h.disjoint, fun x hx y hy hxy => ?_⟩
    obtain ⟨n, hn, -⟩ := (h.internal y).1 hy
    exact hm.not_mem_of_get? hn (hxy ▸ hx)
  internal := by
    intro x
    rw [List.flatMap_cons, hm.internal_iff, ← h.internal]
    exact (List.perm_append_comm_assoc _ _ _).mem_iff.trans List.mem_append
  boundary := by
    intro j hj
    rcases List.mem_cons.1 hj with rfl | hj
    · exact hm.boundary
    · exact h.boundary j hj

/-- No node made is visible. -/
theorem internal_of_new (hm : p.Made g g' i) {c : Node} (hc : g'.get? x = some c)
    (hnone : g.get? x = none) : c.internal = true := by
  have hx : x ∈ i.nodes := by
    by_contra hx
    rw [hm.keep x hx, hnone] at hc
    cases hc
  obtain ⟨c', hc', hint, -⟩ := hm.closed hx
  rw [hc] at hc'
  cases hc'
  exact hint

theorem wired {is : List Instance} (hm : p.Made g g' i) (h : Wired g' is) :
    Wired g' (i :: is) where
  visible := h.visible
  inner := by
    intro j hj x hx hnot c hc
    rcases List.mem_cons.1 hj with rfl | hj
    · obtain ⟨c', hc', -, hleads⟩ := hm.closed hx
      rw [hc] at hc'
      cases hc'
      exact hleads
    · exact h.inner j hj x hx hnot c hc
  single := by
    intro j hj
    rcases List.mem_cons.1 hj with rfl | hj
    · exact hm.single
    · exact h.single j hj
  placeholder := by
    intro j hj
    rcases List.mem_cons.1 hj with rfl | hj
    · exact hm.placeholder
    · exact h.placeholder j hj
  mirror := h.mirror

end Prototype.Made

/-- Making a new instance. -/
theorem Sound.make {e : Engine} {hand : List Instance} {debris stale : List NodeId} {i : Instance}
    {p : Prototype} {k : Key} {g' : Graph} {world : World}
    (h : Sound ⟨e, hand, debris, stale⟩) (hp : e.prototype? k = some p)
    (hm : p.Made e.graph g' i) (hid : i.id = e.nextInstance) :
    Sound ⟨{ e with graph := g', world, nextInstance := e.nextInstance + 1 }, i :: hand, debris,
      stale⟩ := by
  have hgrows := hm.grows (h.templates k p hp)
  refine h.of_grows hgrows hm.tidy (hm.owning h.owning hid) (hm.wired ?_)
  refine h.wired_of_grows hgrows fun x c hc hnone hv => ?_
  rw [hm.internal_of_new hc hnone] at hv
  cases hv

/-! ## Leading its outputs where the reference leads -/

namespace Graph

variable {g : Graph}

theorem refans_route (g : Graph) (outputs : List NodeId) (fans : List Fan) :
    Refans outputs g (Engine.route g outputs fans) := by
  induction outputs generalizing g fans with
  | nil => exact fun k => .inl rfl
  | cons o os ih =>
    cases fans with
    | nil => exact fun k => .inl rfl
    | cons f fs =>
      intro k
      show (Engine.route (g.modify o fun n => n.modifyFan 0 fun _ => f) os fs).get? k = _ ∨ _
      have hmod := Slots.get?_modify g o k fun n => n.modifyFan 0 fun _ => f
      rcases ih (g.modify o fun n => n.modifyFan 0 fun _ => f) fs k with hk | ⟨hk, f', hf'⟩
      · rw [hmod] at hk
        by_cases ho : o = k
        · rw [if_pos ho] at hk
          exact .inr ⟨ho ▸ List.mem_cons_self, f, hk⟩
        · rw [if_neg ho] at hk
          exact .inl hk
      · refine .inr ⟨List.mem_cons_of_mem o hk, f', ?_⟩
        rw [hmod] at hf'
        by_cases ho : o = k
        · rw [if_pos ho, Option.map_map] at hf'
          refine hf'.trans ?_
          congr 1
          funext n
          exact n.modifyFan_modifyFan 0 f f'
        · rw [if_neg ho] at hf'
          exact hf'

theorem tidy_route (h : g.Tidy) (outputs : List NodeId) (fans : List Fan) :
    (Engine.route g outputs fans).Tidy := by
  unfold Engine.route
  generalize outputs.zip fans = l
  induction l generalizing g with
  | nil => exact h
  | cons q l ih => exact ih (Slots.tidy_modify h q.1 _)

/-- Placeholders led along fans lead there. -/
theorem map_fans?_route {outputs : List NodeId} {fans : List Fan} (hn : outputs.Nodup)
    (hl : outputs.length = fans.length)
    (hp : ∀ o ∈ outputs, ∃ n, g.get? o = some n ∧ n.outputs.length = 1) :
    outputs.map (fans? (Engine.route g outputs fans)) = fans.map fun f => some [f] := by
  induction outputs generalizing g fans with
  | nil =>
    cases fans with
    | nil => rfl
    | cons f fs => cases hl
  | cons o os ih =>
    cases fans with
    | nil => cases hl
    | cons f fs =>
      obtain ⟨ho, hos⟩ := List.nodup_cons.1 hn
      obtain ⟨n, hget, hone⟩ := hp o List.mem_cons_self
      have hself : (g.modify o fun n => n.modifyFan 0 fun _ => f).get? o =
          some (n.modifyFan 0 fun _ => f) := by
        rw [Slots.get?_modify, if_pos rfl, hget, Option.map_some]
      have hhead : fans? (Engine.route (g.modify o fun n => n.modifyFan 0 fun _ => f) os fs) o =
          some [f] := by
        rw [fans?, (refans_route _ os fs).keep ho, hself, Option.map_some,
          Node.outputs_modifyFan_zero hone]
      have hrest : ∀ x ∈ os, ∃ n, (g.modify o fun n => n.modifyFan 0 fun _ => f).get? x = some n ∧
          n.outputs.length = 1 := by
        intro x hx
        obtain ⟨m, hm, hone'⟩ := hp x (List.mem_cons_of_mem o hx)
        have hne : o ≠ x := fun he => ho (he ▸ hx)
        exact ⟨m, by rw [Slots.get?_modify, if_neg hne, hm], hone'⟩
      show fans? _ o :: os.map _ = some [f] :: fs.map _
      rw [← ih hos (Nat.succ.inj hl) hrest]
      exact congrArg (· :: _) hhead

/-! ## Handing the instance over -/

/-- The graph with reference `id` bound to an instance. -/
def handOver (g : Graph) (id : NodeId) (i : Instance) : Graph :=
  g.modify id fun n => n.bind (some i)

/-- A node is as it was or holds the instance. -/
theorem row_handOver {id x : NodeId} {i : Instance} {n' : Node}
    (h : (handOver g id i).get? x = some n') :
    ∃ n, g.get? x = some n ∧ (x ≠ id ∧ n' = n ∨ x = id ∧ n' = n.bind (some i)) := by
  rw [handOver, Slots.get?_modify] at h
  by_cases hx : id = x
  · rw [if_pos hx, Option.map_eq_some_iff] at h
    obtain ⟨n, hn, rfl⟩ := h
    exact ⟨n, hn, .inr ⟨hx.symm, rfl⟩⟩
  · rw [if_neg hx] at h
    exact ⟨n', h, .inl ⟨Ne.symm hx, rfl⟩⟩

/-- Binding touches nothing but the body of the reference. -/
theorem same_handOver {id x : NodeId} {i : Instance} {n' : Node}
    (h : (handOver g id i).get? x = some n') :
    ∃ n, g.get? x = some n ∧ n'.inputs = n.inputs ∧ n'.outputs = n.outputs ∧
      n'.scheduled = n.scheduled := by
  obtain ⟨n, hn, ⟨-, rfl⟩ | ⟨-, rfl⟩⟩ := row_handOver h
  · exact ⟨n', hn, rfl, rfl, rfl⟩
  · exact ⟨n, hn, by simp, by simp, by simp⟩

/-- What can be said of a node without its body is said of it before and after. -/
theorem exists_handOver_iff {P : Node → Prop} {i : Instance}
    (hP : ∀ n : Node, P (n.bind (some i)) ↔ P n) (g : Graph) (id x : NodeId) :
    (∃ n, (handOver g id i).get? x = some n ∧ P n) ↔ ∃ n, g.get? x = some n ∧ P n := by
  rw [handOver, Slots.get?_modify]
  by_cases hx : id = x
  · rw [if_pos hx]
    cases g.get? x with
    | none => rfl
    | some n => simp [hP]
  · rw [if_neg hx]

theorem internal_handOver (g : Graph) (id : NodeId) (i : Instance) (x : NodeId) :
    Internal (handOver g id i) x ↔ Internal g x :=
  exists_handOver_iff (fun n => by rw [Node.internal_bind]) g id x

theorem visible_handOver (g : Graph) (id : NodeId) (i : Instance) (x : NodeId) :
    Visible (handOver g id i) x ↔ Visible g x :=
  exists_handOver_iff (fun n => by rw [Node.internal_bind]) g id x

theorem scheduled_handOver (g : Graph) (id : NodeId) (i : Instance) (x : NodeId) :
    Scheduled (handOver g id i) x ↔ Scheduled g x :=
  exists_handOver_iff (fun n => by rw [Node.scheduled_bind]) g id x

theorem fans?_handOver (g : Graph) (id : NodeId) (i : Instance) (x : NodeId) :
    fans? (handOver g id i) x = fans? g x := by
  rw [fans?, handOver, Slots.get?_modify, fans?]
  split
  · cases g.get? x <;> simp
  · rfl

theorem instance?_handOver {id : NodeId} {n : Node} {k : Key} (hn : g.get? id = some n)
    (hb : n.body = .reference k none) (i : Instance) (x : NodeId) :
    instance? (handOver g id i) x = if x = id then some i else instance? g x := by
  rw [instance?, handOver, Slots.get?_modify]
  by_cases hx : id = x
  · subst hx
    rw [if_pos rfl, if_pos rfl, hn, Option.map_some]
    exact Node.instance?_bind_of_reference hb (some i)
  · rw [if_neg hx, if_neg (Ne.symm hx), instance?]

/-- The nodes of the instance go one level below the reference. -/
theorem Layered.handOver {id : NodeId} {i : Instance} (h : Layered g)
    (hinst : ∀ x, instance? (Graph.handOver g id i) x = if x = id then some i else instance? g x)
    (hid : id ∉ i.nodes) (hunbound : ∀ m ∈ i.nodes, instance? g m = none)
    (hapart : ∀ x j, instance? g x = some j → ∀ m ∈ j.nodes, m ∉ i.nodes) :
    Layered (Graph.handOver g id i) := by
  obtain ⟨level, hlevel⟩ := h
  refine ⟨fun x => if x ∈ i.nodes then level id + 1 else level x, fun x j hj m hm => ?_⟩
  rw [hinst] at hj
  by_cases hx : x = id
  · rw [if_pos hx] at hj
    cases hj
    dsimp only
    rw [if_pos hm, hx, if_neg hid]
  · rw [if_neg hx] at hj
    have hxi : x ∉ i.nodes := by
      intro hxi
      rw [hunbound x hxi] at hj
      cases hj
    dsimp only
    rw [if_neg (hapart x j hj m hm), if_neg hxi]
    exact hlevel x j hj m hm

end Graph

section HandOver

variable {g : Graph} {id : NodeId} {i : Instance}

theorem Watching.handOver {watch : List NodeId} (h : Watching g watch)
    (hinst : ∀ x, Graph.instance? (Graph.handOver g id i) x =
      if x = id then some i else Graph.instance? g x)
    (hself : Graph.instance? g id = none) : Watching (Graph.handOver g id i) (watch ++ [id]) := by
  have hnot : id ∉ watch := by
    rw [h.mem_iff, hself]
    simp
  refine ⟨List.nodup_append.2 ⟨h.nodup, List.nodup_singleton id, ?_⟩, fun x => ?_⟩
  · rintro a ha b hb rfl
    exact hnot (List.mem_singleton.1 hb ▸ ha)
  · rw [List.mem_append, List.mem_singleton, h.mem_iff, hinst]
    by_cases hx : x = id
    · simp [hx]
    · simp [hx]

theorem Coherent.handOver {pending stale : List NodeId} (h : Coherent g pending stale) :
    Coherent (Graph.handOver g id i) pending stale where
  nodup := h.nodup
  scheduled := fun x hx =>
    (h.scheduled x hx).imp (fun hs => hs) (Graph.scheduled_handOver g id i x).2
  pending := fun x hx => h.pending x ((Graph.scheduled_handOver g id i x).1 hx)
  ready := by
    intro x n' hn'
    obtain ⟨m, hm, hins, -, hsched⟩ := Graph.same_handOver hn'
    rw [hsched, Node.ready, hins]
    exact h.ready x m hm

theorem Wired.handOver {is is' : List Instance} {n : Node} {k : Key} (h : Wired g is)
    (his : ∀ j ∈ is', j ∈ is) (hn : g.get? id = some n) (hb : n.body = .reference k none)
    (hmirror : i.outputs.map (Graph.fans? g) = n.outputs.map fun f => some [f]) :
    Wired (Graph.handOver g id i) is' := by
  have hnode : ∀ {m}, g.get? id = some m → m = n := fun hm => Option.some.inj (hm.symm.trans hn)
  constructor
  · intro x n' hn' hv
    obtain ⟨m, hm, hmv⟩ := (Graph.visible_handOver g id i x).1 ⟨n', hn', hv⟩
    obtain ⟨m', hm', -, hout, -⟩ := Graph.same_handOver hn'
    rw [hm] at hm'
    cases hm'
    refine ((h.visible x m hm hmv).imp fun y => ?_).of_outputs_eq hout
    exact (Graph.visible_handOver g id i y).2
  · intro j hj x hx hnot n' hn'
    obtain ⟨m, hm, -, hout, -⟩ := Graph.same_handOver hn'
    exact (h.inner j (his j hj) x hx hnot m hm).of_outputs_eq hout
  · exact fun j hj => h.single j (his j hj)
  · intro j hj o ho n' hn'
    obtain ⟨m, hm, ⟨-, rfl⟩ | ⟨rfl, rfl⟩⟩ := Graph.row_handOver hn'
    · exact h.placeholder j (his j hj) o ho n' hm
    · -- a reference is no placeholder
      obtain ⟨⟨l, hl⟩, -⟩ := h.placeholder j (his j hj) o ho m hm
      rw [hnode hm, hb] at hl
      cases hl
  · intro x n' j hn' hj
    have hfans : j.outputs.map (Graph.fans? (Graph.handOver g id i)) =
        j.outputs.map (Graph.fans? g) :=
      List.map_congr_left fun o _ => Graph.fans?_handOver g id i o
    rw [hfans]
    obtain ⟨m, hm, ⟨-, rfl⟩ | ⟨rfl, rfl⟩⟩ := Graph.row_handOver hn'
    · exact h.mirror x n' j hm hj
    · cases hnode hm
      rw [Node.instance?_bind_of_reference hb] at hj
      cases hj
      rw [Node.outputs_bind]
      exact hmirror

theorem Idle.handOver {p : Prototype} {j : Instance} (h : Idle g p j)
    (hinst : ∀ x, Graph.instance? (Graph.handOver g id i) x =
      if x = id then some i else Graph.instance? g x)
    (hid : id ∉ j.nodes) : Idle (Graph.handOver g id i) p j where
  current := h.current
  inputs := h.inputs
  outputs := h.outputs
  unscheduled := by
    intro x hx n' hn'
    obtain ⟨m, hm, -, -, hsched⟩ := Graph.same_handOver hn'
    rw [hsched]
    exact h.unscheduled x hx m hm
  unbound := by
    intro x hx
    have hne : x ≠ id := fun he => hid (he ▸ hx)
    rw [hinst, if_neg hne]
    exact h.unbound x hx
  dry := by
    intro o ho n' hn'
    obtain ⟨m, hm, -, hout, -⟩ := Graph.same_handOver hn'
    rw [hout]
    exact h.dry o ho m hm

end HandOver

namespace Sound

variable {e : Engine} {hand : List Instance} {debris stale : List NodeId} {i : Instance}
  {id : NodeId} {n : Node} {k : Key}

/-- Binding a reference to an instance in hand whose outputs already lead where it leads. -/
theorem give (h : Sound ⟨e, i :: hand, debris, stale⟩) (hn : e.graph.get? id = some n)
    (hb : n.body = .reference k none) (hfit : i.inputs.length = n.inputs.length)
    (hmirror : i.outputs.map (Graph.fans? e.graph) = n.outputs.map fun f => some [f])
    (hunbound : ∀ m ∈ i.nodes, e.instance? m = none) (hid : id ∉ i.nodes)
    (hfree : ¬ e.Pooled id) :
    Sound ⟨{ e with graph := Graph.handOver e.graph id i, watch := e.watch ++ [id] }, hand, debris,
      stale⟩ := by
  have hself : Graph.instance? e.graph id = none := by
    rw [Graph.instance?_of_get? hn, Node.instance?_of_reference hb]
  have hinst := Graph.instance?_handOver hn hb i
  have hperm : (Work.instances ⟨e, i :: hand, debris, stale⟩).Perm (Work.instances
      ⟨{ e with graph := Graph.handOver e.graph id i, watch := e.watch ++ [id] }, hand, debris,
        stale⟩) := by
    have hbound : (Graph.bound (Graph.handOver e.graph id i)).Perm (i :: Graph.bound e.graph) :=
      Graph.bound_perm_cons (by rw [hinst, if_pos rfl]) hself fun x hx => by rw [hinst, if_neg hx]
    unfold Work.instances
    exact List.perm_middle.symm.trans ((hbound.symm.append_right _).append_left hand)
  -- bound instances have no nodes in common with one in hand
  have hapart : ∀ x j, Graph.instance? e.graph x = some j → ∀ m ∈ j.nodes, m ∉ i.nodes := by
    intro x j hj m hm hmi
    have hij := h.owning.eq_of_mem (mem_of_hand List.mem_cons_self) (mem_of_bound hj) hmi hm
    exact h.not_bound_of_hand List.mem_cons_self (hij ▸ hj)
  constructor
  · exact Slots.tidy_modify h.tidy id _
  · exact (h.owning.perm hperm).of_internal_iff (Graph.internal_handOver e.graph id i)
  · exact h.watching.handOver hinst hself
  · exact h.layered.handOver hinst hid hunbound hapart
  · exact h.coherent.handOver
  · exact h.wired.handOver (fun j hj => hperm.mem_iff.2 hj) hn hb hmirror
  · intro k' q hq j hj
    exact (h.idle k' q hq j hj).handOver hinst fun hm => hfree ⟨k', q, j, hq, hj, hm⟩
  · exact h.capacity
  · intro x n' hn'
    obtain ⟨m, hm, ⟨-, rfl⟩ | ⟨-, rfl⟩⟩ := Graph.row_handOver hn'
    · exact h.registered x n' hm
    · exact Node.registered_bind (h.registered x m hm) (some i)
  · intro x n' j hn' hj
    obtain ⟨m, hm, ⟨-, rfl⟩ | ⟨rfl, rfl⟩⟩ := Graph.row_handOver hn'
    · exact h.fitting x n' j hm hj
    · have hmn : m = n := Option.some.inj (hm.symm.trans hn)
      subst hmn
      rw [Node.instance?_bind_of_reference hb] at hj
      cases hj
      rw [Node.inputs_bind]
      exact hfit
  · exact h.named
  · exact h.templates

end Sound

/-! ## The whole binding -/

namespace Engine

variable {e : Engine} {id : NodeId} {n : Node} {k : Key} {p : Prototype}

/-- A node of an idle instance is in the graph. -/
theorem Pooled.live (h : Sound (.rest e)) (hid : e.Pooled id) : ∃ n, e.graph.get? id = some n := by
  obtain ⟨k, p, i, hp, hi, hm⟩ := hid
  obtain ⟨n, hn, -⟩ := h.owning.internal_of_mem (Sound.mem_of_pool (w := .rest e) hp hi) hm
  exact ⟨n, hn⟩

/-- An instance in hand that was got for a reference to `p`. -/
structure Acquired (e e' : Engine) (p : Prototype) (i : Instance) : Prop where
  sound : Sound ⟨e', [i], [], []⟩
  flows : Flows e e'
  inputs : i.inputs.length = p.inputs.length
  outputs : i.outputs.length = p.outputs.length
  unbound : ∀ m ∈ i.nodes, e'.instance? m = none
  origin : ∀ m ∈ i.nodes, e.Pooled m ∨ e.graph.get? m = none
  keep : ∀ x n, e.graph.get? x = some n → e'.graph.get? x = some n

theorem acquire_spec (h : Sound (.rest e)) (hp : e.prototype? k = some p) :
    Acquired e (e.acquire id p).2 p (e.acquire id p).1 := by
  have hkey : p.key = k := h.named k p hp
  subst hkey
  unfold acquire
  cases hpool : p.pool with
  | cons i pool =>
    have hi : i ∈ p.pool := by
      rw [hpool]
      exact List.mem_cons_self
    have hidle := h.idle p.key p hp i hi
    refine ⟨(h.fetch hp hpool).of_eq rfl rfl rfl rfl rfl rfl, ⟨rfl, ?_, fun _ _ => rfl⟩,
      hidle.inputs, hidle.outputs, hidle.unbound, fun m hm => .inl ⟨p.key, p, i, hp, hi, hm⟩,
      fun _ _ hx => hx⟩
    intro k' p' j hp' hj
    have ht : (e.registry.prototypes.insert p.key { p with pool }).get? k' = some p' := hp'
    rw [Table.get?_insert] at ht
    split at ht
    · next hk =>
      cases ht
      exact ⟨p, hk ▸ hp, by rw [hpool]; exact List.mem_cons_of_mem i hj⟩
    · exact ⟨p', ht, hj⟩
  | nil =>
    have hmade : p.Made e.graph (p.instantiate e.nextInstance e.graph e.world.heap).2.1
        (p.instantiate e.nextInstance e.graph e.world.heap).1 :=
      Prototype.instantiate_made h.tidy (h.templates p.key p hp) e.nextInstance e.world.heap
    have hnum : (p.instantiate e.nextInstance e.graph e.world.heap).1.id = e.nextInstance := rfl
    dsimp only
    generalize p.instantiate e.nextInstance e.graph e.world.heap = result at hmade hnum ⊢
    obtain ⟨i, g', heap⟩ := result
    have hkeep : ∀ x n, e.graph.get? x = some n → g'.get? x = some n := by
      intro x n hn
      refine (hmade.keep x fun hx => ?_).trans hn
      rw [hmade.fresh x hx] at hn
      cases hn
    refine ⟨(h.make hp hmade hnum).of_eq rfl rfl rfl rfl rfl rfl,
      .of_keep (fun _ => rfl) rfl fun x => ?_, hmade.inputs, hmade.outputs, fun m hm => ?_,
      fun m hm => .inr (hmade.fresh m hm), hkeep⟩
    · by_cases hx : e.Pooled x
      · obtain ⟨n, hn⟩ := hx.live h
        exact .inr ((hkeep x n hn).trans hn.symm)
      · exact .inl hx
    · obtain ⟨old, m', c, -, hc, hcopy, -⟩ := hmade.copy m hm
      exact (Graph.instance?_of_get? hc).trans hcopy.instance?

/-- A reference that is not itself idle can be bound. -/
theorem engage_spec (h : Sound (.rest e)) (hn : e.graph.get? id = some n)
    (hb : n.body = .reference k none) (hfree : ¬ e.Pooled id) :
    ∃ e', e.engage id = .ok e' ∧ Sound (.rest e') ∧ Flows e e' := by
  have harity := h.registered id n hn k none hb
  obtain ⟨p, hp, hports⟩ := Option.map_eq_some_iff.1 harity
  obtain ⟨hins, houts⟩ := Prod.mk.inj hports
  have hacq : Acquired e (e.acquire id p).2 p (e.acquire id p).1 := acquire_spec h hp
  have hengage : e.engage id = .ok { (e.acquire id p).2 with
      graph := (route (e.acquire id p).2.graph (e.acquire id p).1.outputs n.outputs).modify id
        fun n => n.bind (some (e.acquire id p).1)
      watch := (e.acquire id p).2.watch ++ [id] } := by
    unfold engage
    simp only [hn, hb, show e.prototype? k = some p from hp]
  refine ⟨_, hengage, ?_⟩
  generalize e.acquire id p = result at hacq
  obtain ⟨i, e₁⟩ := result
  dsimp only at hacq ⊢
  have hn₁ : e₁.graph.get? id = some n := hacq.keep id n hn
  have hid : id ∉ i.nodes := by
    intro hm
    rcases hacq.origin id hm with hpool | hnone
    · exact hfree hpool
    · rw [hn] at hnone
      cases hnone
  have hhand : i ∈ [i] := List.mem_singleton.2 rfl
  have hmem : i ∈ Work.instances ⟨e₁, [i], [], []⟩ := Sound.mem_of_hand hhand
  have hid' : id ∉ i.outputs := fun ho => hid (hacq.sound.owning.outputs_subset hmem ho)
  -- led where the reference leads
  have hrefans := Graph.refans_route e₁.graph i.outputs n.outputs
  have hsound₂ := hacq.sound.refan hhand hrefans (Graph.tidy_route hacq.sound.tidy _ _)
  have hmirror := Graph.map_fans?_route (g := e₁.graph) (hacq.sound.wired.single i hmem)
    (hacq.outputs.trans houts) fun o ho => by
      obtain ⟨c, hc, -⟩ := hacq.sound.owning.internal_of_mem hmem
        (hacq.sound.owning.outputs_subset hmem ho)
      exact ⟨c, hc, (hacq.sound.wired.placeholder i hmem o ho c hc).2⟩
  have hnot : ∀ x, e₁.Pooled x → x ∉ i.nodes := by
    rintro x ⟨k', q, j, hq, hj, hx⟩ hxi
    have hij := hacq.sound.owning.eq_of_mem hmem (Sound.mem_of_pool hq hj) hxi hx
    exact hacq.sound.not_pooled_of_hand hhand hq (hij ▸ hj)
  refine ⟨?_, hacq.flows.trans (.of_keep (fun _ => rfl) rfl fun x => ?_)⟩
  · refine hsound₂.give ((hrefans.keep hid').trans hn₁) hb (hacq.inputs.trans hins) hmirror
      (fun m hm => (hrefans.instance? m).trans (hacq.unbound m hm)) hid fun hpool => ?_
    exact hfree (hacq.flows.pooled hpool)
  · by_cases hx : e₁.Pooled x
    · have hne : id ≠ x := fun he => hfree (hacq.flows.pooled (he ▸ hx))
      have hxo : x ∉ i.outputs := fun ho =>
        hnot x hx (hacq.sound.owning.outputs_subset hmem ho)
      refine .inr ?_
      show Slots.get? (Slots.modify _ id _) x = _
      rw [Slots.get?_modify, if_neg hne, hrefans.keep hxo]
    · exact .inl hx

end Engine

end PulseFlow
