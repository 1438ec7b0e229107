import PulseFlow.Proofs.Ownership
import PulseFlow.Proofs.Settling

/-!
# Editing beside running work

An edit puts one prototype in the place of another and frees the instances that were idle.  Nothing
is bound in an idle instance and nothing in it waits, so freeing one is vacating its nodes: nothing
is unbound on the way, and nothing that waits is dropped.  The rest of the engine, with all that is
at work in it, is what it was.

    (∀ m ∈ i.nodes, e.instance? m = none ∧ m ∉ e.pending) →
      e.scrap i = { e.report (.discarded i.id) with
        graph := i.nodes.foldl Slots.vacate e.graph }                       (scrap_of_quiet)
    e.prototype? key = some p → e.Replaces p q heap (e.edit key course).2    (edit_replaces)
-/

namespace PulseFlow

/-- The nodes of the idle instances of a prototype. -/
def Prototype.idleNodes (p : Prototype) : List NodeId := p.pool.flatMap Instance.nodes

theorem Prototype.mem_idleNodes {p : Prototype} {m : NodeId} :
    m ∈ p.idleNodes ↔ ∃ i ∈ p.pool, m ∈ i.nodes := List.mem_flatMap

theorem World.reportAll_eq (w : World) (es : List Event) :
    w.reportAll es = { w with events := (w.reportAll es).events } := by
  induction es generalizing w with
  | nil => rfl
  | cons v es ih => exact ih (w.report v)

namespace Engine

variable {e : Engine} {i : Instance} {id : NodeId} {depth : Nat} {k : Key} {p q : Prototype}

/-! ## Scrapping what is idle -/

theorem foldl_clear_of_unbound {nodes : List NodeId} (h : ∀ m ∈ nodes, e.instance? m = none) :
    nodes.foldl (clear depth) e = { e with graph := nodes.foldl Slots.vacate e.graph } := by
  induction nodes generalizing e with
  | nil => rfl
  | cons m ms ih =>
    have hm : e.instance? m = none := h m List.mem_cons_self
    rw [List.foldl_cons, clear, withdrawBy_of_unbound _ hm]
    refine ih fun j hj => ?_
    show Graph.instance? (e.graph.vacate m) j = none
    rw [Graph.instance?_vacate hm]
    exact h j (List.mem_cons_of_mem m hj)

theorem filter_pending_of_quiet {nodes : List NodeId} (h : ∀ m ∈ nodes, m ∉ e.pending) :
    (e.pending.filter fun id => !nodes.contains id) = e.pending := by
  refine List.filter_eq_self.2 fun m hm => ?_
  rw [Bool.not_eq_true', List.contains_eq_mem, decide_eq_false_iff_not]
  exact fun hn => h m hn hm

/-- An instance in which nothing is bound and nothing waits. -/
theorem scrap_of_quiet (h : ∀ m ∈ i.nodes, e.instance? m = none ∧ m ∉ e.pending) :
    e.scrap i = { e.report (.discarded i.id) with
      graph := i.nodes.foldl Slots.vacate e.graph } := by
  have hclear : i.nodes.foldl (clear e.graph.cells.size) (e.report (.discarded i.id)) =
      { e.report (.discarded i.id) with graph := i.nodes.foldl Slots.vacate e.graph } :=
    foldl_clear_of_unbound fun m hm => (h m hm).1
  have hpending := filter_pending_of_quiet fun m hm => (h m hm).2
  rw [scrap, depthBound, scrapWithin_succ, hclear]
  dsimp only [report]
  rw [hpending]

theorem foldl_scrap_of_quiet {is : List Instance}
    (h : ∀ i ∈ is, ∀ m ∈ i.nodes, e.instance? m = none ∧ m ∉ e.pending) :
    is.foldl scrap e = { e with
      graph := (is.flatMap Instance.nodes).foldl Slots.vacate e.graph
      world := e.world.reportAll (is.map fun i => .discarded i.id) } := by
  induction is generalizing e with
  | nil => rfl
  | cons i is ih =>
    rw [List.foldl_cons, scrap_of_quiet (h i List.mem_cons_self), ih, List.flatMap_cons,
      List.foldl_append]
    · rfl
    · intro j hj m hm
      obtain ⟨hunbound, hwaits⟩ := h j (List.mem_cons_of_mem i hj) m hm
      refine ⟨?_, hwaits⟩
      -- a node that is vacated has nothing bound to it, and the others are what they were
      show (Slots.get? (i.nodes.foldl Slots.vacate e.graph) m).bind Node.instance? = none
      rw [Slots.get?_foldl_vacate]
      split
      · rfl
      · exact hunbound

/-! ## Replacing a prototype -/

/-- The engine `e'` is `e` with prototype `q` in the place of `p`, with another heap, and without
the idle instances of `p`. -/
structure Replaces (e : Engine) (p q : Prototype) (heap : Heap) (e' : Engine) : Prop where
  /-- The other prototypes are what they were, with their pools. -/
  prototypes : ∀ j, e'.prototype? j = if j = p.key then some q else e.prototype? j
  /-- The nodes that are gone are those of the idle instances. -/
  freed : ∀ m, (e.graph.get? m).isSome ∧ e'.graph.get? m = none ↔ m ∈ p.idleNodes
  /-- Their numbers, and no others, are new among those to be handed out again. -/
  vacant : e'.graph.vacant.Perm (p.idleNodes ++ e.graph.vacant)
  /-- All other nodes are what they were. -/
  kept : ∀ m, m ∉ p.idleNodes → e'.graph.get? m = e.graph.get? m
  /-- No node of a caller is gone. -/
  visible : ∀ m, Graph.Visible e.graph m → m ∉ p.idleNodes
  /-- No node of an instance at work is gone. -/
  bound : ∀ id i, e.instance? id = some i → ∀ m ∈ i.nodes, m ∉ p.idleNodes
  /-- No node of an idle instance of another prototype is gone. -/
  pooled : ∀ j r, j ≠ p.key → e.prototype? j = some r → ∀ m ∈ r.idleNodes, m ∉ p.idleNodes
  /-- What waits, what is watched and how many waves were run is as it was, and so is all else but
  the report. -/
  rest : e' = { e with
    graph := e'.graph
    registry := { e.registry with prototypes := e'.registry.prototypes }
    world := { e.world with heap, events := e'.world.events } }

/-- Nothing is bound in an idle instance and nothing in it waits. -/
theorem quiet_of_pool (h : Sound (.rest e)) (hp : e.prototype? k = some p) (hi : i ∈ p.pool) :
    ∀ m ∈ i.nodes, e.instance? m = none ∧ m ∉ e.pending := by
  intro m hm
  have hidle := h.idle k p hp i hi
  refine ⟨hidle.unbound m hm, fun hwaits => ?_⟩
  obtain ⟨n, hn, hs⟩ := (h.coherent.mem_pending_iff m).1 hwaits
  rw [hidle.unscheduled m hm n hn] at hs
  cases hs

theorem pooled_of_idleNodes (hp : e.prototype? k = some p) {m : NodeId} (hm : m ∈ p.idleNodes) :
    e.Pooled m := by
  obtain ⟨i, hi, hm⟩ := Prototype.mem_idleNodes.1 hm
  exact ⟨k, p, i, hp, hi, hm⟩

theorem isSome_of_idleNodes (h : Sound (.rest e)) (hp : e.prototype? k = some p) {m : NodeId}
    (hm : m ∈ p.idleNodes) : (e.graph.get? m).isSome := by
  obtain ⟨i, hi, hm⟩ := Prototype.mem_idleNodes.1 hm
  obtain ⟨n, hn, -⟩ := h.owning.internal_of_mem (Sound.mem_of_pool (w := .rest e) hp hi) hm
  exact Option.isSome_iff_exists.2 ⟨n, hn⟩

theorem nodup_idleNodes (h : Sound (.rest e)) (hp : e.prototype? k = some p) :
    p.idleNodes.Nodup := by
  have hall : (Graph.bound e.graph ++ Prototypes.pooled e.registry.prototypes).flatMap
      Instance.nodes |>.Nodup := h.owning.disjoint
  rw [List.flatMap_append, List.nodup_append] at hall
  have hpools := ((Prototypes.pooled_perm _ k).flatMap_right Instance.nodes).nodup_iff.1 hall.2.1
  rw [Prototypes.poolOf_of_get? hp, List.flatMap_append, List.nodup_append] at hpools
  exact hpools.1

/-- A node lies in an idle instance of one prototype only. -/
theorem idleNodes_unique {j : Key} {r : Prototype} {m : NodeId} (h : Sound (.rest e))
    (hp : e.prototype? k = some p) (hm : m ∈ p.idleNodes) (hr : e.prototype? j = some r)
    (hm' : m ∈ r.idleNodes) : k = j := by
  obtain ⟨i, hi, hm⟩ := Prototype.mem_idleNodes.1 hm
  obtain ⟨i', hi', hm'⟩ := Prototype.mem_idleNodes.1 hm'
  have hii := h.owning.eq_of_mem (Sound.mem_of_pool (w := .rest e) hp hi)
    (Sound.mem_of_pool (w := .rest e) hr hi') hm hm'
  have hall : (Graph.bound e.graph ++ Prototypes.pooled e.registry.prototypes).Nodup :=
    h.nodup_instances
  exact Prototypes.pool_unique (List.nodup_append.1 hall).2.1 hp hi hr (hii ▸ hi')

theorem replaces_of_sound (h : Sound (.rest e)) (hp : e.prototype? k = some p)
    (hkey : q.key = p.key) {w : World}
    (hw : w = { e.world with heap := w.heap, events := w.events }) :
    Replaces e p q w.heap (p.pool.reverse.foldl scrap { e.putPrototype q with world := w }) := by
  have hk : p.key = k := h.named k p hp
  have hquiet : ∀ i ∈ p.pool.reverse, ∀ m ∈ i.nodes, e.instance? m = none ∧ m ∉ e.pending :=
    fun i hi => quiet_of_pool h hp (List.mem_reverse.1 hi)
  have hperm : (p.pool.reverse.flatMap Instance.nodes).Perm p.idleNodes :=
    p.pool.reverse_perm.flatMap_right Instance.nodes
  have hget : ∀ m,
      Slots.get? ((p.pool.reverse.flatMap Instance.nodes).foldl Slots.vacate e.graph) m =
        if m ∈ p.idleNodes then none else e.graph.get? m := by
    intro m
    simp only [Slots.get?_foldl_vacate, hperm.mem_iff]
  rw [foldl_scrap_of_quiet (e := { e.putPrototype q with world := w }) hquiet]
  refine ⟨?_, ?_, ?_, ?_, ?_, ?_, ?_, ?_⟩
  · rw [← hkey]
    exact fun j => Table.get?_insert _ _ _ _
  · intro m
    show _ ∧ Slots.get? (List.foldl Slots.vacate e.graph _) m = none ↔ _
    rw [hget]
    constructor
    · rintro ⟨hlive, hgone⟩
      by_contra hm
      rw [if_neg hm] at hgone
      rw [hgone] at hlive
      cases hlive
    · exact fun hm => ⟨isSome_of_idleNodes h hp hm, if_pos hm⟩
  · show Slots.vacant (List.foldl Slots.vacate e.graph _) |>.Perm _
    rw [Slots.vacant_foldl_vacate]
    · exact ((List.reverse_perm _).trans hperm).append_right _
    · exact hperm.nodup_iff.2 (nodup_idleNodes h hp)
    · exact fun m hm => isSome_of_idleNodes h hp (hperm.mem_iff.1 hm)
  · exact fun m hm => (hget m).trans (if_neg hm)
  · exact fun m hv hm => not_pooled_of_visible h hv (pooled_of_idleNodes hp hm)
  · exact fun id i hi m hmi hm => not_pooled_of_bound h hi hmi (pooled_of_idleNodes hp hm)
  · exact fun j r hj hr m hmr hm => hj ((idleNodes_unique h hp hm hr hmr).symm.trans hk.symm)
  · dsimp only [putPrototype]
    rw [World.reportAll_eq, hw]

/-! ## Editing and clearing -/

/-- Whatever its course, an edit is carried out and gives the answer of the course. -/
theorem edit_replaces {α : Type} (h : Sound (.rest e)) (hp : e.prototype? k = some p)
    (course : Edit α) :
    let made := course.run e.registry ⟨p, e.world.heap⟩
    (e.edit k course).1 = .ok made.1 ∧
      e.Replaces p { made.2.prototype with revision := p.revision + 1, pool := [] } made.2.heap
        (e.edit k course).2 := by
  intro made
  have hdraws : p.Redraws e.registry.prototypes made.2.prototype :=
    course.run_redraws (d := ⟨p, e.world.heap⟩) (h.templates k p hp)
  have hreplaces := replaces_of_sound h hp
    (q := { made.2.prototype with revision := p.revision + 1, pool := [] }) hdraws.key
    (w := { e.world with heap := made.2.heap }.report (.edited k (p.revision + 1) p.pool.length))
    rfl
  rw [edit, editBy, hp]
  exact ⟨rfl, hreplaces⟩

theorem clearPool_replaces (h : Sound (.rest e)) (hp : e.prototype? k = some p) :
    (e.clearPool k).1 = .ok () ∧
      e.Replaces p { p with pool := [] } e.world.heap (e.clearPool k).2 := by
  have hreplaces := replaces_of_sound h hp (q := { p with pool := [] }) rfl
    (w := e.world.report (.cleared k p.pool.length)) rfl
  rw [clearPool, hp]
  exact ⟨rfl, hreplaces⟩

/-- In every engine that commands lead to, a prototype can be edited and its pool can be cleared.
Both replace it: an edit by what the course made of it, which has the same key and placeholders, and
clearing by itself without its pool. -/
theorem replaces_after (settings : Settings) (console : Console) (commands : List Command)
    (key : Key) (p : Prototype)
    (hp : ((fresh settings console).after commands).prototype? key = some p) :
    let e := (fresh settings console).after commands
    (∀ {α : Type} (course : Edit α),
      let made := course.run e.registry ⟨p, e.world.heap⟩
      (e.edit key course).1 = .ok made.1 ∧
        e.Replaces p { made.2.prototype with revision := p.revision + 1, pool := [] } made.2.heap
          (e.edit key course).2 ∧
        (made.2.prototype.key, made.2.prototype.inputs, made.2.prototype.outputs) =
          (p.key, p.inputs, p.outputs) ∧
        e.world.heap.Grows made.2.heap) ∧
      (e.clearPool key).1 = .ok () ∧
      e.Replaces p { p with pool := [] } e.world.heap (e.clearPool key).2 := by
  intro e
  have h : Sound (.rest e) := (settled_after settings console commands).sound
  refine ⟨fun course => ?_, clearPool_replaces h hp⟩
  intro made
  obtain ⟨hanswer, hreplaces⟩ := edit_replaces h hp course
  have hdraws : p.Redraws e.registry.prototypes made.2.prototype :=
    course.run_redraws (d := ⟨p, e.world.heap⟩) (h.templates key p hp)
  have hsteps : Draft.Steps (fun _ => True) e.registry ⟨p, e.world.heap⟩ made.2 :=
    course.run_steps (course.only_of_all (fun _ => trivial) _)
  refine ⟨hanswer, hreplaces, ?_, hsteps.grows⟩
  rw [hdraws.key, hdraws.inputs, hdraws.outputs]

/-- One instance of a template is at work while two of it and one of another are idle. -/
def mixedSession : List Command :=
  [.call (.register doubleKey 1 1 doubleCourse), .call (.register fourfoldKey 1 1 fourfoldCourse),
    .call (.create doubleKey), .call (.create doubleKey), .call (.create fourfoldKey),
    .call (.pulse ⟨0, 0⟩ (.int 1)), .call (.pulse ⟨1, 0⟩ (.int 1)), .call (.pulse ⟨2, 0⟩ (.int 1)),
    .run 9, .call (.pulse ⟨0, 0⟩ (.int 1)), .step]

/-- Takes the one inner node out, and fails to take out a placeholder. -/
def emptyingCourse : Edit (Except Error Draft.Answer) :=
  .act (.remove 2) fun _ => .act (.remove 0) fun answer => .finish answer

theorem replaces_after_mixedSession :
    let e := (fresh {} (.script {})).after mixedSession
    (e.watch, e.pending, e.instance? 0 |>.map Instance.nodes) = ([0], [15], some [13, 14, 15]) ∧
      ∃ p q heap, e.prototype? doubleKey = some p ∧ p.idleNodes = [6, 7, 8, 3, 4, 5] ∧
        e.Replaces p q heap (e.edit doubleKey emptyingCourse).2 ∧
        e.Replaces p { p with pool := [] } e.world.heap (e.clearPool doubleKey).2 := by
  have hidle : (((fresh {} (.script {})).after mixedSession).prototype? doubleKey).map
      Prototype.idleNodes = some [6, 7, 8, 3, 4, 5] := by decide +kernel
  obtain ⟨p, hp, hnodes⟩ := Option.map_eq_some_iff.1 hidle
  obtain ⟨hedit, -, hclear⟩ := replaces_after {} (.script {}) mixedSession doubleKey p hp
  exact ⟨by decide +kernel, p, _, _, hp, hnodes, (hedit emptyingCourse).2.1, hclear⟩

end Engine

end PulseFlow
