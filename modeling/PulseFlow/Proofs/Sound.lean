import Mathlib.Data.List.Pairwise
import PulseFlow.Engine.Instances
import PulseFlow.Proofs.Bindings
import PulseFlow.Proofs.Nodes

/-!
# Sound engines

What holds of an engine at every moment of its work.  In the middle of a call an instance may be
held by nothing, and an instance that is broken up has nodes that are still to be freed, so the
statement is about an engine together with these (`Work`).  An engine at rest has none of them.

* `Owning`: the instances have different numbers, and their nodes are exactly the internal nodes of
  the graph, each in one instance and once.
* `Watching`: the watched nodes are the bound references, each once.
* `Coherent`: the pending nodes are the scheduled ones, and these are the ones that are ready.
* `Wired`: connections stay inside an instance or among visible nodes, and the outputs of a bound
  instance lead where its reference leads.
* `Idle`: a pooled instance has nothing scheduled, nothing bound, and leads nowhere.
-/

namespace PulseFlow

/-! ## Graphs -/

namespace Graph

/-- A node of the graph that belongs to an instance. -/
def Internal (g : Graph) (id : NodeId) : Prop := ∃ n, g.get? id = some n ∧ n.internal = true

/-- A node of the graph that callers may name. -/
def Visible (g : Graph) (id : NodeId) : Prop := ∃ n, g.get? id = some n ∧ n.internal = false

/-- A node of the graph that waits to be fired. -/
def Scheduled (g : Graph) (id : NodeId) : Prop := ∃ n, g.get? id = some n ∧ n.scheduled = true

/-- The fans of a node, port by port. -/
def fans? (g : Graph) (id : NodeId) : Option (List Fan) := (g.get? id).map Node.outputs

theorem fans?_of_get? {g : Graph} {id : NodeId} {n : Node} (h : g.get? id = some n) :
    fans? g id = some n.outputs := by
  rw [fans?, h, Option.map_some]

theorem not_visible_of_internal {g : Graph} {id : NodeId} (h : Internal g id) : ¬ Visible g id := by
  obtain ⟨n, hn, hi⟩ := h
  rintro ⟨m, hm, hv⟩
  rw [hn] at hm
  cases hm
  rw [hi] at hv
  cases hv

end Graph

/-! ## The parts of soundness -/

structure Owning (g : Graph) (next : Nat) (is : List Instance) (debris : List NodeId) : Prop where
  numbered : ∀ i ∈ is, i.id < next
  distinct : (is.map Instance.id).Nodup
  disjoint : (debris ++ is.flatMap Instance.nodes).Nodup
  internal : ∀ id, id ∈ debris ++ is.flatMap Instance.nodes ↔ Graph.Internal g id
  boundary : ∀ i ∈ is, ∀ id, id ∈ i.inputs ∨ id ∈ i.outputs → id ∈ i.nodes

structure Watching (g : Graph) (watch : List NodeId) : Prop where
  nodup : watch.Nodup
  mem_iff : ∀ id, id ∈ watch ↔ ∃ i, Graph.instance? g id = some i

/-- Pending entries of nodes in `stale` may be left over. -/
structure Coherent (g : Graph) (pending stale : List NodeId) : Prop where
  nodup : pending.Nodup
  scheduled : ∀ id ∈ pending, id ∈ stale ∨ Graph.Scheduled g id
  pending : ∀ id, Graph.Scheduled g id → id ∈ pending
  ready : ∀ id n, g.get? id = some n → n.scheduled = n.ready

structure Wired (g : Graph) (is : List Instance) : Prop where
  visible : ∀ id n, g.get? id = some n → n.internal = false → n.LeadsTo (Graph.Visible g)
  inner : ∀ i ∈ is, ∀ id ∈ i.nodes, id ∉ i.outputs → ∀ n, g.get? id = some n →
    n.LeadsTo (· ∈ i.nodes)
  single : ∀ i ∈ is, i.outputs.Nodup
  placeholder : ∀ i ∈ is, ∀ o ∈ i.outputs, ∀ n, g.get? o = some n → n.IsPlaceholder
  mirror : ∀ id n i, g.get? id = some n → n.instance? = some i →
    i.outputs.map (Graph.fans? g) = n.outputs.map fun f => some [f]

/-- An instance that waits in the pool of a prototype. -/
structure Idle (g : Graph) (p : Prototype) (i : Instance) : Prop where
  current : i.revision = p.revision
  inputs : i.inputs.length = p.inputs.length
  outputs : i.outputs.length = p.outputs.length
  unscheduled : ∀ m ∈ i.nodes, ∀ n, g.get? m = some n → n.scheduled = false
  unbound : ∀ m ∈ i.nodes, Graph.instance? g m = none
  dry : ∀ o ∈ i.outputs, ∀ n, g.get? o = some n → n.outputs = [∅]

/-- A template whose placeholders are in place and whose references are registered and unbound. -/
structure Prototype.WellMade (t : Prototypes) (p : Prototype) : Prop where
  tidy : p.graph.Tidy
  inputs : ∀ b ∈ p.inputs, ∃ n, p.graph.get? b = some n
  outputs : ∀ b ∈ p.outputs, ∃ n, p.graph.get? b = some n ∧ n.IsPlaceholder
  single : p.outputs.Nodup
  registered : ∀ id n, p.graph.get? id = some n → n.Registered t
  unbound : ∀ id n, p.graph.get? id = some n → n.instance? = none

theorem Prototype.WellMade.mono {t t' : Prototypes} {p : Prototype} (h : p.WellMade t)
    (ht : ∀ k a, Prototypes.arity? t k = some a → Prototypes.arity? t' k = some a) :
    p.WellMade t' :=
  ⟨h.tidy, h.inputs, h.outputs, h.single, fun id n hn => (h.registered id n hn).mono ht, h.unbound⟩

/-- Being well made depends on the template and the placeholders only. -/
theorem Prototype.WellMade.of_eq {t : Prototypes} {p q : Prototype} (h : p.WellMade t)
    (hg : q.graph = p.graph) (hi : q.inputs = p.inputs) (ho : q.outputs = p.outputs) :
    q.WellMade t := by
  constructor
  · rw [hg]; exact h.tidy
  · rw [hg, hi]; exact h.inputs
  · rw [hg, ho]; exact h.outputs
  · rw [ho]; exact h.single
  · rw [hg]; exact h.registered
  · rw [hg]; exact h.unbound

theorem Coherent.mem_pending_iff {g : Graph} {pending : List NodeId} (h : Coherent g pending [])
    (id : NodeId) : id ∈ pending ↔ Graph.Scheduled g id :=
  ⟨fun hid => (h.scheduled id hid).resolve_left List.not_mem_nil, h.pending id⟩

theorem Watching.congr {g g' : Graph} {watch : List NodeId} (h : Watching g watch)
    (hi : ∀ id, Graph.instance? g' id = Graph.instance? g id) : Watching g' watch := by
  refine ⟨h.nodup, fun id => ?_⟩
  rw [hi]
  exact h.mem_iff id

namespace Owning

variable {g : Graph} {next : Nat} {is is' : List Instance} {debris : List NodeId}
  {i j : Instance} {m : NodeId}

theorem perm (h : Owning g next is debris) (hp : is.Perm is') : Owning g next is' debris := by
  have hnodes := (hp.flatMap_right Instance.nodes).append_left debris
  refine ⟨fun i hi => h.numbered i (hp.mem_iff.2 hi), ?_, ?_, fun id => ?_,
    fun i hi => h.boundary i (hp.mem_iff.2 hi)⟩
  · exact (hp.map Instance.id).nodup_iff.1 h.distinct
  · exact hnodes.nodup_iff.1 h.disjoint
  · rw [← h.internal id]
    exact hnodes.mem_iff.symm

theorem internal_of_mem (h : Owning g next is debris) (hi : i ∈ is) (hm : m ∈ i.nodes) :
    Graph.Internal g m :=
  (h.internal m).1 (List.mem_append_right _ (List.mem_flatMap.2 ⟨i, hi, hm⟩))

theorem nodup_nodes (h : Owning g next is debris) (hi : i ∈ is) : i.nodes.Nodup :=
  (List.nodup_flatMap.1 (List.nodup_append.1 h.disjoint).2.1).1 i hi

theorem not_mem_debris (h : Owning g next is debris) (hi : i ∈ is) (hm : m ∈ i.nodes) :
    m ∉ debris := fun hd =>
  (List.nodup_append.1 h.disjoint).2.2 m hd m (List.mem_flatMap.2 ⟨i, hi, hm⟩) rfl

/-- A node belongs to one instance only. -/
theorem eq_of_mem (h : Owning g next is debris) (hi : i ∈ is) (hj : j ∈ is) (hm : m ∈ i.nodes)
    (hm' : m ∈ j.nodes) : i = j := by
  by_contra hne
  have hpair := (List.nodup_flatMap.1 (List.nodup_append.1 h.disjoint).2.1).2
  have : Std.Symm (Function.onFun List.Disjoint Instance.nodes) := ⟨fun _ _ hd _ ha hb => hd hb ha⟩
  exact hpair.forall hi hj hne hm hm'

theorem outputs_subset (h : Owning g next is debris) (hi : i ∈ is) (hm : m ∈ i.outputs) :
    m ∈ i.nodes :=
  h.boundary i hi m (.inr hm)

/-- An internal node is debris or belongs to an instance. -/
theorem mem_of_internal (h : Owning g next is debris) (hm : Graph.Internal g m) :
    m ∈ debris ∨ ∃ i ∈ is, m ∈ i.nodes := by
  rcases List.mem_append.1 ((h.internal m).2 hm) with hd | hn
  · exact .inl hd
  · exact .inr (List.mem_flatMap.1 hn)

end Owning

/-! ## Engines at work -/

/-- An engine in the middle of a call. -/
structure Work where
  engine : Engine
  /-- Whole instances that nothing holds at the moment. -/
  hand : List Instance
  /-- Nodes of instances that were broken up, still to be freed. -/
  debris : List NodeId
  /-- Nodes whose pending entries are still to be dropped. -/
  stale : List NodeId

namespace Work

/-- An engine between two calls. -/
def rest (e : Engine) : Work := ⟨e, [], [], []⟩

/-- All instances there are: in hand, bound, or pooled. -/
def instances (w : Work) : List Instance :=
  w.hand ++ (Graph.bound w.engine.graph ++ Prototypes.pooled w.engine.registry.prototypes)

theorem mem_instances {w : Work} {i : Instance} :
    i ∈ w.instances ↔ i ∈ w.hand ∨ (∃ id, Graph.instance? w.engine.graph id = some i) ∨
      ∃ k p, w.engine.prototype? k = some p ∧ i ∈ p.pool := by
  simp only [instances, List.mem_append, Graph.mem_bound, Prototypes.mem_pooled, Engine.prototype?]

end Work

structure Sound (w : Work) : Prop where
  tidy : w.engine.graph.Tidy
  owning : Owning w.engine.graph w.engine.nextInstance w.instances w.debris
  watching : Watching w.engine.graph w.engine.watch
  layered : Graph.Layered w.engine.graph
  coherent : Coherent w.engine.graph w.engine.pending w.stale
  wired : Wired w.engine.graph w.instances
  idle : ∀ k p, w.engine.prototype? k = some p → ∀ i ∈ p.pool, Idle w.engine.graph p i
  capacity : ∀ k p, w.engine.prototype? k = some p →
    ∀ c, w.engine.settings.poolCapacity = some c → p.pool.length ≤ c
  registered : ∀ id n, w.engine.graph.get? id = some n →
    n.Registered w.engine.registry.prototypes
  fitting : ∀ id n i, w.engine.graph.get? id = some n → n.instance? = some i →
    i.inputs.length = n.inputs.length
  named : ∀ k p, w.engine.prototype? k = some p → p.key = k
  templates : ∀ k p, w.engine.prototype? k = some p → p.WellMade w.engine.registry.prototypes

namespace Sound

variable {w : Work} {i : Instance} {id : NodeId} {n : Node} {k : Key} {p : Prototype}

theorem mem_of_hand (hi : i ∈ w.hand) : i ∈ w.instances := Work.mem_instances.2 (.inl hi)

theorem mem_of_bound (hi : Graph.instance? w.engine.graph id = some i) : i ∈ w.instances :=
  Work.mem_instances.2 (.inr (.inl ⟨id, hi⟩))

theorem mem_of_pool (hp : w.engine.prototype? k = some p) (hi : i ∈ p.pool) : i ∈ w.instances :=
  Work.mem_instances.2 (.inr (.inr ⟨k, p, hp, hi⟩))

theorem nodup_instances (h : Sound w) : w.instances.Nodup :=
  List.Nodup.of_map Instance.id h.owning.distinct

/-- An instance is held by one reference only. -/
theorem holder_unique (h : Sound w) {r s : NodeId}
    (hr : Graph.instance? w.engine.graph r = some i)
    (hs : Graph.instance? w.engine.graph s = some i) : r = s := by
  have hn := h.nodup_instances
  rw [Work.instances, List.nodup_append, List.nodup_append] at hn
  exact Graph.holder_unique hn.2.1.1 hr hs

/-- A bound instance is not pooled. -/
theorem not_pooled_of_bound (h : Sound w) (hi : Graph.instance? w.engine.graph id = some i)
    (hp : w.engine.prototype? k = some p) : i ∉ p.pool := by
  intro hm
  have hn := h.nodup_instances
  rw [Work.instances, List.nodup_append, List.nodup_append] at hn
  exact hn.2.1.2.2 i (Graph.mem_bound.2 ⟨id, hi⟩) i (Prototypes.mem_pooled.2 ⟨k, p, hp, hm⟩) rfl

/-- The part of a sound engine that calls leave out of sight may be anything. -/
theorem of_eq {e e' : Engine} {hand : List Instance} {debris stale : List NodeId}
    (h : Sound ⟨e, hand, debris, stale⟩) (hg : e'.graph = e.graph)
    (ht : e'.registry.prototypes = e.registry.prototypes) (hp : e'.pending = e.pending)
    (hw : e'.watch = e.watch) (hn : e'.nextInstance = e.nextInstance)
    (hs : e'.settings = e.settings) : Sound ⟨e', hand, debris, stale⟩ := by
  have ht' : ∀ k, e'.prototype? k = e.prototype? k := fun k => by
    simp only [Engine.prototype?, ht]
  have hi : (⟨e', hand, debris, stale⟩ : Work).instances = Work.instances ⟨e, hand, debris, stale⟩ := by
    simp only [Work.instances, hg, ht]
  obtain ⟨h₁, h₂, h₃, h₄, h₅, h₆, h₇, h₈, h₉, h₁₀, h₁₁, h₁₂⟩ := h
  constructor
  all_goals simp only [hg, ht, hp, hw, hn, hs, hi, ht']
  all_goals assumption

end Sound

end PulseFlow
