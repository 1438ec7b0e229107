import PulseFlow.Proofs.Sessions

/-!
# Who owns what

An instance is held by a reference that is bound to it or waits at a position of a pool.  Whatever
was done with an engine, an instance is held at one place only, the nodes of instances are exactly
the internal nodes of the graph, each in one instance and once, and the watched nodes are exactly
the bound references.

    ((fresh settings console).after commands).Partitioned                  (partitioned_after)
-/

namespace PulseFlow

/-! ## Pools -/

namespace Prototypes

variable {t : Prototypes} {k k' : Key} {p p' : Prototype} {i : Instance}

theorem nodup_pool (h : (pooled t).Nodup) (hp : t.get? k = some p) : p.pool.Nodup := by
  have hperm := (pooled_perm t k).nodup_iff.1 h
  rw [poolOf_of_get? hp, List.nodup_append] at hperm
  exact hperm.1

/-- An instance waits in one pool only. -/
theorem pool_unique (h : (pooled t).Nodup) (hp : t.get? k = some p) (hi : i ∈ p.pool)
    (hp' : t.get? k' = some p') (hi' : i ∈ p'.pool) : k = k' := by
  by_contra hne
  have hperm := (pooled_perm t k).nodup_iff.1 h
  rw [poolOf_of_get? hp, List.nodup_append] at hperm
  have hother : i ∈ pooled (t.erase k) := by
    refine mem_pooled.2 ⟨k', p', ?_, hi'⟩
    rw [Table.get?_erase, if_neg (Ne.symm hne)]
    exact hp'
  exact hperm.2.2 i hi i hother rfl

end Prototypes

namespace Engine

/-! ## Places -/

/-- Where an instance may be. -/
inductive Place where
  | reference (id : NodeId)
  | pool (key : Key) (position : Nat)

/-- The instance at a place. -/
def at? (e : Engine) : Place → Option Instance
  | .reference id => e.instance? id
  | .pool key position => (e.prototype? key).bind fun p => p.pool[position]?

/-- Instances and nodes are divided up among the places. -/
structure Partitioned (e : Engine) : Prop where
  /-- An internal node belongs to the instance at one place. -/
  owned : ∀ id, Graph.Internal e.graph id → ∃! place, ∃ i, e.at? place = some i ∧ id ∈ i.nodes
  once : ∀ place i, e.at? place = some i → i.nodes.Nodup
  /-- An instance is at one place. -/
  placed : ∀ place place' i i', e.at? place = some i → e.at? place' = some i' →
    i.id = i'.id → place = place'
  live : ∀ place i id, e.at? place = some i → id ∈ i.nodes ∨ id ∈ i.inputs ∨ id ∈ i.outputs →
    id ∈ i.nodes ∧ Graph.Internal e.graph id
  visible : ∀ place i id, e.at? place = some i → Graph.Visible e.graph id → id ∉ i.nodes
  /-- Nodes of templates hold no instances. -/
  templates : ∀ key p id n, e.prototype? key = some p → p.graph.get? id = some n →
    n.instance? = none
  watched_once : e.watch.Nodup
  watched : ∀ id, id ∈ e.watch ↔ ∃ i, e.at? (.reference id) = some i

variable {e : Engine} {i j : Instance} {a b : Place}

theorem mem_instances_of_at? (h : e.at? a = some i) : i ∈ Work.instances (.rest e) := by
  cases a with
  | reference id => exact Sound.mem_of_bound (w := .rest e) h
  | pool key position =>
    obtain ⟨p, hp, hi⟩ := Option.bind_eq_some_iff.1 h
    exact Sound.mem_of_pool (w := .rest e) hp (List.mem_of_getElem? hi)

theorem exists_at? (h : i ∈ Work.instances (.rest e)) : ∃ a, e.at? a = some i := by
  rcases Work.mem_instances.1 h with h | ⟨id, hi⟩ | ⟨key, p, hp, hi⟩
  · cases h
  · exact ⟨.reference id, hi⟩
  · obtain ⟨position, hpos⟩ := List.mem_iff_getElem?.1 hi
    exact ⟨.pool key position, Option.bind_eq_some_iff.2 ⟨p, hp, hpos⟩⟩

/-- The case of two places of the same kind is where positions and holders have to be compared. -/
theorem place_unique (h : Sound (.rest e)) (ha : e.at? a = some i) (hb : e.at? b = some i) :
    a = b := by
  have hn := h.nodup_instances
  rw [Work.instances, List.nodup_append, List.nodup_append] at hn
  have hpools : (Prototypes.pooled e.registry.prototypes).Nodup := hn.2.1.2.1
  cases a with
  | reference r =>
    cases b with
    | reference s => rw [h.holder_unique (i := i) ha hb]
    | pool key position =>
      obtain ⟨p, hp, hi⟩ := Option.bind_eq_some_iff.1 hb
      exact absurd (List.mem_of_getElem? hi) (h.not_pooled_of_bound ha hp)
  | pool key position =>
    obtain ⟨p, hp, hi⟩ := Option.bind_eq_some_iff.1 ha
    cases b with
    | reference s => exact absurd (List.mem_of_getElem? hi) (h.not_pooled_of_bound hb hp)
    | pool key' position' =>
      obtain ⟨p', hp', hi'⟩ := Option.bind_eq_some_iff.1 hb
      have hkey := Prototypes.pool_unique hpools hp (List.mem_of_getElem? hi) hp'
        (List.mem_of_getElem? hi')
      subst hkey
      rw [hp] at hp'
      cases hp'
      have hlt : position < p.pool.length := by
        by_contra hge
        rw [List.getElem?_eq_none (Nat.not_lt.1 hge)] at hi
        cases hi
      rw [(List.getElem?_inj hlt (Prototypes.nodup_pool hpools hp)).1 (hi.trans hi'.symm)]

theorem partitioned_of_sound (h : Sound (.rest e)) : e.Partitioned := by
  have hown : Owning e.graph e.nextInstance (Work.instances (.rest e)) [] := h.owning
  constructor
  · intro id hid
    obtain ⟨i, hi, hm⟩ := (hown.mem_of_internal hid).resolve_left List.not_mem_nil
    obtain ⟨a, ha⟩ := exists_at? hi
    refine ⟨a, ⟨i, ha, hm⟩, ?_⟩
    rintro b ⟨j, hb, hmj⟩
    have hij := hown.eq_of_mem hi (mem_instances_of_at? hb) hm hmj
    exact place_unique h hb (hij ▸ ha)
  · exact fun a i ha => hown.nodup_nodes (mem_instances_of_at? ha)
  · intro a b i j ha hb hid
    have hij : i = j := List.inj_on_of_nodup_map hown.distinct (mem_instances_of_at? ha)
      (mem_instances_of_at? hb) hid
    exact place_unique h ha (hij ▸ hb)
  · intro a i id ha hid
    have hi := mem_instances_of_at? ha
    have hm : id ∈ i.nodes := hid.elim (fun hm => hm) (hown.boundary i hi id)
    exact ⟨hm, hown.internal_of_mem hi hm⟩
  · intro a i id ha hv hm
    exact Graph.not_visible_of_internal (hown.internal_of_mem (mem_instances_of_at? ha) hm) hv
  · exact fun key p id n hp hn => (h.templates key p hp).unbound id n hn
  · exact h.watching.nodup
  · exact h.watching.mem_iff

theorem partitioned_after (settings : Settings) (console : Console) (commands : List Command) :
    ((fresh settings console).after commands).Partitioned :=
  partitioned_of_sound (settled_after settings console commands).sound

end Engine

end PulseFlow
