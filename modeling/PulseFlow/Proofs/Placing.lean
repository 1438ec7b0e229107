import PulseFlow.Engine.Edit
import PulseFlow.Proofs.Discarding

/-!
# Changes of the graph by callers

Placing, connecting, disconnecting and removing nodes leaves an engine sound and every bound
reference active, and does not disturb what is pooled (`Serves`).  A connection made or dropped at a
bound reference is made or dropped at the placeholder that stands for the output too, so both go on
leading to the same places.

    e.Settled → Serves e (e.connect source target).2                        (connect_serves)
    e.Settled → Serves e (e.remove id).2                                    (remove_serves)
-/

namespace PulseFlow

/-- What comes first in a course that succeeds has succeeded. -/
theorem ok_of_bind {α β : Type} {x : Except Error α} {f : α → Except Error β} {b : β}
    (h : x >>= f = .ok b) : ∃ a, x = .ok a ∧ f a = .ok b := by
  cases x with
  | error err => cases h
  | ok a => exact ⟨a, rfl, h⟩

/-! ## What calls keep -/

/-- The engine is sound, and what is bound is active. -/
structure Engine.Settled (e : Engine) : Prop where
  sound : Sound (.rest e)
  busy : Graph.Busy e.graph

/-- What the inputs of a node hold. -/
def Graph.held? (g : Graph) (id : NodeId) : Option (List (Option Signal)) :=
  (g.get? id).map Node.inputs

/-- What a call other than a wave may do: nothing joins a pool, and pooled nodes go on holding what
they held. -/
structure Engine.Serves (e e' : Engine) : Prop where
  settled : e'.Settled
  settings : e'.settings = e.settings
  pool : ∀ k p' i, e'.prototype? k = some p' → i ∈ p'.pool →
    ∃ p, e.prototype? k = some p ∧ i ∈ p.pool
  held : ∀ id, e'.Pooled id → Graph.held? e'.graph id = Graph.held? e.graph id

theorem Graph.Fades.held? {g g' : Graph} {id : NodeId} {n' : Node} (h : Fades g g')
    (hn' : g'.get? id = some n') : Graph.held? g' id = Graph.held? g id := by
  obtain ⟨n, hn, hfade⟩ := h id n' hn'
  rw [Graph.held?, hn', Graph.held?, hn, Option.map_some, Option.map_some, hfade.inputs]

namespace Engine

variable {e e' e'' : Engine} {id : NodeId}

theorem Settled.of_eq (h : e.Settled) (hg : e'.graph = e.graph)
    (ht : e'.registry.prototypes = e.registry.prototypes) (hp : e'.pending = e.pending)
    (hw : e'.watch = e.watch) (hn : e'.nextInstance = e.nextInstance)
    (hs : e'.settings = e.settings) : e'.Settled :=
  ⟨h.sound.of_eq hg ht hp hw hn hs, hg ▸ h.busy⟩

namespace Serves

theorem refl (h : e.Settled) : Serves e e :=
  ⟨h, rfl, fun _ p _ hp hi => ⟨p, hp, hi⟩, fun _ _ => rfl⟩

theorem pooled (h : Serves e e') (hid : e'.Pooled id) : e.Pooled id := by
  obtain ⟨k, p', i, hp', hi, hm⟩ := hid
  obtain ⟨p, hp, hi⟩ := h.pool k p' i hp' hi
  exact ⟨k, p, i, hp, hi, hm⟩

theorem trans (h : Serves e e') (h' : Serves e' e'') : Serves e e'' where
  settled := h'.settled
  settings := h'.settings.trans h.settings
  pool := by
    intro k p'' i hp'' hi
    obtain ⟨p', hp', hi⟩ := h'.pool k p'' i hp'' hi
    exact h.pool k p' i hp' hi
  held := fun id hid => (h'.held id hid).trans (h.held id (h'.pooled hid))

theorem of_flows (hs : e'.Settled) (h : Flows e e') : Serves e e' :=
  ⟨hs, h.settings, h.pool, fun id hid => by rw [Graph.held?, h.frozen id hid, Graph.held?]⟩

/-- Where prototypes stay as they are and nodes only lose bindings and connections. -/
theorem of_fades (hs : e'.Settled) (hset : e'.settings = e.settings)
    (ht : e'.registry = e.registry) (hf : Graph.Fades e.graph e'.graph) : Serves e e' where
  settled := hs
  settings := hset
  pool := fun k p' i hp' hi => ⟨p', by rw [prototype?, ← ht, ← prototype?, hp'], hi⟩
  held := by
    rintro id ⟨k, p, i, hp, hi, hm⟩
    obtain ⟨n', hn', -⟩ := hs.sound.owning.internal_of_mem
      (Sound.mem_of_pool (w := .rest e') hp hi) hm
    exact hf.held? hn'

end Serves

theorem serves_world (h : e.Settled) (w : World) : Serves e { e with world := w } :=
  .of_fades (h.of_eq rfl rfl rfl rfl rfl rfl) rfl rfl (.refl _)

end Engine

/-! ## Placing -/

theorem Node.blank_make {body : Body} (hb : body.instance? = none) (inputs outputs : Nat)
    (internal : Bool) : (Node.make body inputs outputs internal).Blank := by
  refine ⟨rfl, ?_, hb⟩
  show (!(List.replicate inputs none).isEmpty &&
    (List.replicate inputs (none : Option Signal)).all Option.isSome) = false
  cases inputs with
  | zero => rfl
  | succ k => simp [List.replicate_succ]

theorem Node.leadsTo_make (P : NodeId → Prop) (body : Body) (inputs outputs : Nat)
    (internal : Bool) : (Node.make body inputs outputs internal).LeadsTo P := by
  intro f hf s hs
  obtain ⟨-, rfl⟩ := List.mem_replicate.1 (show f ∈ List.replicate outputs ∅ from hf)
  exact absurd hs (SortedSet.not_mem_empty s)

/-- A node as callers place it: nothing has reached it, and it leads nowhere. -/
structure Node.Fresh (t : Prototypes) (n : Node) : Prop where
  blank : n.Blank
  empty : ∀ s ∈ n.inputs, s = none
  visible : n.internal = false
  leads : n.LeadsTo fun _ => False
  registered : n.Registered t

theorem Node.fresh_make {t : Prototypes} {body : Body} {inputs outputs : Nat}
    (hb : body.instance? = none) (hr : (Node.make body inputs outputs false).Registered t) :
    (Node.make body inputs outputs false).Fresh t where
  blank := blank_make hb inputs outputs false
  empty := fun _ hs => (List.mem_replicate.1 hs).2
  visible := rfl
  leads := leadsTo_make _ body inputs outputs false
  registered := hr

theorem Node.fresh_native (t : Prototypes) (l : Logic) : (Node.native l).Fresh t :=
  fresh_make rfl (registered_native rfl)

namespace Registry

variable {r : Registry} {key : Key} {heap heap' : Heap} {n : Node}

/-- The signature of what a key stands for: a logic of the catalog or else a prototype. -/
def signature? (r : Registry) (key : Key) : Option Signature :=
  match r.catalog.get? key with
  | some l => some l.signature
  | none => (r.prototypes.get? key).map fun p => ⟨key, p.inputs.length, p.outputs.length⟩

/-- A node made by name has the signature of the name. -/
theorem signature_makeNode (h : r.makeNode key heap = .ok (n, heap')) :
    r.signature? key = some n.signature := by
  unfold makeNode Catalog.create? at h
  unfold signature?
  cases hl : r.catalog.get? key with
  | some l =>
    rw [hl] at h
    cases h
    have hcopy := (l.sameKind_duplicate heap).signature
    exact congrArg some (hcopy.symm.trans (Node.signature_native _).symm)
  | none =>
    rw [hl] at h
    cases hp : r.prototypes.get? key with
    | some p =>
      rw [hp] at h
      cases h
      exact congrArg some (Node.signature_reference _ _ _).symm
    | none =>
      rw [hp] at h
      cases h

/-- What has a signature can be made. -/
theorem makeNode_ok {sig : Signature} (h : r.signature? key = some sig) (heap : Heap) :
    ∃ made, r.makeNode key heap = .ok made := by
  unfold signature? at h
  unfold makeNode Catalog.create?
  cases hl : r.catalog.get? key with
  | some l => exact ⟨_, rfl⟩
  | none =>
    rw [hl] at h
    obtain ⟨p, hp, -⟩ := Option.map_eq_some_iff.1 h
    rw [hp]
    exact ⟨_, rfl⟩

/-- A logic that is no constant is copied as it is. -/
theorem makeNode_of_logic {l : Logic} (h : r.catalog.get? key = some l) (hl : l.constant? = none)
    (heap : Heap) : r.makeNode key heap = .ok (Node.native l, heap) := by
  have hcopy : l.duplicate heap = (l, heap) := by
    cases l with
    | constant v => cases hl
    | _ => rfl
  rw [makeNode, Catalog.create?, h, Option.map_some, hcopy]

theorem makeNode_of_prototype {p : Prototype} (h : r.catalog.get? key = none)
    (hp : r.prototypes.get? key = some p) (heap : Heap) :
    r.makeNode key heap = .ok (Node.reference key p.inputs.length p.outputs.length, heap) := by
  rw [makeNode, Catalog.create?, h, Option.map_none, hp]

theorem makeNode_error (h : r.signature? key = none) (heap : Heap) :
    r.makeNode key heap = .error (.unknownNode key) := by
  unfold signature? at h
  unfold makeNode Catalog.create?
  cases hl : r.catalog.get? key with
  | some l =>
    rw [hl] at h
    cases h
  | none =>
    rw [hl] at h
    rw [Option.map_eq_none_iff.1 h]
    rfl

/-- A node that is made by name is fresh. -/
theorem fresh_makeNode (h : r.makeNode key heap = .ok (n, heap')) : n.Fresh r.prototypes := by
  unfold makeNode at h
  split at h
  · cases h
    exact Node.fresh_native _ _
  · split at h
    · next p hp =>
      cases h
      refine Node.fresh_make rfl fun k b hb => ?_
      cases hb
      rw [Prototypes.arity?, hp, Option.map_some]
      simp [Node.make]
    · cases h

end Registry

namespace Engine

variable {e : Engine} {id : NodeId}

theorem addNode_serves (h : e.Settled) {n : Node} (hnew : n.Fresh e.registry.prototypes) :
    Serves e (e.addNode n).2 := by
  have htidy : e.graph.Tidy := h.sound.tidy
  have hget := Slots.get?_add htidy n
  have hfresh : e.graph.get? (e.graph.add n).1 = none := Slots.get?_add_fst htidy n
  have hgrows : Graph.Grows e.registry.prototypes e.graph (e.graph.add n).2 := by
    constructor
    · exact fun k m hm => Slots.get?_add_of_some htidy n hm
    · intro k m hm
      rw [hget] at hm
      by_cases hk : (e.graph.add n).1 = k
      · rw [if_pos hk] at hm
        cases hm
        exact .inr ⟨hk ▸ hfresh, hnew.blank, hnew.registered⟩
      · rw [if_neg hk] at hm
        exact .inl hm
  have hrow : ∀ k m, (e.graph.add n).2.get? k = some m → e.graph.get? k = none → m = n := by
    intro k m hm hnone
    rw [hget] at hm
    split at hm
    · exact (Option.some.inj hm).symm
    · exact absurd (hnone.symm.trans hm) (by simp)
  have hown : Owning (e.graph.add n).2 e.nextInstance (Work.instances (.rest e)) [] := by
    refine h.sound.owning.of_internal_iff fun k => ⟨?_, fun hk => ?_⟩
    · rintro ⟨m, hm, hi⟩
      rcases hgrows.row k m hm with hm' | ⟨hnone, -⟩
      · exact ⟨m, hm', hi⟩
      · rw [hrow k m hm hnone, hnew.visible] at hi
        cases hi
    · obtain ⟨m, hm, hi⟩ := hk
      exact ⟨m, hgrows.keep k m hm, hi⟩
  have hwired : Wired (e.graph.add n).2 (Work.instances (.rest e)) := by
    refine h.sound.wired_of_grows hgrows fun k m hm hnone _ => ?_
    rw [hrow k m hm hnone]
    exact hnew.leads.imp fun _ => False.elim
  have hsettled : (e.addNode n).2.Settled :=
    ⟨h.sound.of_grows hgrows (Slots.tidy_add htidy n) hown hwired,
      h.busy.mono hgrows.instance? fun k => (hgrows.scheduled_iff k).2⟩
  refine .of_flows hsettled (.of_keep (fun _ => rfl) rfl fun k => ?_)
  by_cases hk : e.Pooled k
  · obtain ⟨m, hm⟩ := hk.live h.sound
    exact .inr ((hgrows.keep k m hm).trans hm.symm)
  · exact .inl hk

/-- A node is placed by name, with another heap where it needed arrays, or nothing happens. -/
theorem create_cases (e : Engine) (key : Key) :
    (∃ err, e.create key = (.error err, e)) ∨
      ∃ n heap, e.registry.makeNode key e.world.heap = .ok (n, heap) ∧
        e.create key = (.ok (e.graph.add n).1,
          (Engine.addNode { e with world := { e.world with heap } } n).2) := by
  unfold create
  cases hm : e.registry.makeNode key e.world.heap with
  | error err => exact .inl ⟨err, rfl⟩
  | ok made => exact .inr ⟨made.1, made.2, rfl, rfl⟩

/-- What holds of an engine and of it with one more node holds after a call that places one. -/
theorem create_induct {P : Engine → Prop} (he : P e)
    (hadd : ∀ n, n.Fresh e.registry.prototypes → ∀ w : World,
      P (Engine.addNode { e with world := w } n).2) (key : Key) : P (e.create key).2 := by
  rcases e.create_cases key with ⟨err, hc⟩ | ⟨n, heap, hm, hc⟩
  · rw [hc]
    exact he
  · rw [hc]
    exact hadd n (Registry.fresh_makeNode hm) _

theorem create_serves (h : e.Settled) (key : Key) : Serves e (e.create key).2 := by
  refine create_induct (P := Serves e) (.refl h) (fun n hn w => ?_) key
  have hworld := serves_world h w
  exact hworld.trans (addNode_serves hworld.settled hn)

/-! ## Connecting -/

/-- The graph after a change to what an output leads to, at its placeholder as well. -/
def releaded (e : Engine) (source : Socket) (change : Fan → Fan) : Graph :=
  match e.boundOutput? source with
  | some placeholder =>
    (e.graph.modify source.node fun n => n.modifyFan source.port change).modify placeholder
      fun n => n.modifyFan 0 change
  | none => e.graph.modify source.node fun n => n.modifyFan source.port change

theorem rewires_releaded (e : Engine) (source : Socket) (change : Fan → Fan) :
    Graph.Rewires e.graph (e.releaded source change) := by
  unfold releaded
  split
  · exact (Graph.Rewires.modifyFan _ _ _ _).trans (Graph.Rewires.modifyFan _ _ _ _)
  · exact Graph.Rewires.modifyFan _ _ _ _

theorem tidy_releaded (h : e.graph.Tidy) (source : Socket) (change : Fan → Fan) :
    (e.releaded source change).Tidy := by
  unfold releaded
  split
  · exact Slots.tidy_modify (Slots.tidy_modify h _ _) _ _
  · exact Slots.tidy_modify h _ _

/-- Only the source and the placeholder for its output are touched. -/
theorem get?_releaded_of_ne {source : Socket} {change : Fan → Fan} {k : NodeId}
    (hk : k ≠ source.node) (hp : e.boundOutput? source ≠ some k) :
    (e.releaded source change).get? k = e.graph.get? k := by
  unfold releaded
  split
  · next o ho =>
    have hne : o ≠ k := fun he => hp (he ▸ ho)
    rw [Slots.get?_modify, if_neg hne, Slots.get?_modify, if_neg (Ne.symm hk)]
  · rw [Slots.get?_modify, if_neg (Ne.symm hk)]

theorem boundOutput?_eq_some {source : Socket} {o : NodeId} (h : e.boundOutput? source = some o) :
    ∃ i, e.instance? source.node = some i ∧ i.outputs[source.port]? = some o :=
  Option.bind_eq_some_iff.1 h

/-- The placeholder of an output is not visible, so it is not the source. -/
theorem boundOutput?_internal (h : Sound (.rest e)) {source : Socket} {o : NodeId}
    (ho : e.boundOutput? source = some o) : Graph.Internal e.graph o := by
  obtain ⟨i, hi, hio⟩ := boundOutput?_eq_some ho
  have hmem := Sound.mem_of_bound (w := .rest e) hi
  exact h.owning.internal_of_mem hmem (h.owning.outputs_subset hmem (List.mem_of_getElem? hio))

theorem get?_releaded_source (h : Sound (.rest e)) {source : Socket} {change : Fan → Fan} {n : Node}
    (hn : e.graph.get? source.node = some n) (hv : n.internal = false) :
    (e.releaded source change).get? source.node = some (n.modifyFan source.port change) := by
  unfold releaded
  split
  · next o ho =>
    have hne : o ≠ source.node := by
      rintro rfl
      exact Graph.not_visible_of_internal (boundOutput?_internal h ho) ⟨n, hn, hv⟩
    rw [Slots.get?_modify, if_neg hne, Slots.get?_modify, if_pos rfl, hn, Option.map_some]
  · rw [Slots.get?_modify, if_pos rfl, hn, Option.map_some]

theorem get?_releaded_placeholder {source : Socket} {change : Fan → Fan} {o : NodeId}
    (ho : e.boundOutput? source = some o) (hne : o ≠ source.node) :
    (e.releaded source change).get? o = (e.graph.get? o).map fun n => n.modifyFan 0 change := by
  unfold releaded
  rw [ho]
  dsimp only
  rw [Slots.get?_modify, if_pos rfl, Slots.get?_modify, if_neg (Ne.symm hne)]

/-- A reference and its instance lead to the same places after the change, port by port. -/
theorem mirror_releaded (h : Sound (.rest e)) {source : Socket} {change : Fan → Fan} {n : Node}
    {i : Instance} (hn : e.graph.get? source.node = some n) (hv : n.internal = false)
    (hi : n.instance? = some i) :
    i.outputs.map (Graph.fans? (e.releaded source change)) =
      (n.modifyFan source.port change).outputs.map fun f => some [f] := by
  have hmirror : i.outputs.map (Graph.fans? e.graph) = n.outputs.map fun f => some [f] :=
    h.wired.mirror source.node n i hn hi
  have hbound : e.instance? source.node = some i := (Graph.instance?_of_get? hn).trans hi
  have hmem := Sound.mem_of_bound (w := .rest e) hbound
  have hself : e.boundOutput? source = i.outputs[source.port]? := by
    rw [boundOutput?, hbound, Option.bind_some]
  have hinner : ∀ o ∈ i.outputs, o ≠ source.node := by
    rintro o ho rfl
    exact Graph.not_visible_of_internal
      (h.owning.internal_of_mem hmem (h.owning.outputs_subset hmem ho)) ⟨n, hn, hv⟩
  refine List.ext_getElem? fun j => ?_
  have hj : (i.outputs[j]?).map (Graph.fans? e.graph) = (n.outputs[j]?).map fun f => some [f] := by
    rw [← List.getElem?_map, hmirror, List.getElem?_map]
  rw [List.getElem?_map, List.getElem?_map, Node.outputs_modifyFan, List.getElem?_modify]
  cases ho : i.outputs[j]? with
  | none =>
    rw [ho, Option.map_none, eq_comm, Option.map_eq_none_iff] at hj
    rw [hj]
    rfl
  | some o =>
    rw [ho, Option.map_some, eq_comm, Option.map_eq_some_iff] at hj
    obtain ⟨f, hf, hfans⟩ := hj
    have hoi := List.mem_of_getElem? ho
    rw [hf]
    show some (Graph.fans? (e.releaded source change) o) =
      some (some [if source.port = j then change f else f])
    congr 1
    by_cases hport : source.port = j
    · subst hport
      rw [if_pos rfl, Graph.fans?, get?_releaded_placeholder (hself.trans ho) (hinner o hoi)]
      rw [Graph.fans?, eq_comm, Option.map_eq_some_iff] at hfans
      obtain ⟨c, hc, houts⟩ := hfans
      rw [hc, Option.map_some, Option.map_some, Node.outputs_modifyFan, houts]
      rfl
    · -- the other placeholders are other nodes
      have hother : e.boundOutput? source ≠ some o := by
        intro he
        rw [hself, ← ho] at he
        have hlt : source.port < i.outputs.length := by
          by_contra hge
          rw [List.getElem?_eq_none (Nat.not_lt.1 hge), ho] at he
          cases he
        exact hport ((List.getElem?_inj hlt (h.wired.single i hmem)).1 he)
      rw [if_neg hport, Graph.fans?, get?_releaded_of_ne (hinner o hoi) hother]
      exact hfans.symm

/-- The nodes of instances are touched only as placeholders for the output. -/
theorem get?_releaded_inner (h : Sound (.rest e)) {source : Socket} {change : Fan → Fan}
    (hv : Graph.Visible e.graph source.node) {i : Instance} (hi : i ∈ Work.instances (.rest e))
    {k : NodeId} (hk : k ∈ i.nodes) (hne : e.boundOutput? source ≠ some k) :
    (e.releaded source change).get? k = e.graph.get? k := by
  refine get?_releaded_of_ne (fun he => ?_) hne
  exact Graph.not_visible_of_internal (h.owning.internal_of_mem hi hk) (he ▸ hv)

/-- The placeholder of an output belongs to the one instance bound to the source. -/
theorem owner_of_boundOutput? (h : Sound (.rest e)) {source : Socket} {i : Instance}
    (hi : i ∈ Work.instances (.rest e)) {k : NodeId} (hk : k ∈ i.nodes)
    (ho : e.boundOutput? source = some k) :
    e.instance? source.node = some i ∧ k ∈ i.outputs := by
  obtain ⟨j, hj, hjo⟩ := boundOutput?_eq_some ho
  have hjm := Sound.mem_of_bound (w := .rest e) hj
  have hko := List.mem_of_getElem? hjo
  have hij := h.owning.eq_of_mem hi hjm hk (h.owning.outputs_subset hjm hko)
  exact hij ▸ ⟨hj, hko⟩

/-- A placeholder is never bound. -/
theorem boundOutput?_ne_of_bound (h : Sound (.rest e)) {source : Socket} {k : NodeId}
    {i : Instance} (hi : e.instance? k = some i) : e.boundOutput? source ≠ some k := by
  intro ho
  obtain ⟨j, hj, hjo⟩ := boundOutput?_eq_some ho
  obtain ⟨m, hm, hmi⟩ := Graph.instance?_eq_some_iff.1 hi
  have hpl := h.wired.placeholder j (Sound.mem_of_bound (w := .rest e) hj) k
    (List.mem_of_getElem? hjo) m hm
  rw [hpl.instance?] at hmi
  cases hmi

/-- Another reference and its instance keep what they lead to. -/
theorem mirror_releaded_of_ne (h : Sound (.rest e)) {source : Socket} {change : Fan → Fan}
    (hv : Graph.Visible e.graph source.node) {k : NodeId} (hk : k ≠ source.node) {n : Node}
    {i : Instance} (hn : e.graph.get? k = some n) (hi : n.instance? = some i) :
    i.outputs.map (Graph.fans? (e.releaded source change)) = n.outputs.map fun f => some [f] := by
  have hb : e.instance? k = some i := (Graph.instance?_of_get? hn).trans hi
  have hmem := Sound.mem_of_bound (w := .rest e) hb
  refine Eq.trans ?_ (h.wired.mirror k n i hn hi)
  refine List.map_congr_left fun o ho => ?_
  have hon := h.owning.outputs_subset hmem ho
  have hother : e.boundOutput? source ≠ some o := fun he =>
    hk (h.holder_unique hb (owner_of_boundOutput? h hmem hon he).1)
  rw [Graph.fans?, get?_releaded_inner h hv hmem hon hother]
  rfl

theorem wired_releaded (h : Sound (.rest e)) {source : Socket} {change : Fan → Fan} {n : Node}
    (hn : e.graph.get? source.node = some n) (hv : n.internal = false)
    (hchange : ∀ f : Fan, (∀ s ∈ f, Graph.Visible e.graph s.node) →
      ∀ s ∈ change f, Graph.Visible e.graph s.node) :
    Wired (e.releaded source change) (Work.instances (.rest e)) := by
  have hr := rewires_releaded e source change
  have hvis : Graph.Visible e.graph source.node := ⟨n, hn, hv⟩
  constructor
  · intro k n' hn' hint
    by_cases hk : k = source.node
    · subst hk
      rw [get?_releaded_source h hn hv] at hn'
      cases hn'
      have hold : n.LeadsTo (Graph.Visible e.graph) := h.wired.visible _ n hn hv
      exact (hold.modifyFan source.port hchange).imp fun x => hr.visible
    · have hne : e.boundOutput? source ≠ some k := by
        intro ho
        obtain ⟨m, hm, hmi⟩ := boundOutput?_internal h ho
        have := (hr.fades.node hm hn').internal
        rw [hint, hmi] at this
        cases this
      rw [get?_releaded_of_ne hk hne] at hn'
      exact (h.wired.visible k n' hn' hint).imp fun x => hr.visible
  · intro i hi k hk hnot n' hn'
    have hne : e.boundOutput? source ≠ some k := fun ho =>
      hnot (owner_of_boundOutput? h hi hk ho).2
    rw [get?_releaded_inner h hvis hi hk hne] at hn'
    exact h.wired.inner i hi k hk hnot n' hn'
  · exact h.wired.single
  · intro i hi o ho n' hn'
    obtain ⟨m, hm, hfade⟩ := hr.fades o n' hn'
    exact hfade.placeholder (h.wired.placeholder i hi o ho m hm)
  · intro k n' i hn' hi
    by_cases hk : k = source.node
    · subst hk
      rw [get?_releaded_source h hn hv] at hn'
      cases hn'
      exact mirror_releaded h hn hv hi
    · obtain ⟨m, hm, hfade⟩ := hr.fades k n' hn'
      have hb : e.instance? k = some i := (Graph.instance?_of_get? hm).trans (hfade.instance? hi)
      rw [get?_releaded_of_ne hk (boundOutput?_ne_of_bound h hb)] at hn'
      exact mirror_releaded_of_ne h hvis hk hn' hi

/-- Changing what an output of a visible node leads to, among visible nodes. -/
theorem releaded_serves (h : e.Settled) {source : Socket} {change : Fan → Fan} {n : Node}
    (hn : e.graph.get? source.node = some n) (hv : n.internal = false)
    (hchange : ∀ f : Fan, (∀ s ∈ f, Graph.Visible e.graph s.node) →
      ∀ s ∈ change f, Graph.Visible e.graph s.node) :
    Serves e { e with graph := e.releaded source change } := by
  have hs := h.sound
  have hr := rewires_releaded e source change
  have hwired := wired_releaded hs hn hv hchange
  refine .of_fades ⟨hs.of_rewires hr (tidy_releaded hs.tidy source change) hwired ?_,
    h.busy.mono hr.bound fun k => hr.scheduled⟩ rfl rfl hr.fades
  intro k p hp j hj o ho n' hn'
  have hjm := Sound.mem_of_pool (w := .rest e) hp hj
  have hon := hs.owning.outputs_subset hjm ho
  have hne : e.boundOutput? source ≠ some o := fun he =>
    hs.not_pooled_of_bound (owner_of_boundOutput? hs hjm hon he).1 hp hj
  rw [get?_releaded_inner hs ⟨n, hn, hv⟩ hjm hon hne] at hn'
  exact (hs.idle k p hp j hj).dry o ho n' hn'

theorem graph_connect_ok {g g' : Graph} {source target : Socket}
    (h : Graph.connect g source target = .ok g') :
    g' = g.modify source.node fun n => n.modifyFan source.port fun f => f.insert target := by
  unfold Graph.connect at h
  obtain ⟨_, -, h⟩ := ok_of_bind h
  obtain ⟨_, -, h⟩ := ok_of_bind h
  cases h
  rfl

theorem graph_disconnect_ok {g g' : Graph} {source : Socket}
    (h : Graph.disconnect g source = .ok g') :
    g' = g.modify source.node fun n => n.modifyFan source.port fun _ => ∅ := by
  unfold Graph.disconnect at h
  obtain ⟨_, -, h⟩ := ok_of_bind h
  cases h
  rfl

theorem onOutput_ok {source : Socket} {change : Graph → Socket → Except Error Graph}
    {f : Fan → Fan} {g : Graph}
    (hchange : ∀ g s g', change g s = .ok g' → g' = g.modify s.node fun n => n.modifyFan s.port f)
    (h : e.onOutput source change = .ok g) : g = e.releaded source f := by
  unfold onOutput at h
  obtain ⟨g₁, hc, h⟩ := ok_of_bind h
  have h₁ := hchange _ _ _ hc
  unfold releaded
  cases ho : e.boundOutput? source with
  | none =>
    rw [ho] at h
    cases h
    exact h₁
  | some o =>
    rw [ho] at h
    rw [hchange g₁ ⟨o, 0⟩ g h, h₁]

theorem connect_serves (h : e.Settled) (source target : Socket) :
    Serves e (e.connect source target).2 := by
  unfold connect
  cases hs : e.visible source.node with
  | error err => exact .refl h
  | ok n =>
    cases ht : e.visible target.node with
    | error err => exact .refl h
    | ok m =>
      cases ho : e.onOutput source fun g s => Graph.connect g s target with
      | error err => exact .refl h
      | ok g =>
        rw [onOutput_ok (fun _ _ _ => graph_connect_ok) ho]
        obtain ⟨hn, hv⟩ := get?_of_visible hs
        refine releaded_serves h hn hv fun f hf s hsf => ?_
        rcases (SortedSet.mem_insert).1 hsf with rfl | hsf
        · exact ⟨m, get?_of_visible ht⟩
        · exact hf s hsf

theorem disconnect_serves (h : e.Settled) (source : Socket) :
    Serves e (e.disconnect source).2 := by
  unfold disconnect
  cases hs : e.visible source.node with
  | error err => exact .refl h
  | ok n =>
    cases ho : e.onOutput source fun g s => Graph.disconnect g s with
    | error err => exact .refl h
    | ok g =>
      rw [onOutput_ok (fun _ _ _ => graph_disconnect_ok) ho]
      obtain ⟨hn, hv⟩ := get?_of_visible hs
      exact releaded_serves h hn hv fun f _ s hsf => absurd hsf (SortedSet.not_mem_empty s)

end Engine

/-! ## Removing -/

/-- A node without its connections into node `id`. -/
def Node.forget (id : NodeId) (n : Node) : Node :=
  n.mapFans fun f => f.filter fun s => s.node != id

theorem Node.Fades.forget (id : NodeId) (n : Node) : n.Fades (n.forget id) :=
  ⟨rfl, rfl, rfl, List.length_map _, .inl rfl⟩

theorem Node.LeadsTo.forget {P : NodeId → Prop} {n : Node} (h : n.LeadsTo P) (id : NodeId) :
    (n.forget id).LeadsTo fun k => k ≠ id ∧ P k := by
  intro f hf s hs
  obtain ⟨f₀, hf₀, rfl⟩ := List.mem_map.1 hf
  obtain ⟨hs, hne⟩ := SortedSet.mem_filter.1 hs
  exact ⟨by simpa using hne, h f₀ hf₀ s hs⟩

namespace Graph

variable {g : Graph} {id k : NodeId}

theorem get?_erase (g : Graph) (id k : NodeId) :
    (erase g id).get? k = if id = k then none else (g.get? k).map (Node.forget id) := by
  show ((g.close id).map (Node.forget id)).get? k = _
  rw [Slots.get?_map, Slots.get?_close]
  split <;> rfl

theorem row_erase {n' : Node} (h : (erase g id).get? k = some n') :
    k ≠ id ∧ ∃ n, g.get? k = some n ∧ n' = n.forget id := by
  rw [get?_erase] at h
  by_cases hk : id = k
  · rw [if_pos hk] at h
    cases h
  · rw [if_neg hk, Option.map_eq_some_iff] at h
    obtain ⟨n, hn, rfl⟩ := h
    exact ⟨Ne.symm hk, n, hn, rfl⟩

theorem live_erase {n : Node} (hk : k ≠ id) (h : g.get? k = some n) :
    (erase g id).get? k = some (n.forget id) := by
  rw [get?_erase, if_neg (Ne.symm hk), h, Option.map_some]

theorem Fades.erase (g : Graph) (id : NodeId) : Fades g (Graph.erase g id) := by
  intro k n' hn'
  obtain ⟨-, n, hn, rfl⟩ := row_erase hn'
  exact ⟨n, hn, .forget id n⟩

theorem instance?_erase (hid : instance? g id = none) (k : NodeId) :
    instance? (erase g id) k = instance? g k := by
  by_cases hk : k = id
  · rw [hk, hid]
    exact (Fades.erase g id).instance?_eq_none hid
  · cases hn : g.get? k with
    | none => rw [instance?_of_get?_none hn, (Fades.erase g id).instance?_eq_none
        (instance?_of_get?_none hn)]
    | some n =>
      rw [instance?_of_get? hn, instance?_of_get? (live_erase hk hn)]
      rfl

theorem fans?_erase (hk : k ≠ id) :
    fans? (erase g id) k = (fans? g k).map (List.map fun f => f.filter fun s => s.node != id) := by
  rw [fans?, get?_erase, if_neg (Ne.symm hk), fans?, Option.map_map, Option.map_map]
  rfl

end Graph

theorem Coherent.erase {g : Graph} {pending : List NodeId} (h : Coherent g pending [])
    (id : NodeId) : Coherent (Graph.erase g id) (pending.filter fun p => p != id) [] where
  nodup := h.nodup.filter _
  scheduled := by
    intro k hk
    obtain ⟨hk, hne⟩ := List.mem_filter.1 hk
    obtain ⟨n, hn, hs⟩ := (h.scheduled k hk).resolve_left List.not_mem_nil
    exact .inr ⟨n.forget id, Graph.live_erase (by simpa using hne) hn, hs⟩
  pending := by
    rintro k ⟨n', hn', hs⟩
    obtain ⟨hne, n, hn, rfl⟩ := Graph.row_erase hn'
    exact List.mem_filter.2 ⟨h.pending k ⟨n, hn, hs⟩, by simpa using hne⟩
  ready := by
    intro k n' hn'
    obtain ⟨-, n, hn, rfl⟩ := Graph.row_erase hn'
    exact h.ready k n hn

theorem Wired.erase {g : Graph} {is : List Instance} {id : NodeId} (h : Wired g is)
    (hout : ∀ k i, Graph.instance? g k = some i → id ∉ i.outputs) :
    Wired (Graph.erase g id) is where
  visible := by
    intro k n' hn' hv
    obtain ⟨-, n, hn, rfl⟩ := Graph.row_erase hn'
    refine ((h.visible k n hn hv).forget id).imp ?_
    rintro x ⟨hne, m, hm, hmv⟩
    exact ⟨m.forget id, Graph.live_erase hne hm, hmv⟩
  inner := by
    intro i hi k hk hnot n' hn'
    obtain ⟨-, n, hn, rfl⟩ := Graph.row_erase hn'
    exact ((h.inner i hi k hk hnot n hn).forget id).imp fun x hx => hx.2
  single := h.single
  placeholder := by
    intro i hi o ho n' hn'
    obtain ⟨-, n, hn, rfl⟩ := Graph.row_erase hn'
    exact (Node.Fades.forget id n).placeholder (h.placeholder i hi o ho n hn)
  mirror := by
    intro k n' i hn' hi
    obtain ⟨-, n, hn, rfl⟩ := Graph.row_erase hn'
    have hid := hout k i ((Graph.instance?_of_get? hn).trans hi)
    have hmirror : i.outputs.map (Graph.fans? g) = n.outputs.map fun f => some [f] :=
      h.mirror k n i hn hi
    -- both sides lose the same connections
    have hfans : i.outputs.map (Graph.fans? (Graph.erase g id)) =
        (i.outputs.map (Graph.fans? g)).map
          (Option.map (List.map fun f => f.filter fun s => s.node != id)) := by
      rw [List.map_map]
      refine List.map_congr_left fun o ho => ?_
      have hne : o ≠ id := fun he => hid (he ▸ ho)
      exact Graph.fans?_erase hne
    show i.outputs.map (Graph.fans? (Graph.erase g id)) = (n.outputs.map _).map _
    rw [hfans, hmirror, List.map_map, List.map_map]
    rfl

/-- Erasing a visible node that is not bound, with the pending entry it may have. -/
theorem Sound.erase {e : Engine} {id : NodeId} (h : Sound (.rest e))
    (hint : ¬ Graph.Internal e.graph id) (hun : e.instance? id = none) :
    Sound (.rest { e with
      graph := Graph.erase e.graph id
      pending := e.pending.filter fun p => p != id }) := by
  have hf := Graph.Fades.erase e.graph id
  have hinst := Graph.instance?_erase (g := e.graph) hun
  have hins : Work.instances (.rest { e with
      graph := Graph.erase e.graph id
      pending := e.pending.filter fun p => p != id }) = Work.instances (.rest e) := by
    show [] ++ (Graph.bound (Graph.erase e.graph id) ++ _) = [] ++ (Graph.bound e.graph ++ _)
    rw [Graph.bound_congr hinst]
    rfl
  constructor
  · exact Slots.tidy_map (Slots.tidy_close h.tidy id) _
  · show Owning _ _ _ _
    rw [hins]
    refine h.owning.of_internal_iff fun k => ⟨hf.internal, fun hk => ?_⟩
    have hne : k ≠ id := fun he => hint (he ▸ hk)
    obtain ⟨n, hn, hi⟩ := hk
    exact ⟨n.forget id, Graph.live_erase hne hn, hi⟩
  · exact h.watching.congr hinst
  · exact h.layered.anti fun k j => hf.instance?
  · exact h.coherent.erase id
  · show Wired _ _
    rw [hins]
    refine h.wired.erase fun k i hi ho => ?_
    have hmem := Sound.mem_of_bound (w := .rest e) hi
    exact hint (h.owning.internal_of_mem hmem (h.owning.outputs_subset hmem ho))
  · intro k p hp i hi
    refine (h.idle k p hp i hi).of_fades hf fun o ho n' hn' => ?_
    obtain ⟨-, n, hn, rfl⟩ := Graph.row_erase hn'
    show n.outputs.map _ = _
    rw [(h.idle k p hp i hi).dry o ho n hn]
    rfl
  · exact h.capacity
  · exact registered_of_fades hf h.registered
  · exact fitting_of_fades hf h.fitting
  · exact h.named
  · exact h.templates

namespace Engine

variable {e : Engine}

theorem remove_serves (h : e.Settled) (id : NodeId) : Serves e (e.remove id).2 := by
  unfold remove
  cases hv : e.visible id with
  | error err => exact .refl h
  | ok n =>
    have hvis : Graph.Visible e.graph id := ⟨n, get?_of_visible hv⟩
    have hwithdraw : Moves (fun _ => True) (.rest e) (.rest (e.withdraw id)) ∧
        (e.withdraw id).instance? id = none :=
      withdraw_moves h.sound trivial fun _ _ _ _ _ _ => trivial
    obtain ⟨hmoves, hun⟩ := hwithdraw
    obtain ⟨hbusy, hreg⟩ := withdraw_busy h.sound h.busy hvis
    have hsound := hmoves.sound h.sound
    have hfades : Graph.Fades e.graph (e.withdraw id).graph := hmoves.fades
    have hint : ¬ Graph.Internal (e.withdraw id).graph id := fun hi =>
      Graph.not_visible_of_internal (hfades.internal hi) hvis
    refine .of_fades ⟨hsound.erase hint hun, ?_⟩ hmoves.settings hreg
      (hfades.trans (.erase _ id))
    -- what is active is so through nodes other than the one that leaves
    have hinst := Graph.instance?_erase (g := (e.withdraw id).graph) hun
    intro k i hi
    have hi' : (e.withdraw id).instance? k = some i := (hinst k).symm.trans hi
    have hk : k ≠ id := by
      rintro rfl
      rw [hun] at hi'
      cases hi'
    refine (hbusy k i hi').transfer (P := fun x => x ≠ id) hk (fun x _ => hinst x) ?_ ?_
    · rintro x hx ⟨n, hn, hs⟩
      exact ⟨n.forget id, Graph.live_erase hx hn, hs⟩
    · rintro x j m hj hm - - rfl
      exact hint (hsound.owning.internal_of_mem (Sound.mem_of_bound (w := .rest _) hj) hm)

end Engine

end PulseFlow
