import Mathlib.Data.Option.Basic
import PulseFlow.Proofs.Filing
import PulseFlow.Proofs.Saving

/-!
# Nodes of a document that is loaded

A document is loaded into a prototype that has only its placeholders.  First these are filed under
their indices, then a node is added for each entry of an inner node.  Entries are in another order
than the numbers of the nodes in the template, so which node was added for which is read off the
indices (`copy?`).

In the end there is one node for each of the template that was saved, and no connection (`Built`).
-/

namespace PulseFlow

open Document

theorem Body.eq_of_constant? {b : Body} {v : Signal} (h : b.constant? = some v) :
    b = .native (.constant v) := by
  cases b with
  | native l =>
    cases l with
    | constant w =>
      cases h
      rfl
    | _ => cases h
  | reference k i => cases h

/-- A node of another graph that does the same and has as many ports. -/
structure Node.Twin (n m : Node) : Prop where
  body : m.body = n.body
  inputs : m.inputs.length = n.inputs.length
  outputs : m.outputs.length = n.outputs.length

/-- The inner nodes of a template can be made from their names. -/
def Prototype.Nameable (r : Registry) (p : Prototype) : Prop :=
  ∀ id n, p.graph.get? id = some n → p.isBoundary id = false → n.body.constant? = none →
    ∀ heap, ∃ m heap', r.makeNode n.key heap = .ok (m, heap') ∧ n.Twin m ∧
      m.LeadsTo fun _ => False

/-! ## Indices -/

namespace Document.Loading

variable {p : Prototype} {t : Template} {r : Registry} {l l' : Loading} {a id new : NodeId}
  {q : PlacedNode} {n m : Node}

/-- The node that was added for a node of the template. -/
def copy? (p : Prototype) (l : Loading) (id : NodeId) : Option NodeId :=
  (p.saveIndex? id).bind fun i => l.indices.lookup i

theorem lookup_eq_copy? (hq : p.Describes id q) : l.indices.lookup q.index = l.copy? p id := by
  rw [copy?, hq.index, Option.bind_some]

theorem claim_ok (hq : p.Describes id q) (hfree : l.copy? p id = none) (t : Template)
    (new : NodeId) :
    ∃ l', l.claim t q.index new = .ok l' ∧ l'.draft = l.draft ∧
      ∀ a, l'.copy? p a = if a = id then some new else l.copy? p a := by
  rw [← lookup_eq_copy? hq] at hfree
  refine ⟨{ l with indices := (q.index, new) :: l.indices }, ?_, rfl, fun a => ?_⟩
  · rw [claim, hfree]
    rfl
  unfold copy?
  cases ha : p.saveIndex? a with
  | none =>
    have hne : a ≠ id := fun he => by
      rw [he, hq.index] at ha
      cases ha
    rw [if_neg hne]
    rfl
  | some i =>
    rw [Option.bind_some, Option.bind_some, List.lookup_cons]
    by_cases hi : i = q.index
    · have he : a = id := Prototype.saveIndex?_injective ha (hi ▸ hq.index)
      simp [hi, he]
    · have hne : a ≠ id := fun he => hi (by
        rw [he, hq.index] at ha
        exact (Option.some.inj ha).symm)
      rw [beq_false_of_ne hi, if_neg hne]

/-! ## Placeholders -/

/-- The induction is on the entries; the number of the first port is what is left over of those
before it. -/
theorem claimBoundary_ok (port? : Prototype → Nat → Except Error NodeId) {ids : List NodeId}
    (news : List NodeId) {placed : List PlacedNode}
    (hdesc : List.Forall₂ p.Describes ids placed) (hids : ids.Nodup)
    (hlen : news.length = ids.length) (hfree : ∀ id ∈ ids, l.copy? p id = none)
    (hport : ∀ j new, news[j]? = some new → port? l.draft.prototype j = .ok new) :
    ∃ l', l.claimBoundary t port? placed = .ok l' ∧ l'.draft = l.draft ∧
      ids.map (l'.copy? p) = news.map some ∧ ∀ a, a ∉ ids → l'.copy? p a = l.copy? p a := by
  have hfrom : ∀ k, (∀ j new, news[j]? = some new → port? l.draft.prototype (k + j) = .ok new) →
      ∃ l', (placed.zipIdx k).foldlM (fun l x => do
        l.claim t x.1.index (← port? l.draft.prototype x.2)) l = .ok l' ∧ l'.draft = l.draft ∧
        ids.map (l'.copy? p) = news.map some ∧ ∀ a, a ∉ ids → l'.copy? p a = l.copy? p a := by
    clear hport
    induction hdesc generalizing l news with
    | nil =>
      intro k _
      rw [List.length_nil, List.length_eq_zero_iff] at hlen
      subst hlen
      exact ⟨l, rfl, rfl, rfl, fun _ _ => rfl⟩
    | @cons id q ids placed hq _ ih =>
      intro k hport
      cases news with
      | nil => cases hlen
      | cons new news =>
        obtain ⟨hid, hids⟩ := List.nodup_cons.1 hids
        obtain ⟨l₁, hclaim, hdraft, hcopy⟩ := claim_ok hq (hfree id List.mem_cons_self) t new
        have hfree₁ : ∀ a ∈ ids, l₁.copy? p a = none := by
          intro a ha
          have hne : a ≠ id := fun he => hid (he ▸ ha)
          rw [hcopy, if_neg hne]
          exact hfree a (List.mem_cons_of_mem id ha)
        have hport₁ : ∀ j new, news[j]? = some new →
            port? l₁.draft.prototype (k + 1 + j) = .ok new := fun j new hj => by
          rw [hdraft, Nat.add_right_comm]
          exact hport (j + 1) new hj
        obtain ⟨l₂, hrest, hdraft₂, hpairs, hkeep⟩ :=
          ih news hids (Nat.succ.inj hlen) hfree₁ (k + 1) hport₁
        have hself : l₂.copy? p id = some new := by rw [hkeep id hid, hcopy, if_pos rfl]
        refine ⟨l₂, ?_, hdraft₂.trans hdraft, ?_, fun a ha => ?_⟩
        · have hzero : port? l.draft.prototype k = .ok new := hport 0 new rfl
          have hstep : (port? l.draft.prototype k >>= fun id => l.claim t q.index id) = .ok l₁ := by
            rw [hzero]
            exact hclaim
          rw [List.zipIdx_cons, List.foldlM_cons]
          exact (congrArg (· >>= _) hstep).trans hrest
        · rw [List.map_cons, List.map_cons, hself, hpairs]
        · rw [List.mem_cons, not_or] at ha
          rw [hkeep a ha.2, hcopy, if_neg ha.1]
  refine hfrom 0 fun j new hj => ?_
  rw [Nat.zero_add]
  exact hport j new hj

/-! ## Inner nodes -/

/-- The draft has one node for each node in `done`, and no others. -/
structure Indexed (p : Prototype) (done : List NodeId) (l : Loading) : Prop where
  fresh : ∀ a, a ∉ done → l.copy? p a = none
  live : ∀ a new, l.copy? p a = some new → ∃ m, l.draft.prototype.graph.get? new = some m
  injective : ∀ a b new, l.copy? p a = some new → l.copy? p b = some new → a = b
  onto : ∀ new m, l.draft.prototype.graph.get? new = some m → ∃ a, l.copy? p a = some new

theorem indexed_of_pairs {ids news : List NodeId} (hpairs : ids.map (l.copy? p) = news.map some)
    (hnews : news.Nodup) (hfresh : ∀ a, a ∉ ids → l.copy? p a = none)
    (hget : ∀ new, new ∈ news ↔ ∃ m, l.draft.prototype.graph.get? new = some m) :
    Indexed p ids l := by
  have hmem : ∀ a new, l.copy? p a = some new → a ∈ ids := fun a new ha => by
    by_contra hmem
    rw [hfresh a hmem] at ha
    cases ha
  refine ⟨hfresh, fun a new ha => ?_, fun a b new ha hb => ?_, fun new m hm => ?_⟩
  · obtain ⟨new', hnew', he⟩ := List.mem_map.1 (hpairs ▸ List.mem_map_of_mem (hmem a new ha))
    cases he.trans ha
    exact (hget new).1 hnew'
  · have hnodup : (ids.map (l.copy? p)).Nodup := by
      rw [hpairs]
      exact hnews.map (Option.some_injective NodeId)
    exact List.inj_on_of_nodup_map hnodup (hmem a new ha) (hmem b new hb) (ha.trans hb.symm)
  · have hsome : some new ∈ ids.map (l.copy? p) := by
      rw [hpairs]
      exact List.mem_map_of_mem ((hget new).2 ⟨m, hm⟩)
    obtain ⟨a, -, ha⟩ := List.mem_map.1 hsome
    exact ⟨a, ha⟩

/-- What was added before stays where it is. -/
theorem Indexed.keep {done : List NodeId} (h : Indexed p done l) (hid : id ∉ done)
    (hcopy : ∀ a, l'.copy? p a = if a = id then some new else l.copy? p a) {b : NodeId}
    (ha : l.copy? p a = some b) : l'.copy? p a = some b := by
  have hne : a ≠ id := fun he => by
    rw [he, h.fresh id hid] at ha
    cases ha
  rw [hcopy, if_neg hne]
  exact ha

theorem Indexed.add {done : List NodeId} (h : Indexed p done l) (hid : id ∉ done)
    (hcopy : ∀ a, l'.copy? p a = if a = id then some new else l.copy? p a)
    (hnew : l.draft.prototype.graph.get? new = none)
    (hget : ∀ b, l'.draft.prototype.graph.get? b =
      if new = b then some m else l.draft.prototype.graph.get? b) : Indexed p (id :: done) l' := by
  have hof : ∀ a b, l'.copy? p a = some b → a = id ∧ b = new ∨ l.copy? p a = some b ∧ b ≠ new := by
    intro a b ha
    rw [hcopy] at ha
    split at ha
    · next he =>
      cases ha
      exact .inl ⟨he, rfl⟩
    · refine .inr ⟨ha, ?_⟩
      rintro rfl
      obtain ⟨m', hm'⟩ := h.live a b ha
      rw [hnew] at hm'
      cases hm'
  refine ⟨fun a ha => ?_, fun a b ha => ?_, fun a b c ha hb => ?_, fun b m' hm' => ?_⟩
  · rw [List.mem_cons, not_or] at ha
    rw [hcopy, if_neg ha.1]
    exact h.fresh a ha.2
  · rw [hget]
    rcases hof a b ha with ⟨-, rfl⟩ | ⟨ha, hne⟩
    · exact ⟨m, if_pos rfl⟩
    · rw [if_neg hne.symm]
      exact h.live a b ha
  · rcases hof a c ha with ⟨rfl, hc⟩ | ⟨ha, hne⟩ <;> rcases hof b c hb with ⟨rfl, hc'⟩ | ⟨hb, hne'⟩
    · rfl
    · exact absurd hc hne'
    · exact absurd hc' hne
    · exact h.injective a b c ha hb
  · rw [hget] at hm'
    split at hm'
    · next he => exact ⟨id, by rw [hcopy, if_pos rfl, he]⟩
    · obtain ⟨a, ha⟩ := h.onto b m' hm'
      exact ⟨a, h.keep hid hcopy ha⟩

/-- A draft in which the nodes in `done` have been added, without connections. -/
structure Built (p : Prototype) (done : List NodeId) (l : Loading) : Prop
    extends Indexed p done l where
  tidy : l.draft.prototype.graph.Tidy
  key : l.draft.prototype.key = p.key
  inputs : p.inputs.map (l.copy? p) = l.draft.prototype.inputs.map some
  outputs : p.outputs.map (l.copy? p) = l.draft.prototype.outputs.map some
  node : ∀ a n, p.graph.get? a = some n → a ∈ done →
    ∃ new m, l.copy? p a = some new ∧ l.draft.prototype.graph.get? new = some m ∧ n.Twin m
  bare : ∀ s t, ¬ Graph.Leads l.draft.prototype.graph s t

theorem Built.congr {done done' : List NodeId} (h : Built p done l)
    (hd : ∀ a, a ∈ done' ↔ a ∈ done) : Built p done' l :=
  { h with
    fresh := fun a ha => h.fresh a (mt (hd a).2 ha)
    node := fun a n hn ha => h.node a n hn ((hd a).1 ha) }

/-- The placeholders are there from the start. -/
theorem built_boundary {d : Draft} (hd : d.prototype.Declared) (hkey : d.prototype.key = p.key)
    (hin : d.prototype.inputs.length = p.inputs.length)
    (hout : d.prototype.outputs.length = p.outputs.length) (hp : p.Drawn) (hs : p.Saves t) :
    ∃ l₁ l₂, claimBoundary t Prototype.boundaryInput ⟨d, []⟩ t.inputs = .ok l₁ ∧
      l₁.claimBoundary t Prototype.boundaryOutput t.outputs = .ok l₂ ∧
      Built p (p.inputs ++ p.outputs) l₂ := by
  obtain ⟨hinputs, houtputs, hdisj⟩ := List.nodup_append.1 hp.distinct
  have hempty : ∀ a, copy? p ⟨d, []⟩ a = none := fun a => by
    unfold copy?
    cases p.saveIndex? a <;> rfl
  obtain ⟨l₁, h₁, hdraft₁, hpairs₁, hkeep₁⟩ := claimBoundary_ok (t := t) (l := ⟨d, []⟩)
    Prototype.boundaryInput d.prototype.inputs hs.inputs hinputs hin (fun id _ => hempty id)
    fun j new hj => by rw [Prototype.boundaryInput, hj]
  have hfree₂ : ∀ id ∈ p.outputs, l₁.copy? p id = none := fun id hid => by
    rw [hkeep₁ id fun hmem => hdisj id hmem id hid rfl]
    exact hempty id
  obtain ⟨l₂, h₂, hdraft₂, hpairs₂, hkeep₂⟩ := claimBoundary_ok (t := t) (l := l₁)
    Prototype.boundaryOutput d.prototype.outputs hs.outputs houtputs hout hfree₂
    fun j new hj => by rw [hdraft₁, Prototype.boundaryOutput, hj]
  have hdraft : l₂.draft = d := hdraft₂.trans hdraft₁
  have hpairs₁ : p.inputs.map (l₂.copy? p) = d.prototype.inputs.map some := by
    rw [← hpairs₁]
    exact List.map_congr_left fun a ha => hkeep₂ a fun hmem => hdisj a ha a hmem rfl
  have hpairs : (p.inputs ++ p.outputs).map (l₂.copy? p) =
      (d.prototype.inputs ++ d.prototype.outputs).map some := by
    rw [List.map_append, List.map_append, hpairs₁, hpairs₂]
  have hfresh : ∀ a, a ∉ p.inputs ++ p.outputs → l₂.copy? p a = none := fun a ha => by
    rw [List.mem_append, not_or] at ha
    rw [hkeep₂ a ha.2, hkeep₁ a ha.1]
    exact hempty a
  subst hdraft
  refine ⟨l₁, l₂, h₁, h₂, indexed_of_pairs hpairs hd.distinct hfresh fun new => ?_, hd.tidy, hkey,
    hpairs₁, hpairs₂, fun a n hn ha => ?_, fun s t => hd.not_leads⟩
  · constructor
    · exact fun hnew => ⟨_, (hd.node new _).2 ⟨hnew, rfl⟩⟩
    · rintro ⟨m, hm⟩
      exact ((hd.node new m).1 hm).1
  · obtain ⟨new, hnew, he⟩ := List.mem_map.1 (hpairs ▸ List.mem_map_of_mem ha)
    obtain ⟨n', hn', hbody, hi, ho⟩ := hp.sockets a ha
    cases hn.symm.trans hn'
    exact ⟨new, _, he.symm, (hd.node new _).2 ⟨hnew, rfl⟩, hbody.symm, hi.symm, ho.symm⟩

/-- A node is added for a node of the template that has none yet. -/
theorem Built.add {done : List NodeId} (h : Built p done l) (hn : p.graph.get? id = some n)
    (hid : id ∉ done) (hq : p.Describes id q) (hm : n.Twin m) (hbare : m.LeadsTo fun _ => False)
    (t : Template) (heap : Heap) :
    ∃ l', claim t { l with draft := ({ l.draft with heap }.addNode m).2 } q.index
        ({ l.draft with heap }.addNode m).1 = .ok l' ∧ Built p (id :: done) l' := by
  let g := l.draft.prototype.graph
  let new := (g.add m).1
  have hnone : g.get? new = none := Slots.get?_add_fst h.tidy m
  have hget : ∀ b, (g.add m).2.get? b = if new = b then some m else g.get? b :=
    Slots.get?_add h.tidy m
  obtain ⟨l', hclaim, hdraft, hcopy⟩ := claim_ok (l := { l with
    draft := ({ l.draft with heap }.addNode m).2 }) hq (h.fresh id hid) t new
  have hcopy : ∀ a, l'.copy? p a = if a = id then some new else l.copy? p a := hcopy
  have hproto : l'.draft.prototype = { l.draft.prototype with graph := (g.add m).2 } :=
    congrArg Draft.prototype hdraft
  have hboundary : ∀ ids news : List NodeId, ids.map (l.copy? p) = news.map some →
      ids.map (l'.copy? p) = news.map some := fun ids news hpairs => by
    rw [← hpairs]
    refine List.map_congr_left fun a ha => ?_
    obtain ⟨b, -, hb⟩ := List.mem_map.1 (hpairs ▸ List.mem_map_of_mem ha)
    rw [← hb]
    exact h.keep hid hcopy hb.symm
  refine ⟨l', hclaim, h.toIndexed.add (m := m) hid hcopy hnone ?_, ?_, ?_, ?_, ?_, ?_, ?_⟩ <;>
    rw [hproto]
  · exact hget
  · exact Slots.tidy_add h.tidy m
  · exact h.key
  · exact hboundary p.inputs _ h.inputs
  · exact hboundary p.outputs _ h.outputs
  · intro a n' hn' ha
    rcases List.mem_cons.1 ha with rfl | ha
    · cases hn.symm.trans hn'
      exact ⟨new, m, by rw [hcopy, if_pos rfl], (hget new).trans (if_pos rfl), hm⟩
    · obtain ⟨b, m', hb, hm', htwin⟩ := h.node a n' hn' ha
      refine ⟨b, m', h.keep hid hcopy hb, (hget b).trans ?_, htwin⟩
      rw [if_neg]
      · exact hm'
      · rintro rfl
        rw [hnone] at hm'
        cases hm'
  · exact fun s t hl => h.bare s t ((Graph.leads_add h.tidy hbare).1 hl)

/-- Adds a node for an entry: by its value if it is a constant, else by its name. -/
def addEntry (t : Template) (r : Registry) (l : Loading) (x : PlacedNode × Option Signal) :
    Except Error Loading :=
  match x.2 with
  | none => l.addNamed t r x.1
  | some v => l.addConstant t x.1 v

theorem addEntry_built {done : List NodeId} {x : PlacedNode × Option Signal} (h : Built p done l)
    (hfiled : p.Filed r.catalog) (hnames : p.Nameable r) (hid : id ∈ p.innerNodes)
    (hnew : id ∉ done) (hx : p.Enters id x) :
    ∃ l', addEntry t r l x = .ok l' ∧ Built p (id :: done) l' := by
  obtain ⟨hlive, hinner⟩ := Prototype.mem_innerNodes.1 hid
  obtain ⟨n, hn⟩ := Option.isSome_iff_exists.1 hlive
  have hvalue : n.body.constant? = x.2 := by
    rw [← hx.value, Prototype.constant?, hn, Option.bind_some]
  obtain ⟨q, value⟩ := x
  cases value with
  | none =>
    obtain ⟨m, heap, hmake, hm, hbare⟩ := hnames id n hn hinner hvalue l.draft.heap
    obtain ⟨hcategory, hidentifier⟩ := hx.name n hn rfl
    obtain ⟨l', hclaim, hbuilt⟩ := h.add hn hnew hx.describes hm hbare t heap
    refine ⟨l', ?_, hbuilt⟩
    have hadd : l.draft.add r ⟨n.key.category, n.key.identifier⟩ = .ok ({ l.draft with heap }.addNode m) := by
      rw [Draft.add, hmake]
      rfl
    show l.addNamed t r q = .ok l'
    rw [addNamed, hcategory, hidentifier]
    dsimp only
    rw [hadd]
    exact hclaim
  | some v =>
    have hbody : n.body = .native (.constant v) := Body.eq_of_constant? hvalue
    obtain ⟨hi, ho, -⟩ := hfiled id n hn hinner _ hbody
    have hm : n.Twin (Node.native (.constant v)) :=
      ⟨hbody.symm, List.length_replicate.trans hi.symm, List.length_replicate.trans ho.symm⟩
    exact h.add hn hnew hx.describes hm (Node.leadsTo_make _ _ _ _ _) t l.draft.heap

theorem entries_built {done ids : List NodeId} {xs : List (PlacedNode × Option Signal)}
    (h : Built p done l) (hfiled : p.Filed r.catalog) (hnames : p.Nameable r)
    (hids : ids.Nodup) (hinner : ∀ id ∈ ids, id ∈ p.innerNodes) (hnew : ∀ id ∈ ids, id ∉ done)
    (hxs : List.Forall₂ p.Enters ids xs) :
    ∃ l', xs.foldlM (addEntry t r) l = .ok l' ∧ Built p (ids ++ done) l' := by
  induction hxs generalizing l done with
  | nil => exact ⟨l, rfl, h⟩
  | @cons id x ids xs hx _ ih =>
    obtain ⟨hid, hids⟩ := List.nodup_cons.1 hids
    obtain ⟨l₁, h₁, hb₁⟩ := addEntry_built (t := t) h hfiled hnames (hinner id List.mem_cons_self)
      (hnew id List.mem_cons_self) hx
    have hnew₁ : ∀ a ∈ ids, a ∉ id :: done := fun a ha hmem => by
      rcases List.mem_cons.1 hmem with rfl | hmem
      · exact hid ha
      · exact hnew a (List.mem_cons_of_mem id ha) hmem
    obtain ⟨l₂, h₂, hb₂⟩ := ih hb₁ hids (fun a ha => hinner a (List.mem_cons_of_mem id ha)) hnew₁
    refine ⟨l₂, ?_, hb₂.congr fun a => ?_⟩
    · rw [List.foldlM_cons, h₁]
      exact h₂
    · simp only [List.mem_append, List.mem_cons, List.cons_append]
      tauto

end Document.Loading

end PulseFlow
