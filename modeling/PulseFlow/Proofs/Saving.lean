import Mathlib.Data.List.Perm.Basic
import PulseFlow.Document.Import
import PulseFlow.Proofs.Drawings

/-!
# What a document says about a template

A document that was saved has one entry for each node of the template.  The entry gives the index
of the node, where it is drawn and what it leads to, by index (`Describes`).  Entries of inner nodes
are sorted into lists by kind; taken together they are the inner nodes in another order (`Saves`).

    p.save = .ok t → p.Saves t                                               (save_saves)
-/

namespace PulseFlow

open Document

theorem forall₂_of_mapM {α β : Type} {f : α → Except Error β} {l : List α} {l' : List β}
    (h : l.mapM f = .ok l') : List.Forall₂ (fun a b => f a = .ok b) l l' := by
  induction l generalizing l' with
  | nil =>
    cases h
    exact .nil
  | cons a l ih =>
    rw [List.mapM_cons] at h
    obtain ⟨b, hb, h⟩ := ok_of_bind h
    obtain ⟨bs, hbs, h⟩ := ok_of_bind h
    cases h
    exact .cons hb (ih hbs)

theorem exists_mem_of_forall₂ {α β : Type} {R : α → β → Prop} {l : List α} {m : List β}
    (h : List.Forall₂ R l m) {a : α} (ha : a ∈ l) : ∃ b ∈ m, R a b := by
  induction h with
  | nil => cases ha
  | @cons a' b l m hab _ ih =>
    rcases List.mem_cons.1 ha with rfl | ha
    · exact ⟨b, List.mem_cons_self, hab⟩
    · obtain ⟨b', hb', hR⟩ := ih ha
      exact ⟨b', List.mem_cons_of_mem b hb', hR⟩

theorem exists_mem_of_forall₂_right {α β : Type} {R : α → β → Prop} {l : List α} {m : List β}
    (h : List.Forall₂ R l m) {b : β} (hb : b ∈ m) : ∃ a ∈ l, R a b :=
  exists_mem_of_forall₂ h.flip hb

/-! ## Entries of a document -/

namespace Document

/-- The inner nodes in the order in which they are loaded, constants with their values. -/
def InnerNodes.entries (nodes : InnerNodes) : List (PlacedNode × Option Signal) :=
  nodes.named.map (fun q => (q, none))
    ++ nodes.ints.map (fun c => (c.node, some (.int c.value)))
    ++ nodes.reals.map (fun c => (c.node, some (.real c.value)))
    ++ nodes.texts.map (fun c => (c.node, some (.text c.value)))
    ++ nodes.nans.map (fun q => (q, some .nan))

/-- The list in which a node is entered, by its value if it is a constant. -/
def shelf : Option Signal → Nat
  | none => 0
  | some (.int _) => 1
  | some (.real _) => 2
  | some (.text _) => 3
  | some .nan => 4
  | some (.array _) => 5

theorem Template.placed_eq (t : Template) :
    t.placed = t.inputs ++ t.outputs ++ t.nodes.entries.map Prod.fst := by
  simp [placed, InnerNodes.entries, Function.comp_def]

end Document

/-! ## The order of saving -/

namespace Prototype

variable {p : Prototype} {id a b : NodeId} {i : Nat} {q : PlacedNode} {n : Node} {t : Template}

theorem mem_innerNodes : id ∈ p.innerNodes ↔
    (p.graph.get? id).isSome = true ∧ p.isBoundary id = false := by
  simp [innerNodes, Slots.mem_ids]

theorem isBoundary_iff : p.isBoundary id = true ↔ id ∈ p.inputs ++ p.outputs := by
  simp [isBoundary]

theorem mem_saveOrder (h : p.Drawn) : id ∈ p.saveOrder ↔ (p.graph.get? id).isSome = true := by
  rw [saveOrder, List.mem_append, mem_innerNodes]
  constructor
  · rintro (hid | ⟨hid, -⟩)
    · obtain ⟨n, hn, -⟩ := h.sockets id hid
      rw [hn, Option.isSome_some]
    · exact hid
  · intro hid
    cases hb : p.isBoundary id with
    | true => exact .inl (isBoundary_iff.1 hb)
    | false => exact .inr ⟨hid, rfl⟩

theorem nodup_saveOrder (h : p.Drawn) : p.saveOrder.Nodup := by
  refine List.nodup_append.2 ⟨h.distinct, ?_, fun a ha b hb hab => ?_⟩
  · exact (List.nodup_range.filter _).filter _
  · subst hab
    have hfalse := (mem_innerNodes.1 hb).2
    rw [isBoundary_iff.2 ha] at hfalse
    cases hfalse

/-- No two nodes have the same index. -/
theorem saveIndex?_injective (ha : p.saveIndex? a = some i) (hb : p.saveIndex? b = some i) :
    a = b := by
  obtain ⟨_, ha, -⟩ := List.idxOf?_eq_some_iff.1 ha
  obtain ⟨_, hb, -⟩ := List.idxOf?_eq_some_iff.1 hb
  exact ha.symm.trans hb

theorem saveIndex?_of_mem (h : id ∈ p.saveOrder) : ∃ i, p.saveIndex? id = some i :=
  Option.isSome_iff_exists.1 (List.isSome_idxOf?.2 h)

/-! ## Descriptions -/

/-- What the entry of a node says about it. -/
structure Describes (p : Prototype) (id : NodeId) (q : PlacedNode) : Prop where
  index : p.saveIndex? id = some q.index
  spot : (⟨q.x, q.y⟩ : Placement) = p.placement id
  edges : ∀ port edge, (∃ edges, q.outputs[port]? = some edges ∧ edge ∈ edges) ↔
    ∃ t, Graph.Leads p.graph ⟨id, port⟩ t ∧ p.saveIndex? t.node = some edge.node ∧
      t.port = edge.socket

/-- What the entry of an inner node says about it. -/
structure Enters (p : Prototype) (id : NodeId) (x : PlacedNode × Option Signal) : Prop where
  describes : p.Describes id x.1
  value : p.constant? id = x.2
  name : ∀ n, p.graph.get? id = some n → x.2 = none →
    x.1.category = some n.key.category ∧ x.1.identifier = some n.key.identifier

/-- An entry lists an edge for everything that an output leads to. -/
theorem Describes.edge_of_leads (h : p.Describes id q) (hp : p.Drawn) {port : Nat}
    {target : Socket} (hl : Graph.Leads p.graph ⟨id, port⟩ target) :
    ∃ edges i, q.outputs[port]? = some edges ∧ p.saveIndex? target.node = some i ∧
      ⟨i, target.port⟩ ∈ edges := by
  obtain ⟨n, hn⟩ := (hp.plugged _ _ hl).live
  obtain ⟨i, hi⟩ := saveIndex?_of_mem ((mem_saveOrder hp).2 (by rw [hn, Option.isSome_some]))
  obtain ⟨edges, hedges, hmem⟩ := (h.edges port ⟨i, target.port⟩).2 ⟨target, hl, hi, rfl⟩
  exact ⟨edges, i, hedges, hi, hmem⟩

theorem mem_saveFan {f : Fan} {edge : Document.Edge} :
    edge ∈ p.saveFan f ↔
      ∃ t ∈ f, p.saveIndex? t.node = some edge.node ∧ t.port = edge.socket := by
  simp only [saveFan, List.mem_filterMap, Option.map_eq_some_iff, SortedSet.mem_toList]
  constructor
  · rintro ⟨t, ht, i, hi, rfl⟩
    exact ⟨t, ht, hi, rfl⟩
  · rintro ⟨t, ht, hi, hp⟩
    exact ⟨t, ht, edge.node, hi, by rw [hp]⟩

theorem saveNode_describes (hid : id ∈ p.saveOrder) (h : p.saveNode id = .ok q) :
    p.Describes id q := by
  obtain ⟨n, hn, h⟩ := ok_of_bind h
  cases h
  have hn := Graph.find_ok hn
  obtain ⟨i, hi⟩ := saveIndex?_of_mem hid
  refine ⟨by rw [hi, Option.getD_some], rfl, fun port edge => ?_⟩
  simp only [Graph.leads_of_get? (s := ⟨id, port⟩) hn, List.getElem?_map, Option.map_eq_some_iff]
  constructor
  · rintro ⟨edges, ⟨f, hf, rfl⟩, hedge⟩
    obtain ⟨t, ht, hnode, hport⟩ := mem_saveFan.1 hedge
    exact ⟨t, ⟨f, hf, ht⟩, hnode, hport⟩
  · rintro ⟨t, ⟨f, hf, ht⟩, hnode, hport⟩
    exact ⟨_, ⟨f, hf, rfl⟩, mem_saveFan.2 ⟨t, ht, hnode, hport⟩⟩

/-- A name more changes nothing of what is described. -/
theorem Describes.named (h : p.Describes id q) (key : Key) : p.Describes id
    { q with category := some key.category, identifier := some key.identifier } :=
  ⟨h.index, h.spot, h.edges⟩

/-- Filing an inner node adds an entry for it, after those of its list and before those of the
lists that follow. -/
theorem saveInner_inserts {nodes nodes' : InnerNodes} (hid : id ∈ p.saveOrder)
    (h : p.saveInner nodes id = .ok nodes') :
    ∃ x before after, p.Enters id x ∧ nodes.entries = before ++ after ∧
      nodes'.entries = before ++ x :: after ∧ ∀ y ∈ after, shelf x.2 < shelf y.2 := by
  obtain ⟨q, hq, h⟩ := ok_of_bind h
  obtain ⟨n, hn, h⟩ := ok_of_bind h
  have hdesc := saveNode_describes hid hq
  have hn := Graph.find_ok hn
  have hvalue : p.constant? id = n.body.constant? := by rw [constant?, hn, Option.bind_some]
  have hconst : ∀ v, n.body.constant? = some v → p.Enters id (q, some v) := fun v hv =>
    ⟨hdesc, hvalue.trans hv, fun _ _ hnone => by cases hnone⟩
  let named := nodes.named.map fun q => (q, (none : Option Signal))
  let ints := nodes.ints.map fun c => (c.node, some (Signal.int c.value))
  let reals := nodes.reals.map fun c => (c.node, some (Signal.real c.value))
  let texts := nodes.texts.map fun c => (c.node, some (Signal.text c.value))
  let nans := nodes.nans.map fun q => (q, some Signal.nan)
  split at h
  · next value hc =>
    cases h
    refine ⟨_, named ++ ints, reals ++ texts ++ nans, hconst _ hc, ?_, ?_, fun y hy => ?_⟩
    · simp [InnerNodes.entries, named, ints, reals, texts, nans]
    · simp [InnerNodes.entries, named, ints, reals, texts, nans]
    · simp only [reals, texts, nans, List.mem_append, List.mem_map] at hy
      rcases hy with (⟨_, -, rfl⟩ | ⟨_, -, rfl⟩) | ⟨_, -, rfl⟩ <;> simp [shelf]
  · next value hc =>
    split at h
    · cases h
      refine ⟨_, named ++ ints ++ reals, texts ++ nans, hconst _ hc, ?_, ?_, fun y hy => ?_⟩
      · simp [InnerNodes.entries, named, ints, reals, texts, nans]
      · simp [InnerNodes.entries, named, ints, reals, texts, nans]
      · simp only [texts, nans, List.mem_append, List.mem_map] at hy
        rcases hy with ⟨_, -, rfl⟩ | ⟨_, -, rfl⟩ <;> simp [shelf]
    · cases h
  · next value hc =>
    cases h
    refine ⟨_, named ++ ints ++ reals ++ texts, nans, hconst _ hc, ?_, ?_, fun y hy => ?_⟩
    · simp [InnerNodes.entries, named, ints, reals, texts, nans]
    · simp [InnerNodes.entries, named, ints, reals, texts, nans]
    · simp only [nans, List.mem_map] at hy
      obtain ⟨_, -, rfl⟩ := hy
      simp [shelf]
  · next hc =>
    cases h
    refine ⟨_, nodes.entries, [], hconst _ hc, ?_, ?_, fun y hy => ?_⟩
    · rw [List.append_nil]
    · simp [InnerNodes.entries]
    · cases hy
  · cases h
  · next hc =>
    cases h
    refine ⟨(_, none), named, ints ++ reals ++ texts ++ nans,
      ⟨hdesc.named n.key, hvalue.trans hc, fun m hm _ => ?_⟩, ?_, ?_, fun y hy => ?_⟩
    · cases hn.symm.trans hm
      exact ⟨rfl, rfl⟩
    · simp [InnerNodes.entries, named, ints, reals, texts, nans]
    · simp [InnerNodes.entries, named, ints, reals, texts, nans]
    · simp only [ints, reals, texts, nans, List.mem_append, List.mem_map] at hy
      rcases hy with ((⟨_, -, rfl⟩ | ⟨_, -, rfl⟩) | ⟨_, -, rfl⟩) | ⟨_, -, rfl⟩ <;> simp [shelf]

theorem saveInner_enters {nodes nodes' : InnerNodes} (hid : id ∈ p.saveOrder)
    (h : p.saveInner nodes id = .ok nodes') :
    ∃ x, p.Enters id x ∧ nodes'.entries.Perm (x :: nodes.entries) := by
  obtain ⟨x, before, after, hx, hold, hnew, -⟩ := saveInner_inserts hid h
  rw [hold, hnew]
  exact ⟨x, hx, List.perm_middle⟩

/-- The document of a template. -/
structure Saves (p : Prototype) (t : Template) : Prop where
  key : t.key = p.key
  canvas : t.canvas = p.canvas
  inputs : List.Forall₂ p.Describes p.inputs t.inputs
  outputs : List.Forall₂ p.Describes p.outputs t.outputs
  inner : ∃ ids, ids.Perm p.innerNodes ∧ List.Forall₂ p.Enters ids t.nodes.entries

theorem saveInner_foldlM {ids : List NodeId} {nodes nodes' : InnerNodes}
    (hids : ∀ id ∈ ids, id ∈ p.saveOrder) (h : ids.foldlM p.saveInner nodes = .ok nodes') :
    ∃ xs, List.Forall₂ p.Enters ids xs ∧ nodes'.entries.Perm (xs ++ nodes.entries) := by
  induction ids generalizing nodes with
  | nil =>
    cases h
    exact ⟨[], .nil, .refl _⟩
  | cons id ids ih =>
    rw [List.foldlM_cons] at h
    obtain ⟨nodes₁, h₁, h⟩ := ok_of_bind h
    obtain ⟨x, hx, hperm⟩ := saveInner_enters (hids id List.mem_cons_self) h₁
    obtain ⟨xs, hxs, hperms⟩ := ih (fun a ha => hids a (List.mem_cons_of_mem id ha)) h
    exact ⟨x :: xs, .cons hx hxs, (hperms.trans (hperm.append_left xs)).trans List.perm_middle⟩

theorem save_saves (h : p.save = .ok t) : p.Saves t := by
  obtain ⟨inputs, hin, h⟩ := ok_of_bind h
  obtain ⟨outputs, hout, h⟩ := ok_of_bind h
  obtain ⟨nodes, hnodes, h⟩ := ok_of_bind h
  cases h
  have hdescribe : ∀ {ids placed}, ids.mapM p.saveNode = .ok placed →
      (∀ id ∈ ids, id ∈ p.saveOrder) → List.Forall₂ p.Describes ids placed := by
    intro ids placed hm hids
    have hsaved := forall₂_of_mapM hm
    clear hm
    induction hsaved with
    | nil => exact .nil
    | cons hq _ ih =>
      exact .cons (saveNode_describes (hids _ List.mem_cons_self) hq)
        (ih fun a ha => hids a (List.mem_cons_of_mem _ ha))
  have hinner : ∀ id ∈ p.innerNodes, id ∈ p.saveOrder := fun id hid => List.mem_append_right _ hid
  obtain ⟨xs, hxs, hperm⟩ := saveInner_foldlM hinner hnodes
  have hperm : nodes.entries.Perm xs := by simpa [InnerNodes.entries] using hperm
  obtain ⟨ids, hids, hpermed⟩ := List.perm_comp_forall₂ (r := flip p.Enters) hperm hxs.flip
  refine ⟨rfl, rfl, hdescribe hin fun id hid => ?_, hdescribe hout fun id hid => ?_, ids, hpermed,
    hids.flip⟩
  · exact List.mem_append_left _ (List.mem_append_left _ hid)
  · exact List.mem_append_left _ (List.mem_append_right _ hid)

/-- The entries of a document are those of the nodes of the template, in another order. -/
theorem Saves.order (h : p.Saves t) :
    ∃ ids, ids.Perm p.innerNodes ∧ List.Forall₂ p.Enters ids t.nodes.entries ∧
      List.Forall₂ p.Describes (p.inputs ++ p.outputs ++ ids) t.placed := by
  obtain ⟨ids, hperm, hxs⟩ := h.inner
  refine ⟨ids, hperm, hxs, ?_⟩
  rw [Template.placed_eq]
  refine List.rel_append (List.rel_append h.inputs h.outputs) ?_
  exact List.forall₂_map_right_iff.2 (hxs.imp fun _ _ hx => hx.describes)

/-- The entries of a document describe exactly the nodes of the template. -/
theorem Saves.describes (h : p.Saves t) :
    ∃ ids, (∀ id, id ∈ ids ↔ id ∈ p.saveOrder) ∧ List.Forall₂ p.Describes ids t.placed := by
  obtain ⟨ids, hperm, -, hdesc⟩ := h.order
  refine ⟨p.inputs ++ p.outputs ++ ids, fun id => ?_, hdesc⟩
  rw [saveOrder, List.mem_append, List.mem_append (s := p.inputs ++ p.outputs), hperm.mem_iff]

end Prototype

end PulseFlow
