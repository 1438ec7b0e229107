import PulseFlow.Proofs.Rewiring

/-!
# The numbers of loaded nodes

A node that is loaded gets the next number, so each is numbered by the place of its entry in the
document (`Follows`).  Entries of inner nodes are sorted by kind, so the nodes of a template that
was loaded are too (`Arranged`), and the document of such a template lists them in their own order.

    t.build r d = .ok l → l.indices = ((t.placed.map index).zipIdx).reverse    (indices_build)
    p.Saves t → p.Follows t f → p.IsomorphicBy q f → q.Arranged                (Saves.arranged)
    q.Arranged → q.save = .ok t → Forall₂ q.Describes q.saveOrder t.placed     (Arranged.entered)
-/

namespace PulseFlow

open Document

theorem increasing_range (n : Nat) : Increasing (List.range n) :=
  List.pairwise_lt_range.imp fun h => Nat.compare_eq_lt.2 h

theorem Slots.increasing_ids {α : Type} (s : Slots α) : Increasing s.ids :=
  (increasing_range _).filter _

/-! ## Loading in order -/

namespace Document.Loading

variable {t : Template} {r : Registry} {l l' : Loading} {id : NodeId}

theorem eq_of_claim {index : Nat} (h : l.claim t index id = .ok l') :
    l' = { l with indices := (index, id) :: l.indices } := by
  unfold claim at h
  split at h
  · cases h
  · cases h
    rfl

/-- Placeholders are filed in the order of their ports. -/
theorem eq_of_claimBoundary {port? : Prototype → Nat → Except Error NodeId}
    {placed : List PlacedNode} {base : Nat}
    (hport : ∀ j id, port? l.draft.prototype j = .ok id → id = base + j)
    (h : l.claimBoundary t port? placed = .ok l') :
    l' = { l with
      indices := ((placed.map PlacedNode.index).zipIdx base).reverse ++ l.indices } := by
  have hfrom : ∀ k l', (placed.zipIdx k).foldlM (fun l x => do
      l.claim t x.1.index (← port? l.draft.prototype x.2)) l = .ok l' →
      l' = { l with indices :=
        ((placed.map PlacedNode.index).zipIdx (base + k)).reverse ++ l.indices } := by
    clear h
    induction placed generalizing l with
    | nil =>
      intro k l' h
      cases h
      rfl
    | cons q placed ih =>
      intro k l' h
      rw [List.zipIdx_cons, List.foldlM_cons] at h
      obtain ⟨l₁, hq, h⟩ := ok_of_bind h
      obtain ⟨id, hid, hq⟩ := ok_of_bind hq
      have hid : id = base + k := hport k id hid
      have hl₁ : l₁ = { l with indices := (q.index, base + k) :: l.indices } :=
        hid ▸ eq_of_claim hq
      subst hl₁
      have hrest :=
        ih (l := { l with indices := (q.index, base + k) :: l.indices }) hport (k + 1) l' h
      rw [hrest, List.map_cons, List.zipIdx_cons, List.reverse_cons, Nat.add_assoc]
      simp
  exact hfrom 0 l' h

/-- Nothing was ever taken out of the draft. -/
def Packed (l : Loading) (size : Nat) : Prop :=
  l.draft.prototype.graph.vacant = [] ∧ l.draft.prototype.graph.cells.size = size

/-- A node that is made gets the next number. -/
theorem Packed.add {size index : Nat} (h : l.Packed size) {m : Node} {heap : Heap}
    (hclaim : claim t { l with draft := ({ l.draft with heap }.addNode m).2 } index
      ({ l.draft with heap }.addNode m).1 = .ok l') :
    l'.Packed (size + 1) ∧ l'.indices = (index, size) :: l.indices := by
  obtain ⟨hvacant, rfl⟩ := h
  rw [eq_of_claim hclaim]
  unfold Packed Draft.addNode
  dsimp only
  rw [Slots.add_of_packed hvacant]
  exact ⟨⟨hvacant, Array.size_push _⟩, rfl⟩

theorem Packed.addEntry {size : Nat} (h : l.Packed size) {x : PlacedNode × Option Signal}
    (hl : Loading.addEntry t r l x = .ok l') :
    l'.Packed (size + 1) ∧ l'.indices = (x.1.index, size) :: l.indices := by
  obtain ⟨q, value⟩ := x
  cases value with
  | some v =>
    have hclaim : claim t { l with draft := ({ l.draft with heap := l.draft.heap }.addNode
        (Node.native (.constant v))).2 } q.index ({ l.draft with heap := l.draft.heap }.addNode
        (Node.native (.constant v))).1 = .ok l' := hl
    exact h.add hclaim
  | none =>
    change l.addNamed t r q = .ok l' at hl
    unfold addNamed at hl
    split at hl
    · dsimp only at hl
      split at hl
      · next id d hadd =>
        obtain ⟨⟨m, heap⟩, -, hadd⟩ := ok_of_bind hadd
        cases hadd
        exact h.add hl
      · cases hl
      · cases hl
    · cases hl

theorem Packed.addEntries {size : Nat} (h : l.Packed size) {xs : List (PlacedNode × Option Signal)}
    (hl : xs.foldlM (Loading.addEntry t r) l = .ok l') :
    l'.indices = ((xs.map fun x => x.1.index).zipIdx size).reverse ++ l.indices := by
  induction xs generalizing l size with
  | nil =>
    cases hl
    rfl
  | cons x xs ih =>
    rw [List.foldlM_cons] at hl
    obtain ⟨l₁, hx, hl⟩ := ok_of_bind hl
    obtain ⟨hpacked, hindices⟩ := h.addEntry hx
    rw [ih hpacked hl, hindices]
    simp

end Document.Loading

/-- All entries are filed in the order of the document. -/
theorem Document.Template.indices_build {t : Template} {r : Registry} {d : Draft} {l : Loading}
    (hd : d.prototype.Declared) (hin : d.prototype.inputs.length = t.inputs.length)
    (hout : d.prototype.outputs.length = t.outputs.length) (h : t.build r d = .ok l) :
    l.indices = ((t.placed.map PlacedNode.index).zipIdx).reverse := by
  obtain ⟨l₁, h₁, h⟩ := ok_of_bind h
  obtain ⟨l₂, h₂, h⟩ := ok_of_bind h
  have hnumber : ∀ (j : Nat) id,
      (d.prototype.inputs ++ d.prototype.outputs)[j]? = some id → id = j := by
    intro j id hj
    rw [hd.order, List.getElem?_range] at hj
    all_goals grind
  have hsize : d.prototype.graph.cells.size = t.inputs.length + t.outputs.length := by
    rw [← hin, ← hout, ← List.length_append, hd.order, List.length_range]
  have hport₁ : ∀ j id, d.prototype.boundaryInput j = .ok id → id = 0 + j := by
    intro j id hj
    unfold Prototype.boundaryInput at hj
    split at hj
    · next hget =>
      cases hj
      rw [Nat.zero_add]
      refine hnumber j _ ?_
      rw [List.getElem?_append_left (List.getElem?_eq_some_iff.1 hget).1, hget]
    · cases hj
  have hl₁ := Loading.eq_of_claimBoundary (l := ⟨d, []⟩) hport₁ h₁
  have hport₂ : ∀ j id, l₁.draft.prototype.boundaryOutput j = .ok id →
      id = t.inputs.length + j := by
    intro j id hj
    rw [hl₁] at hj
    unfold Prototype.boundaryOutput at hj
    split at hj
    · next hget =>
      cases hj
      refine hnumber _ _ ?_
      rw [← hin, List.getElem?_append_right (Nat.le_add_right _ _), Nat.add_sub_cancel_left]
      exact hget
    · cases hj
  have hl₂ := Loading.eq_of_claimBoundary hport₂ h₂
  have hpacked : l₂.Packed (t.inputs.length + t.outputs.length) := by
    rw [hl₂, hl₁]
    exact ⟨hd.packed, hsize⟩
  rw [hpacked.addEntries h, hl₂, hl₁, placed_eq]
  simp [List.zipIdx_append, Function.comp_def]

namespace Prototype

variable {p q : Prototype} {t : Template} {f : NodeId → NodeId}

/-! ## Templates as they are loaded -/

/-- Each node is renamed to the place of its entry. -/
def Follows (p : Prototype) (t : Template) (f : NodeId → NodeId) : Prop :=
  ∀ k x a, t.placed[k]? = some x → p.Describes a x → f a = k

theorem Saves.nodup_index (hs : p.Saves t) (hp : p.Drawn) :
    (t.placed.map PlacedNode.index).Nodup := by
  obtain ⟨ids, hperm, -, hdesc⟩ := hs.order
  have hnodup : (p.inputs ++ p.outputs ++ ids).Nodup :=
    ((hperm.append_left _).nodup_iff).2 (nodup_saveOrder hp)
  generalize p.inputs ++ p.outputs ++ ids = order at hdesc hnodup
  generalize t.placed = placed at hdesc
  induction hdesc with
  | nil => exact List.nodup_nil
  | @cons a x order placed hx hdesc ih =>
    obtain ⟨ha, hnodup⟩ := List.nodup_cons.1 hnodup
    refine List.nodup_cons.2 ⟨fun hmem => ?_, ih hnodup⟩
    obtain ⟨y, hy, hxy⟩ := List.mem_map.1 hmem
    obtain ⟨b, hb, hyb⟩ := exists_mem_of_forall₂_right hdesc hy
    exact ha (saveIndex?_injective hx.index (hxy ▸ hyb.index) ▸ hb)

theorem Saves.follows (hs : p.Saves t) (hp : p.Drawn) {l : Loading}
    (hl : l.indices = ((t.placed.map PlacedNode.index).zipIdx).reverse) :
    p.Follows t fun a => (l.copy? p a).getD 0 := by
  intro k x a hk hx
  have hkeys : (l.indices.map Prod.fst).Nodup := by
    rw [hl, List.map_reverse, List.zipIdx_map_fst]
    exact List.nodup_reverse.2 (hs.nodup_index hp)
  have hmem : (x.index, k) ∈ l.indices := by
    rw [hl, List.mem_reverse, List.mk_mem_zipIdx_iff_getElem?, List.getElem?_map, hk]
    rfl
  show (l.copy? p a).getD 0 = k
  rw [← Loading.lookup_eq_copy? hx, lookup_eq_of_mem hkeys hmem, Option.getD_some]

/-- A template that was saved can be loaded, and its nodes are numbered as they stand in the
document. -/
theorem Saves.load_follows (hs : p.Saves t) (hp : p.Drawn) {r : Registry}
    (hfiled : p.Filed r.catalog) (hnames : p.Nameable r) {d : Draft} (hd : d.prototype.Declared)
    (hkey : d.prototype.key = p.key) (hin : d.prototype.inputs.length = p.inputs.length)
    (hout : d.prototype.outputs.length = p.outputs.length) :
    ∃ d', t.load r d = .ok d' ∧ ∃ f, p.IsomorphicBy d'.prototype f ∧ p.Follows t f := by
  obtain ⟨l, d', hbuild, hload, hiso⟩ := hs.load_by hp hfiled hnames hd hkey hin hout
  have hindices := Template.indices_build hd (hin.trans hs.inputs.length_eq)
    (hout.trans hs.outputs.length_eq) hbuild
  exact ⟨d', hload, _, hiso, hs.follows hp hindices⟩

end Prototype

/-! ## Templates in order -/

/-- The entries of inner nodes are sorted by kind. -/
theorem Document.InnerNodes.pairwise_shelf (nodes : InnerNodes) :
    (nodes.entries.map fun x => shelf x.2).Pairwise (· ≤ ·) := by
  have hshelves : nodes.entries.map (fun x => shelf x.2) =
      List.replicate nodes.named.length 0 ++ List.replicate nodes.ints.length 1 ++
        List.replicate nodes.reals.length 2 ++ List.replicate nodes.texts.length 3 ++
        List.replicate nodes.nans.length 4 := by
    simp [entries, shelf, Function.comp_def]
  rw [hshelves]
  simp only [List.pairwise_append, List.pairwise_replicate, List.mem_append, List.mem_replicate]
  grind

namespace Prototype

variable {p q : Prototype} {t : Template} {f : NodeId → NodeId} {a : NodeId} {n : Node}

/-- A template whose nodes stand in the order in which they are saved. -/
structure Arranged (q : Prototype) : Prop where
  order : ∃ n, q.saveOrder = List.range n
  shelves : (q.innerNodes.map fun id => shelf (q.constant? id)).Pairwise (· ≤ ·)

theorem SameNodes.constant?_eq (h : p.SameNodes q f) (ha : p.graph.get? a = some n) :
    q.constant? (f a) = p.constant? a := by
  obtain ⟨m, hm, htwin⟩ := h.node a n ha
  rw [constant?, constant?, ha, hm, Option.bind_some, Option.bind_some, htwin.body]

theorem Follows.map_range (h : p.Follows t f) {order : List NodeId}
    (hdesc : List.Forall₂ p.Describes order t.placed) :
    order.map f = List.range t.placed.length := by
  obtain ⟨hlen, hget⟩ := List.forall₂_iff_get.1 hdesc
  refine List.ext_getElem (by simp [hlen]) fun k hk hk' => ?_
  rw [List.length_map] at hk
  have hk₂ : k < t.placed.length := hlen ▸ hk
  rw [List.getElem_map, List.getElem_range]
  exact h k t.placed[k] order[k] (List.getElem?_eq_getElem hk₂) (hget k hk hk₂)

/-- A template that was loaded stands in order. -/
theorem Saves.arranged (hs : p.Saves t) (hp : p.Drawn) (hiso : p.SameNodes q f)
    (hf : p.Follows t f) : q.Arranged := by
  obtain ⟨ids, hperm, hxs, hdesc⟩ := hs.order
  set m := t.placed.length
  have hmap : (p.inputs ++ p.outputs ++ ids).map f = List.range m := hf.map_range hdesc
  have horder : q.inputs ++ q.outputs ++ ids.map f = List.range m := by
    rw [← hmap, hiso.inputs, hiso.outputs, List.map_append, List.map_append]
  have hnodup : (q.inputs ++ q.outputs ++ ids.map f).Nodup := horder ▸ List.nodup_range
  have hlive : ∀ x, (q.graph.get? x).isSome = true ↔ x ∈ List.range m := by
    intro x
    rw [← hmap, List.mem_map]
    have hmem : ∀ a, a ∈ p.inputs ++ p.outputs ++ ids ↔ (p.graph.get? a).isSome = true := by
      intro a
      rw [← mem_saveOrder hp, saveOrder, List.mem_append, hperm.mem_iff, ← List.mem_append]
    simp only [hmem]
    have himage := Set.ext_iff.1 hiso.bijOn.image_eq x
    exact himage.symm
  have hinner : q.innerNodes = ids.map f := by
    refine Increasing.eq_of_mem_iff (q.graph.increasing_ids.filter _) ?_ fun x => ?_
    · exact (increasing_range m).sublist (horder ▸ List.sublist_append_right _ _)
    · have hboundary : q.isBoundary x = false ↔ x ∉ q.inputs ++ q.outputs := by
        rw [← isBoundary_iff, Bool.not_eq_true]
      have hdisj := (List.nodup_append.1 hnodup).2.2
      rw [mem_innerNodes, hlive, hboundary, ← horder, List.mem_append]
      constructor
      · rintro ⟨hx, hnot⟩
        exact hx.resolve_left hnot
      · exact fun hx => ⟨.inr hx, fun hx' => hdisj x hx' x hx rfl⟩
  refine ⟨⟨m, by rw [saveOrder, hinner, horder]⟩, ?_⟩
  have hshelves : (ids.map f).map (fun id => shelf (q.constant? id)) =
      t.nodes.entries.map fun x => shelf x.2 := by
    have hids : ∀ a ∈ ids, ∃ n, p.graph.get? a = some n := fun a ha =>
      Option.isSome_iff_exists.1 (mem_innerNodes.1 (hperm.mem_iff.1 ha)).1
    clear hperm hdesc hmap horder hnodup hlive hinner
    generalize t.nodes.entries = xs at hxs
    induction hxs with
    | nil => rfl
    | @cons a x ids xs hx _ ih =>
      obtain ⟨n, hn⟩ := hids a List.mem_cons_self
      rw [List.map_cons, List.map_cons, List.map_cons, hiso.constant?_eq hn, hx.value,
        ih fun b hb => hids b (List.mem_cons_of_mem a hb)]
  rw [hinner, hshelves]
  exact t.nodes.pairwise_shelf

/-- Nodes that are sorted by kind are entered in their order. -/
theorem saveInner_foldlM_sorted {ids : List NodeId} {nodes nodes' : InnerNodes}
    (hids : ∀ id ∈ ids, id ∈ p.saveOrder)
    (hsorted : (ids.map fun id => shelf (p.constant? id)).Pairwise (· ≤ ·))
    (hbefore : ∀ x ∈ nodes.entries, ∀ id ∈ ids, shelf x.2 ≤ shelf (p.constant? id))
    (h : ids.foldlM p.saveInner nodes = .ok nodes') :
    ∃ xs, List.Forall₂ p.Enters ids xs ∧ nodes'.entries = nodes.entries ++ xs := by
  induction ids generalizing nodes with
  | nil =>
    cases h
    exact ⟨[], .nil, (List.append_nil _).symm⟩
  | cons id ids ih =>
    rw [List.foldlM_cons] at h
    obtain ⟨nodes₁, h₁, h⟩ := ok_of_bind h
    obtain ⟨hfirst, hsorted⟩ := List.pairwise_cons.1 hsorted
    obtain ⟨x, before, after, hx, hold, hnew, hafter⟩ :=
      saveInner_inserts (hids id List.mem_cons_self) h₁
    -- an entry of a later list would have come from a node before this one
    have hnil : after = [] := by
      refine List.eq_nil_iff_forall_not_mem.2 fun y hy => ?_
      have hle := hbefore y (by rw [hold]; exact List.mem_append_right _ hy) id List.mem_cons_self
      have hlt := hafter y hy
      rw [← hx.value] at hlt
      omega
    subst hnil
    rw [List.append_nil] at hold
    obtain ⟨xs, hxs, hentries⟩ := ih (fun b hb => hids b (List.mem_cons_of_mem id hb)) hsorted
      (fun y hy b hb => by
        rw [hnew, List.mem_append, List.mem_singleton] at hy
        rcases hy with hy | rfl
        · exact hbefore y (hold ▸ hy) b (List.mem_cons_of_mem id hb)
        · rw [← hx.value]
          exact hfirst _ (List.mem_map_of_mem hb)) h
    refine ⟨x :: xs, .cons hx hxs, ?_⟩
    rw [hentries, hnew, hold, List.append_assoc, List.singleton_append]

/-- The document of a template in order lists its nodes in that order. -/
theorem Arranged.entered (hq : q.Arranged) (h : q.save = .ok t) :
    List.Forall₂ q.Describes q.saveOrder t.placed := by
  have hs := save_saves h
  obtain ⟨inputs, -, h⟩ := ok_of_bind h
  obtain ⟨outputs, -, h⟩ := ok_of_bind h
  obtain ⟨nodes, hnodes, h⟩ := ok_of_bind h
  cases h
  obtain ⟨xs, hxs, hentries⟩ := saveInner_foldlM_sorted
    (fun id hid => List.mem_append_right _ hid) hq.shelves (fun x hx => by cases hx) hnodes
  have hentries : nodes.entries = xs := by simpa [InnerNodes.entries] using hentries
  rw [Template.placed_eq, hentries]
  refine List.rel_append (List.rel_append hs.inputs hs.outputs) ?_
  exact List.forall₂_map_right_iff.2 (hxs.imp fun _ _ hx => hx.describes)

/-- Loaded again, a template in order keeps the numbers of its nodes. -/
theorem Arranged.fixed (hq : q.Arranged) (hd : q.Drawn) (h : q.save = .ok t) (hf : q.Follows t f)
    (ha : q.graph.get? a = some n) : f a = a := by
  obtain ⟨m, horder⟩ := hq.order
  have hmap := hf.map_range (hq.entered h)
  have hlen : t.placed.length = m := by
    rw [← (hq.entered h).length_eq, horder, List.length_range]
  have hmem : a ∈ List.range m := by
    rw [← horder, mem_saveOrder hd, ha, Option.isSome_some]
  rw [horder, hlen] at hmap
  have hself : (List.range m).map f = (List.range m).map id := by rw [hmap, List.map_id]
  exact List.map_inj_left.1 hself a hmem

end Prototype

end PulseFlow
