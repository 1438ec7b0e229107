import Mathlib
import PulseFlow.Proofs.Drawings
import PulseFlow.Proofs.Renaming

/-!
# Arrays that a load makes

Each template that is loaded adds a block of arrays at the end of the heap: the copies of arrays
that constants of the catalog hold.  Where in the heap the block begins changes nothing but the
places of these arrays (`Mirrors`), as long as every array that such a constant leads to is there
(`Closed`).

So each template is filled as if it were alone, and its block moved behind the blocks of those that
were filled before it (`Settles`).

    h.Grows h' → h.Closed S → S a → h'.reachable a = h.reachable a            (reachable_grown)
    … → Agree (Shifted h₀ base S) (t.load r ⟨_, h₀⟩) (t.load r ⟨_, base⟩)       (load_shifted)
    Fills r base xs h' → Forall₂ (Settles r h₀ h') xs (places … base.size …)    (Fills.settles)
-/

namespace PulseFlow

/-! ## Deep copies in a heap that grew -/

namespace Heap

variable {h h' : Heap} {S : ArrayId → Prop} {a b : ArrayId}

/-- Every array in `S` is there, and the arrays that stand in it are in `S`. -/
def Closed (h : Heap) (S : ArrayId → Prop) : Prop :=
  ∀ a, S a → a < h.size ∧ ∀ b, .array b ∈ h.items a → S b

theorem Grows.size_le (hg : h.Grows h') : h.size ≤ h'.size := by
  obtain ⟨more, hmore⟩ := hg
  simp [size, hmore]

theorem Grows.items_eq (hg : h.Grows h') (ha : a < h.size) : h'.items a = h.items a := by
  obtain ⟨more, hmore⟩ := hg
  unfold size at ha
  simp [items, hmore, Array.getD_eq_getD_getElem?, Array.getElem?_append, ha]

theorem mem_children : b ∈ h.children a ↔ .array b ∈ h.items a := by
  unfold children
  rw [List.mem_filterMap]
  constructor
  · rintro ⟨s, hs, hb⟩
    cases s with
    | array i =>
      cases hb
      exact hs
    | _ => cases hb
  · exact fun hb => ⟨.array b, hb, rfl⟩

theorem filter_erase (unseen : List ArrayId) (n i : Nat) :
    (unseen.erase i).filter (fun a => decide (a < n)) =
      if i < n then (unseen.filter fun a => decide (a < n)).erase i
      else unseen.filter fun a => decide (a < n) := by
  induction unseen with
  | nil => simp
  | cons x unseen ih =>
    by_cases hx : x = i
    · subst hx
      by_cases hn : x < n <;> simp [hn]
    · rw [List.erase_cons_tail (by simpa using hx)]
      by_cases hn : x < n
      · rw [List.filter_cons_of_pos (by simpa using hn), ih,
          List.filter_cons_of_pos (by simpa using hn)]
        split
        · rw [List.erase_cons_tail (by simpa using hx)]
        · rfl
      · rw [List.filter_cons_of_neg (by simpa using hn), ih,
          List.filter_cons_of_neg (by simpa using hn)]

/-- A walk from closed arrays does not see what was added. -/
theorem visit_grown (hg : h.Grows h') (hc : h.Closed S) (unseen todo : List ArrayId)
    (htodo : ∀ i ∈ todo, S i) :
    h'.visit unseen todo = h.visit (unseen.filter fun a => decide (a < h.size)) todo := by
  induction unseen, todo using visit.induct h' with
  | case1 unseen => rw [visit, visit]
  | case2 unseen i todo hi _ _ ih =>
    obtain ⟨hlt, hnext⟩ := hc i (htodo i List.mem_cons_self)
    have hi' : i ∈ unseen.filter fun a => decide (a < h.size) := by simp [hi, hlt]
    have hchildren : h'.children i = h.children i := by
      rw [children, hg.items_eq hlt, children]
    rw [visit, visit, dif_pos hi, dif_pos hi', ih, filter_erase, if_pos hlt, hchildren]
    intro j hj
    rw [List.mem_append, hchildren, mem_children] at hj
    rcases hj with hj | hj
    · exact hnext j hj
    · exact htodo j (List.mem_cons_of_mem i hj)
  | case3 unseen i todo hi ih =>
    have hi' : i ∉ unseen.filter fun a => decide (a < h.size) := by simp [hi]
    rw [visit, visit, dif_neg hi, dif_neg hi', ih fun j hj => htodo j (List.mem_cons_of_mem i hj)]

theorem reachable_grown (hg : h.Grows h') (hc : h.Closed S) (ha : S a) :
    h'.reachable a = h.reachable a := by
  have hrange : (List.range h'.size).filter (fun a => decide (a < h.size)) =
      List.range h.size := by
    have hle := hg.size_le
    obtain ⟨k, hk⟩ := Nat.exists_eq_add_of_le hle
    rw [hk, List.range_add, List.filter_append, List.filter_eq_self.2, List.filter_eq_nil_iff.2,
      List.append_nil]
    · intro b hb
      obtain ⟨j, -, rfl⟩ := List.mem_map.1 hb
      simp
    · intro b hb
      simpa using hb
  rw [reachable, reachable, visit_grown hg hc _ _ (by simpa using ha), hrange]

theorem visit_closed (hc : h.Closed S) (unseen todo : List ArrayId) (htodo : ∀ i ∈ todo, S i) :
    ∀ j ∈ h.visit unseen todo, S j := by
  induction unseen, todo using visit.induct h with
  | case1 unseen => simp [visit]
  | case2 unseen i todo hi _ _ ih =>
    have hS := htodo i List.mem_cons_self
    rw [visit, dif_pos hi]
    refine List.forall_mem_cons.2 ⟨hS, ih fun j hj => ?_⟩
    rw [List.mem_append, mem_children] at hj
    rcases hj with hj | hj
    · exact (hc i hS).2 j hj
    · exact htodo j (List.mem_cons_of_mem i hj)
  | case3 unseen i todo hi ih =>
    rw [visit, dif_neg hi]
    exact ih fun j hj => htodo j (List.mem_cons_of_mem i hj)

theorem mem_reachable_self (ha : a < h.size) : a ∈ h.reachable a := by
  rw [reachable, visit, dif_pos (List.mem_range.2 ha)]
  exact List.mem_cons_self

/-- The copies of the arrays in `ids`, to be put at the places from `base` on. -/
def copies (h : Heap) (ids : List ArrayId) (base : Nat) : List (List Signal) :=
  ids.map fun j => (h.items j).map (rename ids base)

/-- The copy of an array whose arrays were there before the heap grew. -/
theorem copy_grown (hg : h.Grows h') (hc : h.Closed S) (ha : S a) :
    h'.copy (.array a) = (.array (h'.size + (h.reachable a).idxOf a),
      ⟨h'.arrays ++ (h.copies (h.reachable a) h'.size).toArray⟩) := by
  have hids := reachable_grown hg hc ha
  have hmem := mem_reachable_self (hc a ha).1
  have hcopies : ((h.reachable a).map fun j => (h'.items j).map (rename (h.reachable a) h'.size)) =
      h.copies (h.reachable a) h'.size := by
    refine List.map_congr_left fun j hj => ?_
    have hS : S j := visit_closed hc _ _ (by simpa using ha) j hj
    rw [hg.items_eq (hc j hS).1]
  rw [copy, hids, hcopies, rename, if_pos hmem]

end Heap

/-! ## Blocks at another place -/

/-- Places from `o` on are moved so that they begin at `o'`. -/
def shift (o o' a : Nat) : Nat := if a < o then a else a - o + o'

theorem shift_of_lt {o o' a : Nat} (h : a < o) : shift o o' a = a := if_pos h

theorem shift_add (o o' j : Nat) : shift o o' (o + j) = o' + j := by
  unfold shift
  split <;> omega

namespace Heap

variable {h₀ base h h' : Heap} {S : ArrayId → Prop} {a : ArrayId}

theorem items_append (h : Heap) (block : List (List Signal)) (i : ArrayId) :
    (Heap.mk (h.arrays ++ block.toArray)).items i =
      if i < h.size then h.items i else block.getD (i - h.size) [] := by
  simp only [items, Array.getD_eq_getD_getElem?, Array.getElem?_append, size]
  split
  · rfl
  · simp [List.getD_eq_getElem?_getD]

theorem size_append (h : Heap) (block : List (List Signal)) :
    (Heap.mk (h.arrays ++ block.toArray)).size = h.size + block.length := by
  simp [size]

/-- To two heaps the same arrays were added, but for the places at which they begin. -/
def Mirrors (h₀ base h h' : Heap) : Prop :=
  ∃ block : List (List Signal), h.arrays = h₀.arrays ++ block.toArray ∧
    h'.arrays = base.arrays ++
      (block.map (List.map (Signal.renameArrays (shift h₀.size base.size)))).toArray

theorem Mirrors.refl (h₀ base : Heap) : Mirrors h₀ base h₀ base := ⟨[], by simp, by simp⟩

theorem Mirrors.grows (hm : Mirrors h₀ base h h') : h₀.Grows h := by
  obtain ⟨block, hblock, -⟩ := hm
  exact ⟨block.toArray, hblock⟩

theorem Mirrors.grows_base (hm : Mirrors h₀ base h h') : base.Grows h' := by
  obtain ⟨block, -, hblock⟩ := hm
  exact ⟨_, hblock⟩

theorem Mirrors.size (hm : Mirrors h₀ base h h') :
    ∃ k, h.size = h₀.size + k ∧ h'.size = base.size + k := by
  obtain ⟨block, hblock, hblock'⟩ := hm
  exact ⟨block.length, by simp [Heap.size, hblock], by simp [Heap.size, hblock']⟩

theorem Mirrors.items_block (hm : Mirrors h₀ base h h') (j : Nat) :
    h'.items (base.size + j) =
      (h.items (h₀.size + j)).map (Signal.renameArrays (shift h₀.size base.size)) := by
  obtain ⟨block, hblock, hblock'⟩ := hm
  have hh : h = ⟨h₀.arrays ++ block.toArray⟩ := congrArg Heap.mk hblock
  have hh' : h' = ⟨base.arrays ++
      (block.map (List.map (Signal.renameArrays (shift h₀.size base.size)))).toArray⟩ :=
    congrArg Heap.mk hblock'
  rw [hh, hh', items_append, items_append, if_neg (Nat.not_lt.2 (Nat.le_add_right _ _)),
    if_neg (Nat.not_lt.2 (Nat.le_add_right _ _)), Nat.add_sub_cancel_left, Nat.add_sub_cancel_left,
    List.getD_eq_getElem?_getD, List.getD_eq_getElem?_getD, List.getElem?_map]
  cases block[j]? <;> rfl

/-- Renaming to new places goes with moving these places. -/
theorem renameArrays_rename (hc : h₀.Closed S) {ids : List ArrayId} {k : Nat} {s : Signal}
    (hs : ∀ b, s = .array b → S b) :
    (rename ids (h₀.size + k) s).renameArrays (shift h₀.size base.size) =
      rename ids (base.size + k) s := by
  cases s with
  | array b =>
    rw [rename, rename]
    by_cases hb : b ∈ ids
    · rw [if_pos hb, if_pos hb, Signal.renameArrays, Nat.add_assoc, shift_add, Nat.add_assoc]
    · rw [if_neg hb, if_neg hb, Signal.renameArrays, shift_of_lt (hc b (hs b rfl)).1]
  | _ => rfl

theorem Mirrors.copy (hm : Mirrors h₀ base h h') (hg : h₀.Grows base) (hc : h₀.Closed S)
    (ha : S a) :
    (h.copy (.array a)).1.renameArrays (shift h₀.size base.size) = (h'.copy (.array a)).1 ∧
      Mirrors h₀ base (h.copy (.array a)).2 (h'.copy (.array a)).2 := by
  obtain ⟨k, hk, hk'⟩ := hm.size
  rw [copy_grown hm.grows hc ha, copy_grown (hg.trans hm.grows_base) hc ha]
  constructor
  · rw [Signal.renameArrays, hk, hk', Nat.add_assoc, shift_add, Nat.add_assoc]
  · obtain ⟨block, hblock, hblock'⟩ := hm
    refine ⟨block ++ h₀.copies (h₀.reachable a) h.size, ?_, ?_⟩
    · simp [hblock, Array.append_assoc]
    · have hcopies : (h₀.copies (h₀.reachable a) h.size).map
          (List.map (Signal.renameArrays (shift h₀.size base.size))) =
            h₀.copies (h₀.reachable a) h'.size := by
        unfold copies
        rw [List.map_map]
        refine List.map_congr_left fun j hj => ?_
        have hS : S j := visit_closed hc _ _ (by simpa using ha) j hj
        rw [Function.comp_apply, List.map_map]
        refine List.map_congr_left fun s hs => ?_
        rw [Function.comp_apply, hk, hk']
        exact renameArrays_rename hc fun b hb => (hc j hS).2 b (hb ▸ hs)
      rw [List.map_append, hcopies, hblock']
      simp [Array.append_assoc]

end Heap

/-! ## The arrays of one template -/

/-- The arrays that a template and its block name are old ones in `S`, or in the block. -/
structure Draft.Fits (h₀ : Heap) (S : ArrayId → Prop) (d : Draft) : Prop where
  grows : h₀.Grows d.heap
  names : ∀ a, d.prototype.Names a → S a ∨ h₀.size ≤ a ∧ a < d.heap.size
  items : ∀ i a, h₀.size ≤ i → .array a ∈ d.heap.items i → S a ∨ h₀.size ≤ a ∧ a < d.heap.size

namespace Heap

variable {h₀ base h h' : Heap} {S : ArrayId → Prop} {a i : ArrayId}

theorem items_of_le (hi : h.size ≤ i) : h.items i = [] := by
  rw [items, Array.getD_eq_getD_getElem?, Array.getElem?_eq_none hi, Option.getD_none]

theorem not_mem_items (hi : h.size ≤ i) {s : Signal} : s ∉ h.items i := by
  rw [items_of_le hi]
  exact List.not_mem_nil

theorem length_copies (h : Heap) (ids : List ArrayId) (o : Nat) :
    (h.copies ids o).length = ids.length := List.length_map _

/-- The arrays that stand in copies are old ones in `S`, or copies. -/
theorem mem_copies (hc : h.Closed S) (ha : S a) {o : Nat} {l : List Signal}
    (hl : l ∈ h.copies (h.reachable a) o) {b : ArrayId} (hb : .array b ∈ l) :
    S b ∨ o ≤ b ∧ b < o + (h.reachable a).length := by
  obtain ⟨j, hj, rfl⟩ := List.mem_map.1 hl
  obtain ⟨s, hs, hsb⟩ := List.mem_map.1 hb
  have hS : S j := visit_closed hc _ _ (by simpa using ha) j hj
  cases s with
  | array c =>
    unfold rename at hsb
    dsimp only at hsb
    split at hsb
    · next hmem =>
      cases hsb
      exact .inr ⟨Nat.le_add_right _ _, Nat.add_lt_add_left (List.idxOf_lt_length_of_mem hmem) o⟩
    · cases hsb
      exact .inl ((hc j hS).2 _ hs)
  | _ => cases hsb

end Heap

/-- A node that is made holds a copy of an array of the catalog, or no array and the heap is as
before. -/
theorem Registry.makeNode_cases {r : Registry} {key : Key} {h h' : Heap} {n : Node}
    (hmake : r.makeNode key h = .ok (n, h')) :
    (∃ a, r.catalog.get? key = some (.constant (.array a)) ∧
        n = Node.native (.constant (h.copy (.array a)).1) ∧ h' = (h.copy (.array a)).2) ∨
      h' = h ∧ ∀ a, n.body.constant? ≠ some (.array a) := by
  unfold makeNode Catalog.create? at hmake
  cases hl : r.catalog.get? key with
  | none =>
    rw [hl] at hmake
    cases hp : r.prototypes.get? key with
    | none =>
      rw [hp] at hmake
      cases hmake
    | some p =>
      rw [hp] at hmake
      cases hmake
      exact .inr ⟨rfl, fun a ha => by cases ha⟩
  | some l =>
    rw [hl] at hmake
    cases l with
    | constant v =>
      cases v with
      | array a =>
        cases hmake
        exact .inl ⟨a, rfl, rfl, rfl⟩
      | _ =>
        cases hmake
        exact .inr ⟨rfl, fun a ha => by cases ha⟩
    | _ =>
      cases hmake
      exact .inr ⟨rfl, fun a ha => by cases ha⟩

namespace Draft

variable {h₀ base : Heap} {S : ArrayId → Prop} {r : Registry} {d d' : Draft}

/-- The catalog holds no arrays but those in `S`. -/
def Holds (c : Catalog) (S : ArrayId → Prop) : Prop :=
  ∀ k a, c.get? k = some (.constant (.array a)) → S a

/-- Another heap with more arrays, and one node more. -/
theorem Fits.addNode (h : d.Fits h₀ S) {heap : Heap} {n : Node} (hg : d.heap.Grows heap)
    (hitems : ∀ i a, d.heap.size ≤ i → .array a ∈ heap.items i →
      S a ∨ h₀.size ≤ a ∧ a < heap.size)
    (hn : ∀ a, n.body.constant? = some (.array a) → S a ∨ h₀.size ≤ a ∧ a < heap.size) :
    ({ d with heap }.addNode n).2.Fits h₀ S := by
  have hsize := hg.size_le
  refine ⟨h.grows.trans hg, fun a ⟨id, ha⟩ => ?_, fun i a hi ha => ?_⟩
  · change ((d.prototype.graph.add n).2.get? id).bind _ = _ at ha
    obtain ⟨m, hm, hma⟩ := Option.bind_eq_some_iff.1 ha
    rcases Slots.get?_of_add hm with rfl | hm
    · exact hn a hma
    · rcases h.names a ⟨id, by rw [Prototype.constant?, hm, Option.bind_some, hma]⟩ with ha | ha
      · exact .inl ha
      · exact .inr ⟨ha.1, Nat.lt_of_lt_of_le ha.2 hsize⟩
  · by_cases hlt : i < d.heap.size
    · change .array a ∈ heap.items i at ha
      rw [hg.items_eq hlt] at ha
      rcases h.items i a hi ha with ha | ha
      · exact .inl ha
      · exact .inr ⟨ha.1, Nat.lt_of_lt_of_le ha.2 hsize⟩
    · exact hitems i a (Nat.le_of_not_lt hlt) ha

theorem constant?_connect {s t : Socket} (h : d.connect s t = .ok d') (id : NodeId) :
    d'.prototype.constant? id = d.prototype.constant? id := by
  unfold connect at h
  split at h
  · cases h
  · obtain ⟨g, hg, h⟩ := ok_of_bind h
    cases h
    rw [Engine.graph_connect_ok hg]
    simp only [Prototype.constant?, Slots.get?_modify]
    split
    · cases d.prototype.graph.get? id <;> rfl
    · rfl

theorem heap_connect {s t : Socket} (h : d.connect s t = .ok d') : d'.heap = d.heap := by
  unfold connect at h
  split at h
  · cases h
  · obtain ⟨g, -, h⟩ := ok_of_bind h
    cases h
    rfl

/-- Every step of a load keeps the arrays in bounds. -/
theorem Fits.stays (hc : h₀.Closed S) (hcat : Holds r.catalog S) : Draft.Stays r (Fits h₀ S) where
  connect := by
    intro d d' h s t hd
    have hheap := heap_connect hd
    refine ⟨hheap ▸ h.grows, fun a ⟨id, ha⟩ => ?_, hheap ▸ h.items⟩
    rw [constant?_connect hd] at ha
    exact hheap ▸ h.names a ⟨id, ha⟩
  place := by
    intro d d' h id spot hd
    obtain ⟨n, -, hd⟩ := ok_of_bind hd
    cases hd
    exact ⟨h.grows, h.names, h.items⟩
  setCanvas h canvas := ⟨h.grows, h.names, h.items⟩
  constant := by
    intro d h v hv
    refine h.addNode (.refl _) (fun i a hi ha => ?_) fun a ha => ?_
    · exact absurd ha (Heap.not_mem_items hi)
    · cases ha
      cases hv
  add := by
    intro d d' id h key hd
    obtain ⟨⟨n, heap⟩, hmake, hd⟩ := ok_of_bind hd
    cases hd
    rcases Registry.makeNode_cases hmake with ⟨a, hkey, rfl, rfl⟩ | ⟨rfl, hno⟩
    · have hS := hcat key a hkey
      have hle := h.grows.size_le
      rw [Heap.copy_grown h.grows hc hS]
      refine h.addNode ⟨_, rfl⟩ (fun i b hi hb => ?_) fun b hb => ?_
      · rw [Heap.items_append, if_neg (Nat.not_lt.2 hi), List.getD_eq_getElem?_getD] at hb
        rw [Heap.size_append, Heap.length_copies]
        cases hl : (h₀.copies (h₀.reachable a) d.heap.size)[i - d.heap.size]? with
        | none =>
          rw [hl] at hb
          cases hb
        | some l =>
          rw [hl] at hb
          exact (Heap.mem_copies hc hS (List.mem_of_getElem? hl) hb).imp_right
            fun hbounds => ⟨hle.trans hbounds.1, hbounds.2⟩
      · cases hb
        rw [Heap.size_append, Heap.length_copies]
        exact .inr ⟨hle.trans (Nat.le_add_right _ _), Nat.add_lt_add_left
          (List.idxOf_lt_length_of_mem (Heap.mem_reachable_self (hc a hS).1)) _⟩
    · exact h.addNode (.refl _) (fun i a hi ha => absurd ha (Heap.not_mem_items hi))
        fun a ha => absurd ha (hno a)

end Draft

/-! ## One template, loaded into two heaps -/

namespace Registry

variable {h₀ base h h' : Heap} {S : ArrayId → Prop}

/-- Nodes are made alike, whatever the heaps are, if their arrays are. -/
theorem makeNode_agree {ρ ρ' : ArrayId → ArrayId} {H : Heap → Heap → Prop} (r : Registry)
    (key : Key) (hm : H h h')
    (hcopy : ∀ a, r.catalog.get? key = some (.constant (.array a)) →
      (h.copy (.array a)).1.renameArrays ρ = (h'.copy (.array a)).1.renameArrays ρ' ∧
        H (h.copy (.array a)).2 (h'.copy (.array a)).2) :
    Agree (MadeAlike ρ ρ' H) (r.makeNode key h) (r.makeNode key h') := by
  unfold makeNode Catalog.create?
  cases hl : r.catalog.get? key with
  | none =>
    cases r.prototypes.get? key with
    | none => exact .error _
    | some p => exact .ok ⟨rfl, hm⟩
  | some l =>
    cases l with
    | constant v =>
      cases v with
      | array a =>
        obtain ⟨hvalue, hheap⟩ := hcopy a hl
        refine .ok ⟨?_, hheap⟩
        rw [Node.renameArrays_native, Node.renameArrays_native, Logic.renameArrays,
          Logic.renameArrays]
        exact congrArg (fun v => Node.native (.constant v)) hvalue
      | _ => exact .ok ⟨rfl, hm⟩
    | _ => exact .ok ⟨rfl, hm⟩

end Registry

namespace Draft

variable {h₀ base : Heap} {S : ArrayId → Prop} {r : Registry}

/-- Templates that are the same but for the places of their blocks, and whose arrays are in
bounds. -/
def Shifted (h₀ base : Heap) (S : ArrayId → Prop) (d d' : Draft) : Prop :=
  d.Alike (shift h₀.size base.size) id (Heap.Mirrors h₀ base) d' ∧ d.Fits h₀ S

theorem kept_shifted (hc : h₀.Closed S) (hcat : Holds r.catalog S) (hg : h₀.Grows base) :
    Draft.Kept r r (Shifted h₀ base S) := by
  refine (kept_alike fun key h h' hm => r.makeNode_agree key hm fun a ha => ?_).and
    (Fits.stays hc hcat)
  obtain ⟨hvalue, hheap⟩ := hm.copy hg hc (hcat key a ha)
  refine ⟨hvalue.trans ?_, hheap⟩
  cases (h'.copy (.array a)).1 <;> rfl

/-- Templates that are the same but for the arrays they hold. -/
theorem kept_erased (r : Registry) :
    Draft.Kept r r (Draft.Alike (fun _ => 0) (fun _ => 0) fun _ _ => True) := by
  have hcopy : ∀ (h : Heap) a, (h.copy (.array a)).1.renameArrays (fun _ => 0) = .array 0 := by
    intro h a
    rw [Heap.copy, Heap.rename]
    split <;> rfl
  exact kept_alike fun key h h' _ => r.makeNode_agree key trivial fun a _ =>
    ⟨(hcopy h a).trans (hcopy h' a).symm, trivial⟩

/-- Where the catalog holds no arrays, none are made. -/
theorem stays_heap (hcat : Holds r.catalog fun _ => False) (h : Heap) :
    Draft.Stays r fun d => d.heap = h where
  connect hd s t hd' := (heap_connect hd').trans hd
  place := by
    intro d d' hd id spot hd'
    obtain ⟨n, -, hd'⟩ := ok_of_bind hd'
    cases hd'
    exact hd
  setCanvas hd canvas := hd
  add := by
    intro d d' id hd key hd'
    obtain ⟨⟨n, heap⟩, hmake, hd'⟩ := ok_of_bind hd'
    cases hd'
    rcases Registry.makeNode_cases hmake with ⟨a, hkey, -⟩ | ⟨rfl, -⟩
    · exact (hcat key a hkey).elim
    · exact hd
  constant hd v hv := hd

end Draft

namespace Document.Template

variable {h₀ base : Heap} {S : ArrayId → Prop} {r : Registry}

theorem not_names_outline (t : Template) (a : ArrayId) : ¬ t.outline.Names a := by
  rintro ⟨id, ha⟩
  obtain ⟨n, hn, hna⟩ := Option.bind_eq_some_iff.1 ha
  rw [(((Prototype.declared_declare _ _ _).node id n).1 hn).2] at hna
  cases hna

theorem renameArrays_outline (t : Template) (ρ : ArrayId → ArrayId) :
    t.outline.renameArrays ρ = t.outline := by
  refine Eq.trans ?_ t.outline.renameArrays_id
  exact Prototype.renameArrays_congr fun a ha => absurd ha (t.not_names_outline a)

/-- Loaded into a heap that grew, a template differs in the place of its block only. -/
theorem load_shifted (hc : h₀.Closed S) (hcat : Draft.Holds r.catalog S) (hg : h₀.Grows base)
    (t : Template) :
    Agree (Draft.Shifted h₀ base S) (t.load r ⟨t.outline, h₀⟩) (t.load r ⟨t.outline, base⟩) := by
  refine load_agree (Draft.kept_shifted hc hcat hg) t ⟨⟨?_, .refl h₀ base⟩, .refl h₀, ?_, ?_⟩
  · rw [renameArrays_outline, renameArrays_outline]
  · exact fun a ha => absurd ha (t.not_names_outline a)
  · exact fun i a hi ha => absurd ha (Heap.not_mem_items hi)

/-- Whatever the heap is, a template is loaded into differs in the places of arrays only. -/
theorem load_erased (r : Registry) (t : Template) (h h' : Heap) :
    Agree (Draft.Alike (fun _ => 0) (fun _ => 0) fun _ _ => True) (t.load r ⟨t.outline, h⟩)
      (t.load r ⟨t.outline, h'⟩) :=
  load_agree (Draft.kept_erased r) t ⟨rfl, trivial⟩

theorem heap_load (hcat : Draft.Holds r.catalog fun _ => False) (t : Template) {h : Heap}
    {d : Draft} (hl : t.load r ⟨t.outline, h⟩ = .ok d) : d.heap = h := by
  have hkept := (Draft.kept_erased r).and (Draft.stays_heap hcat h)
  obtain ⟨d', -, -, hd⟩ := (load_agree hkept t ⟨⟨rfl, trivial⟩, rfl⟩).ok_right hl
  exact hd

/-- What loading a template into a heap leads to. -/
def made (r : Registry) (h : Heap) (t : Template) : Draft :=
  (t.load r ⟨t.outline, h⟩).toOption.getD ⟨t.outline, h⟩

/-- How many arrays loading a template makes. -/
def extent (r : Registry) (h : Heap) (t : Template) : Nat := (t.made r h).heap.size - h.size

end Document.Template

open Document

/-! ## Templates one after the other -/

/-- Where the blocks of templates begin if the first begins at `o`. -/
def places (size : Template → Nat) (o : Nat) : List Template → List (Template × Nat)
  | [] => []
  | t :: ts => (t, o) :: places size (o + size t) ts

theorem le_of_mem_places {size : Template → Nat} {o : Nat} {ts : List Template}
    {q : Template × Nat} (h : q ∈ places size o ts) : o ≤ q.2 := by
  induction ts generalizing o with
  | nil => cases h
  | cons t ts ih =>
    rcases List.mem_cons.1 h with rfl | h
    · exact Nat.le_refl o
    · exact (Nat.le_add_right o (size t)).trans (ih h)

/-- What became of a template whose block begins at a place. -/
structure Settles (r : Registry) (h₀ h' : Heap) (x : Template × Draft) (q : Template × Nat) :
    Prop where
  template : x.1 = q.1
  prototype : x.2.prototype = (q.1.made r h₀).prototype.renameArrays (shift h₀.size q.2)
  items : ∀ j < q.1.extent r h₀, h'.items (q.2 + j) =
    ((q.1.made r h₀).heap.items (h₀.size + j)).map (Signal.renameArrays (shift h₀.size q.2))
  names : ∀ a, (q.1.made r h₀).prototype.Names a → a < h₀.size + q.1.extent r h₀
  inner : ∀ i a, h₀.size ≤ i → .array a ∈ (q.1.made r h₀).heap.items i →
    a < h₀.size + q.1.extent r h₀

section

variable {r : Registry} {h₀ base h' : Heap} {S : ArrayId → Prop} {xs : List (Template × Draft)}

/-- A template that was loaded into a heap that grew, and what was there when more was loaded. -/
theorem settles_of_load (hc : h₀.Closed S) (hcat : Draft.Holds r.catalog S) (hg : h₀.Grows base)
    {t : Template} {d : Draft} (hl : t.load r ⟨t.outline, base⟩ = .ok d) :
    base.Grows d.heap ∧ d.heap.size = base.size + t.extent r h₀ ∧
      ∀ h', d.heap.Grows h' → Settles r h₀ h' (t, d) (t, base.size) := by
  obtain ⟨d₀, hd₀, halike, hfits⟩ := (t.load_shifted hc hcat hg).ok_left hl
  have hmade : t.made r h₀ = d₀ := by
    rw [Template.made, hd₀]
    rfl
  obtain ⟨k, hk, hk'⟩ := halike.heap.size
  have hextent : t.extent r h₀ = k := by
    rw [Template.extent, hmade, hk, Nat.add_sub_cancel_left]
  have hbound : ∀ a, S a ∨ h₀.size ≤ a ∧ a < d₀.heap.size → a < h₀.size + k := by
    rintro a (ha | ha)
    · exact Nat.lt_add_right k (hc a ha).1
    · exact hk ▸ ha.2
  refine ⟨halike.heap.grows_base, hextent ▸ hk', fun h' hg' => ⟨rfl, ?_, ?_, ?_, ?_⟩⟩
  · rw [hmade, halike.prototype, Prototype.renameArrays_id]
  · intro j hj
    rw [hextent] at hj
    rw [hmade, hg'.items_eq (hk' ▸ Nat.add_lt_add_left hj _)]
    exact halike.heap.items_block j
  · intro a ha
    rw [hmade] at ha
    exact hextent ▸ hbound a (hfits.names a ha)
  · intro i a hi ha
    rw [hmade] at ha
    exact hextent ▸ hbound a (hfits.items i a hi ha)

theorem Fills.grows (hc : h₀.Closed S) (hcat : Draft.Holds r.catalog S) (h : Fills r base xs h')
    (hg : h₀.Grows base) : base.Grows h' := by
  induction h with
  | nil base => exact .refl base
  | cons first _ ih =>
    have hfirst := (settles_of_load hc hcat hg first).1
    exact hfirst.trans (ih (hg.trans hfirst))

/-- Blocks follow one another in the order of the templates. -/
theorem Fills.settles (hc : h₀.Closed S) (hcat : Draft.Holds r.catalog S) (h : Fills r base xs h')
    (hg : h₀.Grows base) :
    h'.size = base.size + ((xs.map Prod.fst).map (Template.extent r h₀)).sum ∧
      List.Forall₂ (Settles r h₀ h') xs
        (places (Template.extent r h₀) base.size (xs.map Prod.fst)) := by
  induction h with
  | nil base => exact ⟨rfl, .nil⟩
  | @cons base h' t d xs first rest ih =>
    obtain ⟨hfirst, hsize, hsettles⟩ := settles_of_load hc hcat hg first
    have hgrown := hg.trans hfirst
    obtain ⟨hsizes, hrest⟩ := ih hgrown
    refine ⟨?_, .cons (hsettles h' (rest.grows hc hcat hgrown)) ?_⟩
    · rw [hsizes, hsize, List.map_cons, List.map_cons, List.sum_cons, Nat.add_assoc]
    · rw [← hsize]
      exact hrest

end

end PulseFlow
