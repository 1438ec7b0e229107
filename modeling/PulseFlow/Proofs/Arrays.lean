import PulseFlow.Proofs.Blocks

/-!
# Arrays within reach

What can be seen of a signal are the arrays that can be reached from it, and what stands in them.
The walk that lists them for a deep copy finds exactly these, in cyclic heaps as well.  So a deep
copy is the signal again up to the places of its arrays, and these places are new.

    h.Whole → a < h.size → (b ∈ h.reachable a ↔ ReflTransGen h.Holds a b)        (mem_reachable)
    h.Whole → h.Has s → ∃ ρ, Copy h s (h.copy s).2 (h.copy s).1 ρ                   (copy_spec)
-/

namespace PulseFlow

theorem Signal.renameArrays_eq_array {ρ : ArrayId → ArrayId} {s : Signal} {b : ArrayId} :
    s.renameArrays ρ = .array b ↔ ∃ a, s = .array a ∧ ρ a = b := by
  cases s <;> simp [renameArrays]

namespace Heap

variable {h h' h'' : Heap} {s s' : Signal} {a b : ArrayId} {ρ : ArrayId → ArrayId}

/-! ## Reach -/

/-- An array stands in another one. -/
def Holds (h : Heap) (a b : ArrayId) : Prop := .array b ∈ h.items a

/-- An array can be reached from a signal. -/
def Reaches (h : Heap) (s : Signal) (b : ArrayId) : Prop :=
  ∃ a, s = .array a ∧ Relation.ReflTransGen h.Holds a b

/-- The array that a signal stands for is there. -/
def Has (h : Heap) (s : Signal) : Prop := ∀ a, s = .array a → a < h.size

/-- All arrays that stand in arrays are there. -/
def Whole (h : Heap) : Prop := h.Closed fun a => a < h.size

theorem reaches_array : h.Reaches (.array a) b ↔ Relation.ReflTransGen h.Holds a b := by
  constructor
  · rintro ⟨_, ha, hb⟩
    cases ha
    exact hb
  · exact fun hb => ⟨a, rfl, hb⟩

theorem Reaches.tail (hr : h.Reaches s a) (hb : h.Holds a b) : h.Reaches s b := by
  obtain ⟨c, hc, hr⟩ := hr
  exact ⟨c, hc, hr.tail hb⟩

/-- What is reached is there. -/
theorem Reaches.lt (hr : h.Reaches s b) (hw : h.Whole) (hs : h.Has s) : b < h.size := by
  obtain ⟨a, ha, hr⟩ := hr
  induction hr with
  | refl => exact hs a ha
  | tail _ hb ih => exact (hw _ ih).2 _ hb

/-- Reach depends on what is within reach only. -/
theorem reaches_congr (hsame : ∀ a, h.Reaches s a → h'.items a = h.items a) :
    h'.Reaches s b ↔ h.Reaches s b := by
  constructor
  · rintro ⟨a, rfl, hr⟩
    induction hr with
    | refl => exact ⟨a, rfl, .refl⟩
    | tail _ hb ih =>
      unfold Holds at hb
      rw [hsame _ ih] at hb
      exact ih.tail hb
  · rintro ⟨a, rfl, hr⟩
    induction hr with
    | refl => exact ⟨a, rfl, .refl⟩
    | @tail c d hc hb ih =>
      refine ih.tail ?_
      rw [Holds, hsame c ⟨a, rfl, hc⟩]
      exact hb

/-- Arrays that are added are not within reach of what was there. -/
theorem reaches_grown (hg : h.Grows h') (hw : h.Whole) (hs : h.Has s) :
    h'.Reaches s b ↔ h.Reaches s b :=
  reaches_congr fun _ ha => hg.items_eq (ha.lt hw hs)

theorem Has.mono (hs : h.Has s) (hg : h.Grows h') : h'.Has s := fun a ha =>
  Nat.lt_of_lt_of_le (hs a ha) hg.size_le

/-! ## The walk -/

/-- What a walk finds can be reached from where it starts. -/
theorem reaches_of_mem_visit (unseen todo : List ArrayId) (hb : b ∈ h.visit unseen todo) :
    ∃ a ∈ todo, Relation.ReflTransGen h.Holds a b := by
  induction unseen, todo using visit.induct h with
  | case1 unseen =>
    rw [visit] at hb
    cases hb
  | case2 unseen i todo hi _ _ ih =>
    rw [visit, dif_pos hi] at hb
    rcases List.mem_cons.1 hb with rfl | hb
    · exact ⟨b, List.mem_cons_self, .refl⟩
    · obtain ⟨a, ha, hr⟩ := ih hb
      rcases List.mem_append.1 ha with ha | ha
      · exact ⟨i, List.mem_cons_self, .head (mem_children.1 ha) hr⟩
      · exact ⟨a, List.mem_cons_of_mem i ha, hr⟩
  | case3 unseen i todo hi ih =>
    rw [visit, dif_neg hi] at hb
    obtain ⟨a, ha, hr⟩ := ih hb
    exact ⟨a, List.mem_cons_of_mem i ha, hr⟩

/-- A walk leaves out nothing it may see: neither where it starts, nor what stands in what it
finds. -/
theorem visit_complete (unseen todo : List ArrayId) :
    (∀ a ∈ todo, a ∈ unseen → a ∈ h.visit unseen todo) ∧
      ∀ a ∈ h.visit unseen todo, ∀ b, h.Holds a b → b ∈ unseen → b ∈ h.visit unseen todo := by
  induction unseen, todo using visit.induct h with
  | case1 unseen =>
    rw [visit]
    exact ⟨fun a ha => absurd ha List.not_mem_nil, fun a ha => absurd ha List.not_mem_nil⟩
  | case2 unseen i todo hi _ _ ih =>
    rw [visit, dif_pos hi]
    -- what is not `i` is still unseen after it
    have hstep : ∀ b, b ∈ unseen → (b ∈ unseen.erase i →
        b ∈ h.visit (unseen.erase i) (h.children i ++ todo)) →
        b ∈ i :: h.visit (unseen.erase i) (h.children i ++ todo) := by
      intro b hb hrest
      by_cases hbi : b = i
      · exact hbi ▸ List.mem_cons_self
      · exact List.mem_cons_of_mem i (hrest ((List.mem_erase_of_ne hbi).2 hb))
    constructor
    · intro a ha hau
      rcases List.mem_cons.1 ha with rfl | ha
      · exact List.mem_cons_self
      · exact hstep a hau (ih.1 a (List.mem_append_right _ ha))
    · intro a ha b hb hbu
      rcases List.mem_cons.1 ha with rfl | ha
      · exact hstep b hbu (ih.1 b (List.mem_append_left _ (mem_children.2 hb)))
      · exact hstep b hbu (ih.2 a ha b hb)
  | case3 unseen i todo hi ih =>
    rw [visit, dif_neg hi]
    refine ⟨fun a ha hau => ?_, ih.2⟩
    rcases List.mem_cons.1 ha with rfl | ha
    · exact absurd hau hi
    · exact ih.1 a ha hau

theorem mem_reachable (hw : h.Whole) (ha : a < h.size) :
    b ∈ h.reachable a ↔ Relation.ReflTransGen h.Holds a b := by
  constructor
  · intro hb
    obtain ⟨c, hc, hr⟩ := reaches_of_mem_visit _ _ hb
    rw [List.mem_singleton.1 hc] at hr
    exact hr
  · intro hr
    induction hr with
    | refl => exact mem_reachable_self ha
    | @tail c d hc hd ih =>
      have hlt : c < h.size := (reaches_array.2 hc).lt hw fun x hx => by cases hx; exact ha
      exact (visit_complete _ _).2 c ih d hd (List.mem_range.2 ((hw c hlt).2 d hd))

/-! ## Views -/

/-- From a signal one sees the same in both heaps. -/
structure SameView (h h' : Heap) (s : Signal) : Prop where
  reaches : ∀ a, h'.Reaches s a ↔ h.Reaches s a
  items : ∀ a, h.Reaches s a → h'.items a = h.items a

theorem sameView_of_items (hsame : ∀ a, h.Reaches s a → h'.items a = h.items a) :
    SameView h h' s := ⟨fun _ => reaches_congr hsame, hsame⟩

/-! ## Copies -/

/-- `s'` in `h'` is `s` in `h` with its arrays at the places `ρ`: the same leaves stand at the same
positions, and two ways into one array lead into one array again. -/
structure Copy (h : Heap) (s : Signal) (h' : Heap) (s' : Signal) (ρ : ArrayId → ArrayId) :
    Prop where
  value : s' = s.renameArrays ρ
  injOn : Set.InjOn ρ {a | h.Reaches s a}
  items : ∀ a, h.Reaches s a → h'.items (ρ a) = (h.items a).map (Signal.renameArrays ρ)

namespace Copy

/-- From a copy one reaches the copies of what is reached. -/
theorem reaches (hc : Copy h s h' s' ρ) : h'.Reaches s' b ↔ ∃ a, h.Reaches s a ∧ ρ a = b := by
  constructor
  · rintro ⟨c, hsc, hr⟩
    induction hr with
    | refl =>
      obtain ⟨a, rfl, hac⟩ := Signal.renameArrays_eq_array.1 (hc.value.symm.trans hsc)
      exact ⟨a, ⟨a, rfl, .refl⟩, hac⟩
    | tail _ hb ih =>
      obtain ⟨a, ha, rfl⟩ := ih
      rw [Holds, hc.items a ha] at hb
      obtain ⟨x, hx, hxb⟩ := List.mem_map.1 hb
      obtain ⟨d, rfl, hd⟩ := Signal.renameArrays_eq_array.1 hxb
      exact ⟨d, ha.tail hx, hd⟩
  · rintro ⟨d, ⟨a, rfl, hr⟩, rfl⟩
    induction hr with
    | refl => exact ⟨ρ a, hc.value, .refl⟩
    | @tail c d hac hd ih =>
      refine ih.tail ?_
      rw [Holds, hc.items c ⟨a, rfl, hac⟩]
      exact List.mem_map.2 ⟨.array d, hd, rfl⟩

/-- A copy stays one when arrays are added. -/
theorem grow (hc : Copy h s h' s' ρ) (hw : h'.Whole) (hs : h'.Has s') (hg : h'.Grows h'') :
    Copy h s h'' s' ρ where
  value := hc.value
  injOn := hc.injOn
  items := by
    intro a ha
    have hlt : ρ a < h'.size := (hc.reaches.2 ⟨a, ha, rfl⟩).lt hw hs
    rw [hg.items_eq hlt, hc.items a ha]

/-- What is copied may have been there before arrays were added. -/
theorem of_grown (hc : Copy h' s h'' s' ρ) (hg : h.Grows h') (hw : h.Whole) (hs : h.Has s) :
    Copy h s h'' s' ρ where
  value := hc.value
  injOn := by
    intro a ha b hb
    exact hc.injOn ((reaches_grown hg hw hs).2 ha) ((reaches_grown hg hw hs).2 hb)
  items := by
    intro a ha
    rw [hc.items a ((reaches_grown hg hw hs).2 ha), hg.items_eq (ha.lt hw hs)]

end Copy

/-- Where the arrays of `ids` are copied to. -/
def place (ids : List ArrayId) (base : Nat) (a : ArrayId) : ArrayId :=
  if a ∈ ids then base + ids.idxOf a else a

theorem rename_eq_renameArrays (ids : List ArrayId) (base : Nat) :
    rename ids base = Signal.renameArrays (place ids base) := by
  funext s
  cases s with
  | array a =>
    rw [rename, Signal.renameArrays, place]
    split <;> rfl
  | _ => rfl

theorem size_copy (h : Heap) (a : ArrayId) :
    (h.copy (.array a)).2.size = h.size + (h.reachable a).length := by
  refine (size_append h (h.copies (h.reachable a) h.size)).trans ?_
  rw [length_copies]

/-- The arrays that stand in copies are there. -/
theorem whole_copy (hw : h.Whole) (hs : h.Has s) : (h.copy s).2.Whole := by
  cases s with
  | array a =>
    have hlt := hs a rfl
    intro c hc
    refine ⟨hc, fun b hb => ?_⟩
    show b < (h.copy (.array a)).2.size
    replace hc : c < h.size + (h.reachable a).length := h.size_copy a ▸ hc
    rw [size_copy]
    change .array b ∈ Heap.items ⟨h.arrays ++ (h.copies (h.reachable a) h.size).toArray⟩ c at hb
    rw [items_append] at hb
    split at hb
    · next hold =>
      exact Nat.lt_add_right _ ((hw c hold).2 b hb)
    · next hnew =>
      have hidx : c - h.size < (h.copies (h.reachable a) h.size).length := by
        rw [length_copies]
        exact Nat.sub_lt_left_of_lt_add (Nat.le_of_not_lt hnew) hc
      rw [List.getD_eq_getElem _ _ hidx] at hb
      rcases mem_copies hw hlt (List.getElem_mem hidx) hb with hb | hb
      · exact Nat.lt_add_right _ hb
      · exact hb.2
  | _ => exact hw

/-- The copy of an array has the arrays within reach of it at the places after those in use. -/
theorem copy_array (hw : h.Whole) (ha : a < h.size) :
    Copy h (.array a) (h.copy (.array a)).2 (h.copy (.array a)).1
      (place (h.reachable a) h.size) := by
  have hmem : ∀ c, h.Reaches (.array a) c ↔ c ∈ h.reachable a := fun c =>
    reaches_array.trans (mem_reachable hw ha).symm
  have hplace : ∀ c, h.Reaches (.array a) c →
      place (h.reachable a) h.size c = h.size + (h.reachable a).idxOf c := fun c hc =>
    if_pos ((hmem c).1 hc)
  have hheap : (h.copy (.array a)).2 = ⟨h.arrays ++ (h.copies (h.reachable a) h.size).toArray⟩ :=
    rfl
  refine ⟨?_, fun c hc d hd he => ?_, fun c hc => ?_⟩
  · show rename (h.reachable a) h.size (.array a) = _
    rw [rename_eq_renameArrays]
  · rw [hplace c hc, hplace d hd, Nat.add_left_cancel_iff] at he
    exact (List.idxOf_inj ((hmem c).1 hc)).1 he
  · have hidx : (h.reachable a).idxOf c < (h.copies (h.reachable a) h.size).length := by
      rw [length_copies]
      exact List.idxOf_lt_length_of_mem ((hmem c).1 hc)
    rw [hheap, hplace c hc, items_append, if_neg (Nat.not_lt.2 (Nat.le_add_right _ _)),
      Nat.add_sub_cancel_left, List.getD_eq_getElem _ _ hidx]
    simp [copies, rename_eq_renameArrays]

theorem place_lt (hw : h.Whole) (ha : a < h.size) (hb : h.Reaches (.array a) b) :
    h.size ≤ place (h.reachable a) h.size b ∧
      place (h.reachable a) h.size b < (h.copy (.array a)).2.size := by
  have hmem : b ∈ h.reachable a := (mem_reachable hw ha).2 (reaches_array.1 hb)
  rw [place, if_pos hmem, size_copy]
  exact ⟨Nat.le_add_right _ _, Nat.add_lt_add_left (List.idxOf_lt_length_of_mem hmem) _⟩

/-- A deep copy is the signal again, at new places. -/
theorem copy_spec (hw : h.Whole) (hs : h.Has s) :
    (∃ ρ, Copy h s (h.copy s).2 (h.copy s).1 ρ) ∧ (h.copy s).2.Has (h.copy s).1 ∧
      ∀ a, (h.copy s).2.Reaches (h.copy s).1 a → h.size ≤ a := by
  cases s with
  | array a =>
    have ha : a < h.size := hs a rfl
    have hcopy := copy_array hw ha
    refine ⟨⟨_, hcopy⟩, fun c hc => ?_, fun c hc => ?_⟩
    · rw [hcopy.value] at hc
      cases hc
      exact (place_lt hw ha ⟨a, rfl, .refl⟩).2
    · obtain ⟨d, hd, rfl⟩ := hcopy.reaches.1 hc
      exact (place_lt hw ha hd).1
  | _ =>
    refine ⟨⟨id, rfl, Set.injOn_id _, ?_⟩, hs, ?_⟩ <;>
    · rintro c ⟨a, ha, -⟩
      cases ha

end Heap

end PulseFlow
