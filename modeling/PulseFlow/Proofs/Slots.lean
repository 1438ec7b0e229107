import PulseFlow.Slots

/-!
# Slot stores in order

A store is tidy when the numbers it will hand out again are distinct and name empty cells.  Every
operation keeps it so, and in a tidy store a number handed out was never in use at that moment:

    s.Tidy → s.get? (s.add a).1 = none                                        (get?_add_fst)
    s.Tidy → (s.add a).2.get? j = if (s.add a).1 = j then some a else s.get? j     (get?_add)
-/

namespace PulseFlow.Slots

variable {α : Type} {s : Slots α}

/-- The numbers to hand out again are distinct and name empty cells. -/
structure Tidy (s : Slots α) : Prop where
  nodup : s.vacant.Nodup
  unused : ∀ i ∈ s.vacant, i < s.cells.size ∧ s.get? i = none

theorem lt_size_of_get? {i : Nat} {a : α} (h : s.get? i = some a) : i < s.cells.size := by
  rw [get?_eq_join, Option.join_eq_some_iff] at h
  obtain ⟨hi, -⟩ := Array.getElem?_eq_some_iff.1 h
  exact hi

@[simp]
theorem get?_empty (i : Nat) : (empty : Slots α).get? i = none := by
  simp [empty, get?]

theorem tidy_empty : (empty : Slots α).Tidy where
  nodup := List.nodup_nil
  unused := by
    intro i hi
    cases hi

/-! ## Adding -/

theorem get?_add_fst (h : s.Tidy) (a : α) : s.get? (s.add a).1 = none := by
  unfold add
  split
  · next i rest hv => exact (h.unused i (by rw [hv]; exact List.mem_cons_self)).2
  · simp [get?]

theorem get?_add (h : s.Tidy) (a : α) (j : Nat) :
    (s.add a).2.get? j = if (s.add a).1 = j then some a else s.get? j := by
  unfold add
  split
  · next i rest hv =>
    have hi : i < s.cells.size := (h.unused i (by rw [hv]; exact List.mem_cons_self)).1
    simp only [get?_eq_join, Array.getElem?_setIfInBounds]
    by_cases hij : i = j
    · subst hij
      simp [hi]
    · simp [hij]
  · simp only [get?_eq_join, Array.getElem?_push]
    by_cases hj : j = s.cells.size
    · simp [hj]
    · simp [hj, Ne.symm hj]

theorem get?_add_of_ne (h : s.Tidy) (a : α) {j : Nat} (hj : (s.add a).1 ≠ j) :
    (s.add a).2.get? j = s.get? j := by
  rw [get?_add h, if_neg hj]

theorem get?_add_self (h : s.Tidy) (a : α) : (s.add a).2.get? (s.add a).1 = some a := by
  rw [get?_add h, if_pos rfl]

/-- What is there stays. -/
theorem get?_add_of_some (h : s.Tidy) (a : α) {j : Nat} {b : α} (hj : s.get? j = some b) :
    (s.add a).2.get? j = some b := by
  have hne : (s.add a).1 ≠ j := by
    rintro rfl
    rw [get?_add_fst h a] at hj
    cases hj
  rw [get?_add_of_ne h a hne]
  exact hj

/-- Without vacant numbers the next one is the first that was never given. -/
theorem add_of_packed (h : s.vacant = []) (a : α) :
    s.add a = (s.cells.size, { s with cells := s.cells.push (some a) }) := by
  rw [add, h]

theorem size_add_of_mem {i : Nat} (a : α) (hi : i < s.cells.size) :
    i < (s.add a).2.cells.size := by
  unfold add
  split
  · simpa using hi
  · simp only [Array.size_push]
    omega

theorem tidy_add (h : s.Tidy) (a : α) : (s.add a).2.Tidy := by
  have hget := get?_add h a
  have hsize : ∀ i, i < s.cells.size → i < (s.add a).2.cells.size := fun i hi =>
    size_add_of_mem a hi
  cases hv : s.vacant with
  | nil =>
    have hv' : (s.add a).2.vacant = [] := by simp [add, hv]
    exact ⟨by rw [hv']; exact List.nodup_nil, by rw [hv']; simp⟩
  | cons i rest =>
    have hn := h.nodup
    rw [hv, List.nodup_cons] at hn
    have hv' : (s.add a).2.vacant = rest := by simp [add, hv]
    have hi' : (s.add a).1 = i := by simp [add, hv]
    refine ⟨by rw [hv']; exact hn.2, ?_⟩
    rw [hv']
    intro j hj
    have hne : i ≠ j := fun hij => hn.1 (hij ▸ hj)
    obtain ⟨hlt, hnone⟩ := h.unused j (by rw [hv]; exact List.mem_cons_of_mem i hj)
    refine ⟨hsize j hlt, ?_⟩
    rw [hget, hi', if_neg hne]
    exact hnone

/-! ## The other operations -/

/-- Only the value that is there matters to a change. -/
theorem modify_congr {i : Nat} {a : α} (h : s.get? i = some a) {f f' : α → α} (hf : f a = f' a) :
    s.modify i f = s.modify i f' := by
  rw [get?_eq_join, Option.join_eq_some_iff] at h
  unfold modify
  congr 1
  refine Array.ext_getElem? fun j => ?_
  rw [Array.getElem?_modify, Array.getElem?_modify]
  by_cases hj : i = j
  · subst hj
    rw [if_pos rfl, if_pos rfl, h, Option.map_some, Option.map_some, Option.map_some, Option.map_some,
      hf]
  · rw [if_neg hj, if_neg hj]

@[simp]
theorem size_modify (i : Nat) (f : α → α) : (s.modify i f).cells.size = s.cells.size := by
  simp [modify]

@[simp]
theorem size_map (f : α → α) : (s.map f).cells.size = s.cells.size := by
  simp [map]

@[simp]
theorem size_vacate (i : Nat) : (s.vacate i).cells.size = s.cells.size := by
  unfold vacate
  split <;> simp

@[simp]
theorem size_close (i : Nat) : (s.close i).cells.size = s.cells.size := by
  unfold close
  split <;> simp

theorem tidy_modify (h : s.Tidy) (i : Nat) (f : α → α) : (s.modify i f).Tidy where
  nodup := h.nodup
  unused := by
    intro j hj
    obtain ⟨hlt, hnone⟩ := h.unused j hj
    rw [size_modify, get?_modify, hnone]
    exact ⟨hlt, by simp⟩

theorem tidy_map (h : s.Tidy) (f : α → α) : (s.map f).Tidy where
  nodup := h.nodup
  unused := by
    intro j hj
    obtain ⟨hlt, hnone⟩ := h.unused j hj
    rw [size_map, get?_map, hnone]
    exact ⟨hlt, rfl⟩

theorem tidy_close (h : s.Tidy) (i : Nat) : (s.close i).Tidy := by
  have hv : (s.close i).vacant = s.vacant := by
    unfold close
    split <;> rfl
  refine ⟨by rw [hv]; exact h.nodup, ?_⟩
  rw [hv]
  intro j hj
  obtain ⟨hlt, hnone⟩ := h.unused j hj
  rw [size_close, get?_close, hnone]
  exact ⟨hlt, by simp⟩

theorem tidy_vacate (h : s.Tidy) (i : Nat) : (s.vacate i).Tidy := by
  cases hi : s.get? i with
  | none =>
    have : s.vacate i = s := by simp [vacate, hi]
    rw [this]
    exact h
  | some a =>
    have hv : (s.vacate i).vacant = i :: s.vacant := by simp [vacate, hi]
    -- a number in use is not waiting to be handed out, so it enters the list once
    have hnot : i ∉ s.vacant := by
      intro hm
      rw [(h.unused i hm).2] at hi
      cases hi
    refine ⟨by rw [hv]; exact List.nodup_cons.2 ⟨hnot, h.nodup⟩, ?_⟩
    rw [hv]
    intro j hj
    rw [size_vacate, get?_vacate]
    rcases List.mem_cons.1 hj with rfl | hj
    · exact ⟨lt_size_of_get? hi, by simp⟩
    · obtain ⟨hlt, hnone⟩ := h.unused j hj
      exact ⟨hlt, by rw [hnone]; simp⟩

/-! ## Vacating many -/

theorem get?_foldl_vacate (is : List Nat) (s : Slots α) (j : Nat) :
    (is.foldl vacate s).get? j = if j ∈ is then none else s.get? j := by
  induction is generalizing s with
  | nil => simp
  | cons i is ih =>
    rw [List.foldl_cons, ih, get?_vacate]
    by_cases hi : i = j
    · simp [hi]
    · simp [hi, Ne.symm hi]

/-- Numbers in use become the next to be handed out, the last one vacated first. -/
theorem vacant_foldl_vacate {is : List Nat} (hn : is.Nodup) (hlive : ∀ i ∈ is, (s.get? i).isSome) :
    (is.foldl vacate s).vacant = is.reverse ++ s.vacant := by
  induction is generalizing s with
  | nil => rfl
  | cons i is ih =>
    obtain ⟨hi, hn⟩ := List.nodup_cons.1 hn
    obtain ⟨a, ha⟩ := Option.isSome_iff_exists.1 (hlive i List.mem_cons_self)
    have hv : (s.vacate i).vacant = i :: s.vacant := by simp [vacate, ha]
    rw [List.foldl_cons, ih hn, hv, List.reverse_cons, List.append_assoc, List.singleton_append]
    intro j hj
    have hne : i ≠ j := fun hij => hi (hij ▸ hj)
    rw [get?_vacate, if_neg hne]
    exact hlive j (List.mem_cons_of_mem i hj)

end PulseFlow.Slots
