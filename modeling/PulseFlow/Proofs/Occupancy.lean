import Mathlib.Data.List.Nodup
import PulseFlow.Proofs.Numbers

/-!
# The books of a store

Whatever is added, vacated and closed, in any order and at any numbers, the numbers of a store are
divided up into three: those in use, those to be handed out again, and those that were closed.  All
else about the books follows from this.

    (s.vacant ++ (gone ++ s.ids)).Perm (List.range s.cells.size)                  (Books.divided)

The numbers that were closed, and the values that were added last, are read off the uses made of the
store (`closings`, `latest?`).
-/

namespace PulseFlow.Slots

variable {α : Type} {s s' : Slots α}

/-! ## Uses -/

/-- A use that is made of a store. -/
inductive Use (α : Type) where
  | add (a : α)
  | vacate (i : Nat)
  | close (i : Nat)

def perform (s : Slots α) : Use α → Slots α
  | .add a => (s.add a).2
  | .vacate i => s.vacate i
  | .close i => s.close i

/-- The store after some uses. -/
def after (s : Slots α) (uses : List (Use α)) : Slots α := uses.foldl perform s

/-- The number that is taken out of use for good, if one is. -/
def closing? (s : Slots α) : Use α → Option Nat
  | .close i => if (s.get? i).isSome then some i else none
  | _ => none

/-- The value that is added at number `i`, if one is. -/
def placing? (s : Slots α) (i : Nat) : Use α → Option α
  | .add a => if (s.add a).1 = i then some a else none
  | _ => none

/-- The numbers taken out of use for good in the course of some uses. -/
def closings (s : Slots α) : List (Use α) → List Nat
  | [] => []
  | u :: uses => (s.closing? u).toList ++ (s.perform u).closings uses

/-- The value that is added last at number `i` in the course of some uses. -/
def latest? (s : Slots α) (i : Nat) : List (Use α) → Option α
  | [] => none
  | u :: uses => ((s.perform u).latest? i uses).or (s.placing? i u)

/-! ## Numbers in use -/

theorem nodup_ids (s : Slots α) : s.ids.Nodup := List.nodup_range.filter _

/-- One number more is in use. -/
theorem ids_perm_cons {i : Nat} (hi : s.get? i = none)
    (h : ∀ j, (s'.get? j).isSome = true ↔ j = i ∨ (s.get? j).isSome = true) :
    s'.ids.Perm (i :: s.ids) := by
  have hnot : i ∉ s.ids := by
    rw [mem_ids, hi]
    exact Bool.false_ne_true
  refine (List.perm_ext_iff_of_nodup s'.nodup_ids (List.nodup_cons.2 ⟨hnot, s.nodup_ids⟩)).2 ?_
  intro j
  rw [mem_ids, List.mem_cons, mem_ids]
  exact h j

theorem ids_add (h : s.Tidy) (a : α) : (s.add a).2.ids.Perm ((s.add a).1 :: s.ids) := by
  refine ids_perm_cons (get?_add_fst h a) fun j => ?_
  rw [get?_add h]
  by_cases hj : (s.add a).1 = j
  · simp [hj]
  · simp [hj, Ne.symm hj]

/-- A number that was in use, and whose slot alone was emptied. -/
theorem ids_of_emptied {i : Nat} {a : α} (hi : s.get? i = some a)
    (h : ∀ j, s'.get? j = if i = j then none else s.get? j) : s.ids.Perm (i :: s'.ids) := by
  refine ids_perm_cons (by rw [h, if_pos rfl]) fun j => ?_
  rw [h]
  by_cases hj : i = j
  · subst hj
    simp [hi]
  · simp [hj, Ne.symm hj]

/-! ## The books -/

theorem perm_third (l m r : List Nat) (i : Nat) :
    (l ++ (m ++ i :: r)).Perm (i :: (l ++ (m ++ r))) :=
  (List.perm_middle.append_left l).trans List.perm_middle

/-- The number handed out was the first to be handed out again, or is the first that was never
given. -/
theorem range_add {rest : List Nat} (h : (s.vacant ++ rest).Perm (List.range s.cells.size))
    (a : α) : ((s.add a).1 :: ((s.add a).2.vacant ++ rest)).Perm
      (List.range (s.add a).2.cells.size) := by
  cases hv : s.vacant with
  | nil =>
    rw [hv, List.nil_append] at h
    rw [add_of_packed hv, Array.size_push, List.range_succ, hv, List.nil_append]
    exact (h.cons _).trans (List.perm_append_singleton _ _).symm
  | cons i vacant =>
    rw [hv] at h
    simpa [Slots.add, hv] using h

/-- The books of a store of which the numbers `gone` were closed and to which the values `last` were
added last. -/
structure Books (s : Slots α) (gone : List Nat) (last : Nat → Option α) : Prop where
  /-- Every number is to be handed out again, was closed, or is in use, and only one of these. -/
  divided : (s.vacant ++ (gone ++ s.ids)).Perm (List.range s.cells.size)
  counted : s.closed = gone.length
  kept : ∀ i a, s.get? i = some a → last i = some a

namespace Books

variable {gone : List Nat} {last : Nat → Option α} {i : Nat}

theorem nodup (h : Books s gone last) : (s.vacant ++ (gone ++ s.ids)).Nodup :=
  h.divided.nodup_iff.2 List.nodup_range

theorem lt_size (h : Books s gone last) (hi : i ∈ s.vacant ∨ i ∈ gone) : i < s.cells.size := by
  refine List.mem_range.1 (h.divided.subset ?_)
  rw [List.mem_append, List.mem_append]
  exact hi.imp_right .inl

theorem not_mem_gone (h : Books s gone last) (hi : i ∈ s.vacant) : i ∉ gone := fun hg =>
  (List.nodup_append.1 h.nodup).2.2 i hi i (List.mem_append_left _ hg) rfl

theorem get?_eq_none (h : Books s gone last) (hi : i ∈ s.vacant ∨ i ∈ gone) :
    s.get? i = none := by
  refine Option.not_isSome_iff_eq_none.1 fun hsome => ?_
  have hids : i ∈ s.ids := mem_ids.2 hsome
  obtain ⟨-, hrest, hapart⟩ := List.nodup_append.1 h.nodup
  rcases hi with hv | hg
  · exact hapart i hv i (List.mem_append_right _ hids) rfl
  · exact (List.nodup_append.1 hrest).2.2 i hg i hids rfl

/-- An empty slot is accounted for. -/
theorem mem_of_get?_eq_none (h : Books s gone last) (hi : i < s.cells.size)
    (hnone : s.get? i = none) : i ∈ s.vacant ∨ i ∈ gone := by
  have hmem := h.divided.symm.subset (List.mem_range.2 hi)
  rw [List.mem_append, List.mem_append, mem_ids, hnone] at hmem
  exact hmem.imp_right fun hm => hm.resolve_right Bool.false_ne_true

theorem tidy (h : Books s gone last) : s.Tidy where
  nodup := (List.nodup_append.1 h.nodup).1
  unused := fun _ hi => ⟨h.lt_size (.inl hi), h.get?_eq_none (.inl hi)⟩

theorem length (h : Books s gone last) :
    s.vacant.length + (s.closed + s.ids.length) = s.cells.size := by
  have hlen := h.divided.length_eq
  rwa [List.length_append, List.length_append, List.length_range, ← h.counted] at hlen

theorem retired (h : Books s gone last) (hi : i ∈ gone) : s.Retired i :=
  ⟨h.lt_size (.inr hi), h.get?_eq_none (.inr hi), fun hv => h.not_mem_gone hv hi⟩

/-! ### One use -/

theorem add (h : Books s gone last) (a : α) :
    Books (s.add a).2 gone fun i => (s.placing? i (.add a)).or (last i) where
  divided := by
    have hids := ((ids_add h.tidy a).append_left gone).append_left (s.add a).2.vacant
    exact (hids.trans (perm_third _ _ _ _)).trans (range_add h.divided a)
  counted := by
    unfold Slots.add
    split <;> exact h.counted
  kept := by
    intro i b hb
    rw [get?_add h.tidy] at hb
    rw [placing?]
    by_cases hi : (s.add a).1 = i
    · rw [if_pos hi] at hb ⊢
      exact hb
    · rw [if_neg hi] at hb ⊢
      exact h.kept i b hb

theorem vacate (h : Books s gone last) (i : Nat) : Books (s.vacate i) gone last := by
  cases hi : s.get? i with
  | none =>
    have hsame : s.vacate i = s := by simp [Slots.vacate, hi]
    rw [hsame]
    exact h
  | some a =>
    have hv : (s.vacate i).vacant = i :: s.vacant := by simp [Slots.vacate, hi]
    have hc : (s.vacate i).closed = s.closed := by simp [Slots.vacate, hi]
    refine ⟨?_, hc.trans h.counted, fun j b hb => ?_⟩
    · have hids := ((ids_of_emptied hi (s.get?_vacate i)).append_left gone).append_left s.vacant
      rw [hv, size_vacate]
      exact (hids.trans (perm_third _ _ _ _)).symm.trans h.divided
    · rw [get?_vacate] at hb
      split at hb
      · cases hb
      · exact h.kept j b hb

theorem close (h : Books s gone last) (i : Nat) :
    Books (s.close i) (gone ++ (s.closing? (.close i)).toList) last := by
  cases hi : s.get? i with
  | none =>
    have hsame : s.close i = s := by simp [Slots.close, hi]
    simpa [hsame, closing?, hi] using h
  | some a =>
    have hv : (s.close i).vacant = s.vacant := by simp [Slots.close, hi]
    have hc : (s.close i).closed = s.closed + 1 := by simp [Slots.close, hi]
    have hgone : (s.closing? (.close i)).toList = [i] := by simp [closing?, hi]
    rw [hgone]
    refine ⟨?_, by rw [hc, h.counted, List.length_append, List.length_singleton], fun j b hb => ?_⟩
    · have hids := ((ids_of_emptied hi (s.get?_close i)).append_left gone).append_left s.vacant
      rw [hv, size_close, List.append_assoc, List.singleton_append]
      exact hids.symm.trans h.divided
    · rw [get?_close] at hb
      split at hb
      · cases hb
      · exact h.kept j b hb

theorem perform (h : Books s gone last) (u : Use α) :
    Books (s.perform u) (gone ++ (s.closing? u).toList) fun i => (s.placing? i u).or (last i) := by
  cases u with
  | add a =>
    rw [show (s.closing? (.add a)).toList = [] from rfl, List.append_nil]
    exact h.add a
  | vacate i =>
    rw [show (s.closing? (.vacate i)).toList = [] from rfl, List.append_nil]
    exact h.vacate i
  | close i => exact h.close i

/-! ### All uses -/

/-- The induction is on the uses; what was closed and added before them comes first. -/
theorem after (h : Books s gone last) (uses : List (Use α)) :
    Books (s.after uses) (gone ++ s.closings uses) fun i => (s.latest? i uses).or (last i) := by
  induction uses generalizing s gone last with
  | nil =>
    rw [closings, List.append_nil]
    exact h
  | cons u uses ih =>
    have hrest := ih (h.perform u)
    simp only [List.append_assoc, ← Option.or_assoc] at hrest
    exact hrest

end Books

theorem books_empty : Books (empty : Slots α) [] fun _ => none where
  divided := .refl _
  counted := rfl
  kept := by
    intro i a h
    rw [get?_empty] at h
    cases h

theorem books_after (uses : List (Use α)) :
    Books (empty.after uses) (empty.closings uses) fun i => empty.latest? i uses := by
  simpa using (books_empty (α := α)).after uses

/-! ## A store in order -/

/-- What callers may rely on in a store of which the numbers `gone` were closed and to which the
values `last` were added last. -/
structure Orderly (s : Slots α) (gone : List Nat) (last : Nat → Option α) : Prop where
  vacant_once : s.vacant.Nodup
  vacant_empty : ∀ i ∈ s.vacant, i < s.cells.size ∧ s.get? i = none
  /-- An empty slot is to be filled again or was closed, and not both. -/
  vacant_or_closed : ∀ i, i < s.cells.size → s.get? i = none → (i ∈ s.vacant ↔ i ∉ gone)
  /-- Counting what is stored never subtracts more than there is. -/
  solvent : s.vacant.length + s.closed ≤ s.cells.size
  size : s.size = s.ids.length
  add_unoccupied : ∀ a, s.get? (s.add a).1 = none
  add_stores : ∀ a, (s.add a).2.get? (s.add a).1 = some a
  add_keeps : ∀ a i b, s.get? i = some b → (s.add a).2.get? i = some b
  /-- What was closed stays empty and is not handed out, whatever use is made of the store. -/
  closed_for_good : ∀ i ∈ gone, ∀ later a,
    (s.after later).get? i = none ∧ ((s.after later).add a).1 ≠ i
  latest : ∀ i a, s.get? i = some a → last i = some a

theorem Books.orderly {gone : List Nat} {last : Nat → Option α} (h : Books s gone last) :
    Orderly s gone last where
  vacant_once := h.tidy.nodup
  vacant_empty := h.tidy.unused
  vacant_or_closed := fun _ hi hnone =>
    ⟨h.not_mem_gone, fun hg => (h.mem_of_get?_eq_none hi hnone).resolve_right hg⟩
  solvent := by
    have hlen := h.length
    omega
  size := by
    have hlen := h.length
    rw [Slots.size]
    omega
  add_unoccupied := get?_add_fst h.tidy
  add_stores := get?_add_self h.tidy
  add_keeps := fun a _ _ => get?_add_of_some h.tidy a
  closed_for_good := by
    intro i hi later a
    have hretired := (h.after later).retired (List.mem_append_left (s.closings later) hi)
    exact ⟨hretired.empty, hretired.add_ne a⟩
  latest := h.kept

/-- However a fresh store is used, its books are in order, and they agree with the uses. -/
theorem orderly_after (uses : List (Use α)) :
    Orderly (empty.after uses) (empty.closings uses) fun i => empty.latest? i uses :=
  (books_after uses).orderly

end PulseFlow.Slots
