/-!
# Sorted sets

A finite set kept as a strictly increasing list.  The list is determined by the members, so two sets
with the same members are equal, and walking a set always gives its members in the same order.

    x ∈ s.insert a ↔ x = a ∨ x ∈ s            (mem_insert)
    x ∈ s.union t  ↔ x ∈ s ∨ x ∈ t            (mem_union)
    x ∈ s.filter p ↔ x ∈ s ∧ p x              (mem_filter)
    (∀ x, x ∈ s ↔ x ∈ t) → s = t              (ext_mem)
-/

namespace PulseFlow

open Std

variable {α : Type} [Ord α]

/-! ## Increasing lists -/

/-- Each element comes before all that follow it. -/
def Increasing (l : List α) : Prop :=
  l.Pairwise fun a b => compare a b = .lt

theorem increasing_nil : Increasing ([] : List α) := List.Pairwise.nil

/-- Puts `a` at its place; an element equal to it is replaced. -/
def placeSorted (a : α) : List α → List α
  | [] => [a]
  | b :: bs =>
    match compare a b with
    | .lt => a :: b :: bs
    | .eq => a :: bs
    | .gt => b :: placeSorted a bs

theorem mem_placeSorted [LawfulEqOrd α] {a x : α} {l : List α} :
    x ∈ placeSorted a l ↔ x = a ∨ x ∈ l := by
  induction l with
  | nil => simp [placeSorted]
  | cons b bs ih =>
    rw [placeSorted]
    split
    · simp
    · next h => simp [LawfulEqOrd.eq_of_compare h]
    · simp only [List.mem_cons, ih]
      grind

theorem increasing_placeSorted [TransOrd α] [LawfulEqOrd α] {a : α} {l : List α}
    (h : Increasing l) : Increasing (placeSorted a l) := by
  induction l with
  | nil => simp [placeSorted, Increasing]
  | cons b bs ih =>
    obtain ⟨hb, hbs⟩ := List.pairwise_cons.1 h
    rw [placeSorted]
    split
    · next hab =>
      refine List.pairwise_cons.2 ⟨fun c hc => ?_, h⟩
      rcases List.mem_cons.1 hc with rfl | hc
      · exact hab
      · exact TransCmp.lt_trans hab (hb c hc)
    · next hab =>
      obtain rfl := LawfulEqOrd.eq_of_compare hab
      exact h
    · next hab =>
      refine List.pairwise_cons.2 ⟨fun c hc => ?_, ih hbs⟩
      rcases mem_placeSorted.1 hc with rfl | hc
      · exact OrientedCmp.lt_of_gt hab
      · exact hb c hc

theorem Increasing.eq_of_mem_iff [TransOrd α] {l m : List α} (hl : Increasing l)
    (hm : Increasing m) (h : ∀ x, x ∈ l ↔ x ∈ m) : l = m := by
  induction l generalizing m with
  | nil =>
    cases m with
    | nil => rfl
    | cons b bs => exact absurd ((h b).2 (by simp)) (by simp)
  | cons a as ih =>
    cases m with
    | nil => exact absurd ((h a).1 (by simp)) (by simp)
    | cons b bs =>
      obtain ⟨ha, has⟩ := List.pairwise_cons.1 hl
      obtain ⟨hb, hbs⟩ := List.pairwise_cons.1 hm
      have irrefl : ∀ c : α, compare c c ≠ .lt := fun c hc => by
        have := (ReflOrd.compare_self : compare c c = .eq)
        rw [hc] at this; cases this
      have hab : a = b := by
        rcases List.mem_cons.1 ((h a).1 (by simp)) with rfl | hab
        · rfl
        rcases List.mem_cons.1 ((h b).2 (by simp)) with rfl | hba
        · rfl
        exact absurd (TransCmp.lt_trans (ha b hba) (hb a hab)) (irrefl a)
      subst hab
      congr 1
      refine ih has hbs fun x => ⟨fun hx => ?_, fun hx => ?_⟩
      · rcases List.mem_cons.1 ((h x).1 (List.mem_cons_of_mem _ hx)) with rfl | hx'
        · exact absurd (ha x hx) (irrefl x)
        · exact hx'
      · rcases List.mem_cons.1 ((h x).2 (List.mem_cons_of_mem _ hx)) with rfl | hx'
        · exact absurd (hb x hx) (irrefl x)
        · exact hx'

/-! ## Sets -/

structure SortedSet (α : Type) [Ord α] where
  toList : List α
  increasing : Increasing toList

namespace SortedSet

instance : Membership α (SortedSet α) := ⟨fun s a => a ∈ s.toList⟩

@[simp]
theorem mem_toList {s : SortedSet α} {a : α} : a ∈ s.toList ↔ a ∈ s := Iff.rfl

instance [DecidableEq α] : DecidableEq (SortedSet α) := fun s t =>
  decidable_of_iff (s.toList = t.toList)
    ⟨fun h => by cases s; cases t; simp_all, fun h => h ▸ rfl⟩

instance [DecidableEq α] (a : α) (s : SortedSet α) : Decidable (a ∈ s) :=
  inferInstanceAs (Decidable (a ∈ s.toList))

def empty : SortedSet α := ⟨[], increasing_nil⟩

instance : EmptyCollection (SortedSet α) := ⟨empty⟩

instance : Inhabited (SortedSet α) := ⟨empty⟩

@[simp]
theorem not_mem_empty (a : α) : a ∉ (∅ : SortedSet α) := List.not_mem_nil

theorem ext_mem [TransOrd α] {s t : SortedSet α} (h : ∀ x, x ∈ s ↔ x ∈ t) : s = t := by
  have := s.increasing.eq_of_mem_iff t.increasing h
  cases s; cases t; simp_all

def filter (s : SortedSet α) (p : α → Bool) : SortedSet α :=
  ⟨s.toList.filter p, s.increasing.filter p⟩

@[simp]
theorem mem_filter {s : SortedSet α} {p : α → Bool} {x : α} :
    x ∈ s.filter p ↔ x ∈ s ∧ p x = true := List.mem_filter

variable [TransOrd α] [LawfulEqOrd α]

def insert (s : SortedSet α) (a : α) : SortedSet α :=
  ⟨placeSorted a s.toList, increasing_placeSorted s.increasing⟩

@[simp]
theorem mem_insert {s : SortedSet α} {a x : α} : x ∈ s.insert a ↔ x = a ∨ x ∈ s :=
  mem_placeSorted

/-- Adds the elements of a list. -/
def insertMany (s : SortedSet α) (l : List α) : SortedSet α :=
  l.foldl insert s

@[simp]
theorem mem_insertMany {s : SortedSet α} {l : List α} {x : α} :
    x ∈ s.insertMany l ↔ x ∈ s ∨ x ∈ l := by
  induction l generalizing s with
  | nil => simp [insertMany]
  | cons a as ih =>
    rw [insertMany, List.foldl_cons, ← insertMany, ih]
    simp only [mem_insert, List.mem_cons]
    grind

def ofList (l : List α) : SortedSet α := (∅ : SortedSet α).insertMany l

@[simp]
theorem mem_ofList {l : List α} {x : α} : x ∈ ofList l ↔ x ∈ l := by
  simp [ofList]

def union (s t : SortedSet α) : SortedSet α := s.insertMany t.toList

@[simp]
theorem mem_union {s t : SortedSet α} {x : α} : x ∈ s.union t ↔ x ∈ s ∨ x ∈ t := by
  simp [union]

end SortedSet

end PulseFlow
