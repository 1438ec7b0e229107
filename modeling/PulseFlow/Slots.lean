/-!
# Slots

A store that hands out numbers.  A value leaves it in one of two ways: `vacate` makes its number
available again, the last one vacated being handed out first, and `close` takes the number out of
use for good.

    (s.modify i f).get? j = if i = j then (s.get? j).map f else s.get? j     (get?_modify)
    (s.vacate i).get? j   = if i = j then none else s.get? j                (get?_vacate)
    (s.close i).get? j    = if i = j then none else s.get? j                (get?_close)
-/

namespace PulseFlow

structure Slots (α : Type) where
  cells : Array (Option α) := #[]
  /-- Numbers to hand out again, next one first. -/
  vacant : List Nat := []
  /-- How many numbers were closed. -/
  closed : Nat := 0

namespace Slots

variable {α : Type}

def empty : Slots α := {}

instance : Inhabited (Slots α) := ⟨empty⟩

/-! ## Operations -/

def get? (s : Slots α) (i : Nat) : Option α := s.cells.getD i none

/-- Occupies the next vacant number, or a new one at the end. -/
def add (s : Slots α) (a : α) : Nat × Slots α :=
  match s.vacant with
  | i :: rest => (i, { s with cells := s.cells.setIfInBounds i (some a), vacant := rest })
  | [] => (s.cells.size, { s with cells := s.cells.push (some a) })

/-- Changes the value at `i`, if there is one. -/
def modify (s : Slots α) (i : Nat) (f : α → α) : Slots α :=
  { s with cells := s.cells.modify i (Option.map f) }

/-- Empties the slot and keeps its number for reuse. -/
def vacate (s : Slots α) (i : Nat) : Slots α :=
  match s.get? i with
  | some _ => { s with cells := s.cells.setIfInBounds i none, vacant := i :: s.vacant }
  | none => s

/-- Empties the slot and never hands its number out again. -/
def close (s : Slots α) (i : Nat) : Slots α :=
  match s.get? i with
  | some _ => { s with cells := s.cells.setIfInBounds i none, closed := s.closed + 1 }
  | none => s

/-- Applies `f` to every stored value. -/
def map (s : Slots α) (f : α → α) : Slots α :=
  { s with cells := s.cells.map (Option.map f) }

/-- How many values are stored, by the books. -/
def size (s : Slots α) : Nat := s.cells.size - s.vacant.length - s.closed

/-- Occupied numbers with their values, in increasing order. -/
def entries (s : Slots α) : List (Nat × α) :=
  (List.range s.cells.size).filterMap fun i => (s.get? i).map (i, ·)

/-- Occupied numbers, in increasing order. -/
def ids (s : Slots α) : List Nat :=
  (List.range s.cells.size).filter fun i => (s.get? i).isSome

/-! ## Look-ups after an operation -/

theorem get?_eq_join (s : Slots α) (i : Nat) : s.get? i = s.cells[i]?.join := by
  rw [get?, Array.getD_eq_getD_getElem?]
  cases s.cells[i]? <;> rfl

theorem mem_entries {s : Slots α} {i : Nat} {a : α} :
    (i, a) ∈ s.entries ↔ s.get? i = some a := by
  simp only [entries, List.mem_filterMap, List.mem_range, Option.map_eq_some_iff, Prod.mk.injEq]
  constructor
  · rintro ⟨_, _, _, h, rfl, rfl⟩
    exact h
  · intro h
    refine ⟨i, ?_, a, h, rfl, rfl⟩
    rw [get?_eq_join, Option.join_eq_some_iff] at h
    obtain ⟨h', -⟩ := Array.getElem?_eq_some_iff.1 h
    exact h'

theorem mem_ids {s : Slots α} {i : Nat} : i ∈ s.ids ↔ (s.get? i).isSome = true := by
  simp only [ids, List.mem_filter, List.mem_range, and_iff_right_iff_imp]
  intro h
  obtain ⟨a, ha⟩ := Option.isSome_iff_exists.1 h
  rw [get?_eq_join, Option.join_eq_some_iff] at ha
  obtain ⟨h', -⟩ := Array.getElem?_eq_some_iff.1 ha
  exact h'

theorem get?_modify (s : Slots α) (i j : Nat) (f : α → α) :
    (s.modify i f).get? j = if i = j then (s.get? j).map f else s.get? j := by
  simp only [get?_eq_join, modify, Array.getElem?_modify]
  split
  · cases s.cells[j]? with
    | none => rfl
    | some o => cases o <;> rfl
  · rfl

theorem get?_map (s : Slots α) (f : α → α) (j : Nat) :
    (s.map f).get? j = (s.get? j).map f := by
  simp only [get?_eq_join, map, Array.getElem?_map]
  cases s.cells[j]? with
  | none => rfl
  | some o => cases o <;> rfl

theorem get?_vacate (s : Slots α) (i j : Nat) :
    (s.vacate i).get? j = if i = j then none else s.get? j := by
  unfold vacate
  split
  · simp only [get?_eq_join, Array.getElem?_setIfInBounds]
    split
    · split <;> rfl
    · rfl
  · next h =>
    split
    · next hij => exact hij ▸ h
    · rfl

theorem get?_close (s : Slots α) (i j : Nat) :
    (s.close i).get? j = if i = j then none else s.get? j := by
  unfold close
  split
  · simp only [get?_eq_join, Array.getElem?_setIfInBounds]
    split
    · split <;> rfl
    · rfl
  · next h =>
    split
    · next hij => exact hij ▸ h
    · rfl

end Slots

end PulseFlow
