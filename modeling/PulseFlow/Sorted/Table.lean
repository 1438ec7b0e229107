import PulseFlow.Sorted.Set

/-!
# Sorted tables

A finite map kept as a list of entries with strictly increasing keys.  Two tables that answer every
look-up alike are equal, and walking a table visits its keys in order.

    (t.insert k a).get? j = if j = k then some a else t.get? j      (get?_insert)
    (t.erase k).get? j    = if j = k then none else t.get? j        (get?_erase)
    (∀ j, t.get? j = u.get? j) → t = u                              (ext_get?)
-/

namespace PulseFlow

open Std

variable {κ α : Type} [Ord κ]

/-! ## Entry lists -/

/-- Puts an entry at its place; an entry with the same key is replaced. -/
def placeEntry (k : κ) (a : α) : List (κ × α) → List (κ × α)
  | [] => [(k, a)]
  | e :: es =>
    match compare k e.1 with
    | .lt => (k, a) :: e :: es
    | .eq => (k, a) :: es
    | .gt => e :: placeEntry k a es

/-- The value filed under `k`. -/
def findEntry (k : κ) : List (κ × α) → Option α
  | [] => none
  | e :: es => if compare k e.1 = .eq then some e.2 else findEntry k es

theorem map_fst_placeEntry [LawfulEqOrd κ] (k : κ) (a : α) (l : List (κ × α)) :
    (placeEntry k a l).map Prod.fst = placeSorted k (l.map Prod.fst) := by
  induction l with
  | nil => rfl
  | cons e es ih =>
    rw [placeEntry, List.map_cons, placeSorted]
    cases compare k e.1 <;> simp [ih]

theorem findEntry_eq_some_iff [LawfulEqOrd κ] {l : List (κ × α)}
    (h : (l.map Prod.fst).Nodup) {k : κ} {a : α} : findEntry k l = some a ↔ (k, a) ∈ l := by
  induction l with
  | nil => simp [findEntry]
  | cons e es ih =>
    obtain ⟨j, b⟩ := e
    simp only [List.map_cons, List.nodup_cons] at h
    rw [findEntry]
    split
    · next hk =>
      obtain rfl := LawfulEqOrd.eq_of_compare hk
      simp only [List.mem_cons, Prod.mk.injEq, true_and, Option.some.injEq]
      refine ⟨fun hb => .inl hb.symm, ?_⟩
      rintro (rfl | hm)
      · rfl
      · exact absurd (List.mem_map_of_mem hm) h.1
    · next hk =>
      rw [ih h.2, List.mem_cons, Prod.mk.injEq]
      refine ⟨.inr, ?_⟩
      rintro (⟨rfl, -⟩ | hm)
      · exact absurd ReflOrd.compare_self hk
      · exact hm

theorem findEntry_placeEntry [LawfulEqOrd κ] [DecidableEq κ] (k j : κ) (a : α)
    (l : List (κ × α)) :
    findEntry j (placeEntry k a l) = if j = k then some a else findEntry j l := by
  induction l with
  | nil =>
    by_cases hj : j = k
    · subst hj; simp [placeEntry, findEntry, ReflOrd.compare_self]
    · have : compare j k ≠ .eq := fun h => hj (LawfulEqOrd.eq_of_compare h)
      simp [placeEntry, findEntry, hj, this]
  | cons e es ih =>
    rw [placeEntry]
    split
    · by_cases hj : j = k
      · subst hj; simp [findEntry]
      · have : compare j k ≠ .eq := fun h => hj (LawfulEqOrd.eq_of_compare h)
        simp [findEntry, hj, this]
    · next h =>
      have hk := LawfulEqOrd.eq_of_compare h
      by_cases hj : j = k
      · subst hj; simp [findEntry]
      · have : compare j k ≠ .eq := fun h => hj (LawfulEqOrd.eq_of_compare h)
        simp [findEntry, hj, this, ← hk]
    · next h =>
      rw [findEntry, ih, findEntry]
      by_cases hj : j = k
      · subst hj; simp [h]
      · simp [hj]

theorem Increasing.nodup [LawfulEqOrd κ] {l : List κ} (h : Increasing l) : l.Nodup := by
  refine List.Pairwise.imp (fun {a b} hab he => ?_) h
  subst he
  have := (ReflOrd.compare_self : compare a a = .eq)
  rw [hab] at this
  cases this

/-! ## Tables -/

structure Table (κ α : Type) [Ord κ] where
  entries : List (κ × α)
  increasing : Increasing (entries.map Prod.fst)

namespace Table

def empty : Table κ α := ⟨[], increasing_nil⟩

instance : EmptyCollection (Table κ α) := ⟨empty⟩

instance : Inhabited (Table κ α) := ⟨empty⟩

def get? (t : Table κ α) (k : κ) : Option α := findEntry k t.entries

def contains (t : Table κ α) (k : κ) : Bool := (t.get? k).isSome

def keys (t : Table κ α) : List κ := t.entries.map Prod.fst

def values (t : Table κ α) : List α := t.entries.map Prod.snd

@[simp]
theorem get?_empty (k : κ) : (∅ : Table κ α).get? k = none := rfl

theorem get?_eq_some_iff [LawfulEqOrd κ] {t : Table κ α} {k : κ} {a : α} :
    t.get? k = some a ↔ (k, a) ∈ t.entries :=
  findEntry_eq_some_iff t.increasing.nodup

theorem ext_entries {t u : Table κ α} (h : t.entries = u.entries) : t = u := by
  cases t; cases u; simp_all

/-- Drops the entry of `k`, if there is one. -/
def erase [DecidableEq κ] (t : Table κ α) (k : κ) : Table κ α :=
  ⟨t.entries.filter fun e => e.1 ≠ k, List.Pairwise.sublist
    (List.Sublist.map Prod.fst List.filter_sublist) t.increasing⟩

theorem get?_erase [LawfulEqOrd κ] [DecidableEq κ] (t : Table κ α) (k j : κ) :
    (t.erase k).get? j = if j = k then none else t.get? j := by
  ext a
  rw [get?_eq_some_iff]
  by_cases hj : j = k
  · simp [erase, hj]
  · simp [erase, hj, ← get?_eq_some_iff]

variable [TransOrd κ] [LawfulEqOrd κ]

def insert (t : Table κ α) (k : κ) (a : α) : Table κ α :=
  ⟨placeEntry k a t.entries, by
    rw [map_fst_placeEntry]; exact increasing_placeSorted t.increasing⟩

theorem get?_insert [DecidableEq κ] (t : Table κ α) (k j : κ) (a : α) :
    (t.insert k a).get? j = if j = k then some a else t.get? j :=
  findEntry_placeEntry k j a t.entries

@[simp]
theorem get?_insert_self (t : Table κ α) (k : κ) (a : α) : (t.insert k a).get? k = some a := by
  classical rw [get?_insert, if_pos rfl]

def ofList (l : List (κ × α)) : Table κ α :=
  l.foldl (fun t e => t.insert e.1 e.2) ∅

theorem ext_get? {t u : Table κ α} (h : ∀ k, t.get? k = u.get? k) : t = u := by
  have hmem : ∀ e : κ × α, e ∈ t.entries ↔ e ∈ u.entries := fun e => by
    rw [← get?_eq_some_iff, ← get?_eq_some_iff, h]
  have hkeys : t.entries.map Prod.fst = u.entries.map Prod.fst :=
    t.increasing.eq_of_mem_iff u.increasing fun k => by simp [hmem]
  refine ext_entries (List.ext_getElem (by simpa using congrArg List.length hkeys) ?_)
  intro i hi hj
  have hk : t.entries[i].1 = u.entries[i].1 := by
    have := List.getElem_of_eq hkeys (i := i) (by simpa using hi)
    simpa using this
  have h1 : t.get? t.entries[i].1 = some t.entries[i].2 :=
    get?_eq_some_iff.2 (List.getElem_mem hi)
  have h2 : u.get? u.entries[i].1 = some u.entries[i].2 :=
    get?_eq_some_iff.2 (List.getElem_mem hj)
  rw [h, hk, h2] at h1
  exact Prod.ext hk (Option.some.inj h1).symm

end Table

end PulseFlow
