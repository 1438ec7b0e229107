import Mathlib.Data.List.Nodup
import PulseFlow.Registry

/-!
# Tables of prototypes

What the engine reads off its table of prototypes: the numbers of ports that references to a key
have, and the idle instances of all pools together.  Replacing one prototype replaces its pool and
leaves the other pools as they are:

    (pooled (t.insert k p)).Perm (p.pool ++ pooled (t.erase k))            (pooled_insert)
    (pooled t).Perm (poolOf t k ++ pooled (t.erase k))                       (pooled_perm)
-/

namespace PulseFlow

namespace Table

variable {κ α : Type} [Ord κ] [Std.LawfulEqOrd κ]

theorem nodup_entries (t : Table κ α) : t.entries.Nodup :=
  List.Nodup.of_map Prod.fst t.increasing.nodup

variable [Std.TransOrd κ] [DecidableEq κ]

theorem insert_perm (t : Table κ α) (k : κ) (a : α) :
    (t.insert k a).entries.Perm ((k, a) :: (t.erase k).entries) := by
  have hnot : (k, a) ∉ (t.erase k).entries := by simp [erase]
  refine (List.perm_ext_iff_of_nodup (nodup_entries _)
    (List.nodup_cons.2 ⟨hnot, nodup_entries _⟩)).2 ?_
  rintro ⟨j, b⟩
  rw [← get?_eq_some_iff, get?_insert, List.mem_cons, ← get?_eq_some_iff, get?_erase]
  by_cases hj : j = k
  · simp [hj, eq_comm]
  · simp [hj]

theorem perm_of_get? {t : Table κ α} {k : κ} {a : α} (h : t.get? k = some a) :
    t.entries.Perm ((k, a) :: (t.erase k).entries) := by
  have hself : t.insert k a = t := by
    refine ext_get? fun j => ?_
    rw [get?_insert]
    by_cases hj : j = k
    · rw [if_pos hj, hj, h]
    · rw [if_neg hj]
  have := insert_perm t k a
  rwa [hself] at this

theorem erase_of_get?_none {t : Table κ α} {k : κ} (h : t.get? k = none) : t.erase k = t := by
  refine ext_get? fun j => ?_
  rw [get?_erase]
  by_cases hj : j = k
  · rw [if_pos hj, hj, h]
  · rw [if_neg hj]

end Table

/-- The prototypes of a registry by their keys. -/
abbrev Prototypes := Table Key Prototype

namespace Prototypes

variable {t : Prototypes} {k : Key} {p : Prototype}

/-- The numbers of inputs and outputs that references to a key have. -/
def arity? (t : Prototypes) (k : Key) : Option (Nat × Nat) :=
  (t.get? k).map fun p => (p.inputs.length, p.outputs.length)

/-- The idle instances of all prototypes. -/
def pooled (t : Prototypes) : List Instance := t.entries.flatMap fun entry => entry.2.pool

/-- The idle instances of the prototype with a key. -/
def poolOf (t : Prototypes) (k : Key) : List Instance := ((t.get? k).map Prototype.pool).getD []

theorem poolOf_of_get? (h : t.get? k = some p) : poolOf t k = p.pool := by
  rw [poolOf, h, Option.map_some, Option.getD_some]

theorem mem_pooled {i : Instance} :
    i ∈ pooled t ↔ ∃ k p, t.get? k = some p ∧ i ∈ p.pool := by
  simp only [pooled, List.mem_flatMap, Prod.exists, Table.get?_eq_some_iff]

theorem pooled_insert (t : Prototypes) (k : Key) (p : Prototype) :
    (pooled (t.insert k p)).Perm (p.pool ++ pooled (t.erase k)) := by
  have h := (Table.insert_perm t k p).flatMap_right fun entry => entry.2.pool
  simpa [pooled] using h

theorem pooled_perm (t : Prototypes) (k : Key) :
    (pooled t).Perm (poolOf t k ++ pooled (t.erase k)) := by
  cases h : t.get? k with
  | none => rw [Table.erase_of_get?_none h, poolOf, h, Option.map_none, Option.getD_none]; rfl
  | some p =>
    have hp := (Table.perm_of_get? h).flatMap_right fun entry => entry.2.pool
    rw [poolOf_of_get? h]
    simpa [pooled] using hp

/-- Replacing a prototype by one with as many ports changes no number of ports. -/
theorem arity?_insert_same {q : Prototype} (h : t.get? k = some p)
    (hi : q.inputs.length = p.inputs.length) (ho : q.outputs.length = p.outputs.length)
    (j : Key) : arity? (t.insert k q) j = arity? t j := by
  unfold arity?
  rw [Table.get?_insert]
  by_cases hj : j = k
  · rw [if_pos hj, hj, h, Option.map_some, Option.map_some, hi, ho]
  · rw [if_neg hj]

theorem arity?_insert_of_some {q : Prototype} {j : Key} {a : Nat × Nat} (h : t.get? k = none)
    (ha : arity? t j = some a) : arity? (t.insert k q) j = some a := by
  have hj : j ≠ k := by
    intro hj
    rw [hj, arity?, h] at ha
    cases ha
  rw [arity?, Table.get?_insert, if_neg hj]
  exact ha

end Prototypes

end PulseFlow
