import Mathlib.Algebra.GroupWithZero.Nat
import Mathlib.Algebra.Order.BigOperators.Group.List
import Mathlib.Algebra.Order.Group.Nat
import Mathlib.Data.Finset.Card
import Mathlib.Logic.Relation
import PulseFlow.Engine.Basic
import PulseFlow.Proofs.Forms

/-!
# Wirings

What leads where and what refers to what in an engine, without signals, logics and instances
(`Wiring`).  If it goes round in no circle, every reference can be replaced by what it stands for,
again and again until no reference is left, and the number of nodes that this gives is the extent of
the wiring.

A node has a weight: it counts for itself and, if it is a reference, for all that the reference
stands for.  Its rank is the weight of all that leads to it.  So ranks grow along connections by at
least the weight of the node that is left behind, and stay within the weight of all.

    Leads joints j.id x → w.rank joints j.id + w.weight j ≤ w.rank joints x    (rank_add_le)
    j ∈ joints → w.rank joints j.id + w.weight j ≤ w.mass joints          (rank_add_le_mass)
    w.weight j = 1 + w.mass (w.template key), if `j` refers to `key`  (weight_of_refers)
-/

namespace PulseFlow

/-! ## Without circles -/

/-- Nothing leads back to itself. -/
def Acyclic {α : Type} (r : α → α → Prop) : Prop := ∀ a, ¬ Relation.TransGen r a a

theorem acyclic_of_lt {α : Type} {r : α → α → Prop} (height : α → Nat)
    (h : ∀ a b, r a b → height a < height b) : Acyclic r := by
  have hpath : ∀ a b, Relation.TransGen r a b → height a < height b := by
    intro a b hab
    induction hab with
    | single hab => exact h _ _ hab
    | tail _ hbc ih => exact ih.trans (h _ _ hbc)
  exact fun a haa => Nat.lt_irrefl _ (hpath a a haa)

/-- Where one more is counted, the sum is larger by as much. -/
theorem sum_ite_add_le {α : Type} {l : List α} {f : α → Nat} {P Q : α → Prop} [DecidablePred P]
    [DecidablePred Q] (hPQ : ∀ a ∈ l, P a → Q a) {a : α} (ha : a ∈ l) (hP : ¬ P a) (hQ : Q a) :
    (l.map fun x => if P x then f x else 0).sum + f a ≤
      (l.map fun x => if Q x then f x else 0).sum := by
  have hterm : ∀ x ∈ l, (if P x then f x else 0) ≤ if Q x then f x else 0 := by
    intro x hx
    by_cases hPx : P x
    · rw [if_pos hPx, if_pos (hPQ x hx hPx)]
    · rw [if_neg hPx]
      exact Nat.zero_le _
  induction l with
  | nil => cases ha
  | cons b l ih =>
    rw [List.map_cons, List.sum_cons, List.map_cons, List.sum_cons]
    have hb := hterm b List.mem_cons_self
    have hl : ∀ x ∈ l, (if P x then f x else 0) ≤ if Q x then f x else 0 := fun x hx =>
      hterm x (List.mem_cons_of_mem b hx)
    rcases List.mem_cons.1 ha with rfl | ha
    · have hrest := List.sum_le_sum hl
      rw [if_neg hP, if_pos hQ]
      omega
    · have hrest := ih (fun x hx => hPQ x (List.mem_cons_of_mem b hx)) ha hl
      omega

theorem mem_of_findEntry {α : Type} {k : Key} {a : α} {l : List (Key × α)}
    (h : findEntry k l = some a) : (k, a) ∈ l := by
  induction l with
  | nil => cases h
  | cons entry l ih =>
    rw [findEntry] at h
    split at h
    · next hk =>
      cases h
      rw [Std.LawfulEqOrd.eq_of_compare hk]
      exact List.mem_cons_self
    · exact List.mem_cons_of_mem entry (ih h)

/-! ## Wirings -/

/-- A node as far as wiring goes: what it refers to and where its outputs lead. -/
structure Joint where
  id : NodeId
  refers : Option Key
  fans : List Fan

/-- The nodes that callers see, and those of the templates. -/
structure Wiring where
  visible : List Joint
  templates : List (Key × List Joint)

/-- One node leads to another. -/
def Joint.Leads (joints : List Joint) (a b : NodeId) : Prop :=
  ∃ j ∈ joints, j.id = a ∧ ∃ f ∈ j.fans, ∃ s ∈ f, s.node = b

namespace Wiring

def template (w : Wiring) (key : Key) : List Joint := (findEntry key w.templates).getD []

/-- A template has a reference to another. -/
def Refers (w : Wiring) (a b : Key) : Prop := ∃ j ∈ w.template a, j.refers = some b

/-- Neither connections nor references go round in a circle. -/
structure Acyclic (w : Wiring) : Prop where
  visible : PulseFlow.Acyclic (Joint.Leads w.visible)
  templates : ∀ t ∈ w.templates, PulseFlow.Acyclic (Joint.Leads t.2)
  nesting : PulseFlow.Acyclic w.Refers

/-- Heights grow along connections, and depths along references. -/
def Climbs (w : Wiring) (height : NodeId → Nat) (depth : Key → Nat) : Prop :=
  (∀ joints ∈ w.visible :: w.templates.map Prod.snd, ∀ j ∈ joints, ∀ f ∈ j.fans, ∀ s ∈ f.toList,
    height j.id < height s.node) ∧
  ∀ t ∈ w.templates, ∀ j ∈ t.2, ∀ key ∈ j.refers, depth t.1 < depth key

instance (w : Wiring) (height : NodeId → Nat) (depth : Key → Nat) :
    Decidable (w.Climbs height depth) := by
  unfold Climbs
  infer_instance

theorem Climbs.acyclic {w : Wiring} {height : NodeId → Nat} {depth : Key → Nat}
    (h : w.Climbs height depth) : w.Acyclic := by
  have hleads : ∀ joints ∈ w.visible :: w.templates.map Prod.snd,
      PulseFlow.Acyclic (Joint.Leads joints) := by
    intro joints hjoints
    refine acyclic_of_lt height ?_
    rintro _ _ ⟨j, hj, rfl, f, hf, s, hs, rfl⟩
    exact h.1 joints hjoints j hj f hf s hs
  refine ⟨hleads _ List.mem_cons_self, fun t ht => hleads _ ?_, acyclic_of_lt depth ?_⟩
  · exact List.mem_cons_of_mem _ (List.mem_map_of_mem ht)
  · rintro a b ⟨j, hj, hb⟩
    unfold template at hj
    cases hfind : findEntry a w.templates with
    | none =>
      rw [hfind] at hj
      cases hj
    | some joints =>
      rw [hfind] at hj
      exact h.2 _ (mem_of_findEntry hfind) j hj b hb

/-- The number of nodes, those that references stand for included, down to `depth` levels. -/
def count (w : Wiring) : Nat → List Joint → Nat
  | 0, _ => 0
  | depth + 1, joints =>
    (joints.map fun j => 1 + (j.refers.map fun key => w.count depth (w.template key)).getD 0).sum

/-- The number of nodes when every reference is replaced by what it stands for.  There are no more
levels than templates. -/
def extent (w : Wiring) : Nat := w.count (w.templates.length + 1) w.visible

/-! ## Weights -/

def weight (w : Wiring) (j : Joint) : Nat :=
  1 + (j.refers.map fun key => w.count w.templates.length (w.template key)).getD 0

def mass (w : Wiring) (joints : List Joint) : Nat := (joints.map w.weight).sum

variable {w : Wiring} {joints : List Joint} {j : Joint} {k k' : Key}

theorem extent_eq (w : Wiring) : w.extent = w.mass w.visible := rfl

theorem one_le_weight (w : Wiring) (j : Joint) : 1 ≤ w.weight j := Nat.le_add_right 1 _

open Classical in
/-- The templates that a template refers to, directly or not. -/
noncomputable def below (w : Wiring) (k : Key) : Finset Key :=
  (w.templates.map Prod.fst).toFinset.filter fun k' => Relation.TransGen w.Refers k k'

theorem mem_below :
    k' ∈ w.below k ↔ k' ∈ w.templates.map Prod.fst ∧ Relation.TransGen w.Refers k k' := by
  classical
  rw [below, Finset.mem_filter, List.mem_toFinset]

/-- What is not filed stands for nothing. -/
theorem mem_of_template_ne_nil (h : w.template k ≠ []) : k ∈ w.templates.map Prod.fst := by
  unfold template at h
  cases hfind : findEntry k w.templates with
  | none =>
    rw [hfind] at h
    exact absurd rfl h
  | some joints => exact List.mem_map_of_mem (mem_of_findEntry hfind)

theorem count_nil (w : Wiring) (depth : Nat) : w.count depth [] = 0 := by
  cases depth <;> rfl

theorem card_below_lt (h : w.Acyclic) (hr : w.Refers k k') (hk' : k' ∈ w.templates.map Prod.fst) :
    (w.below k').card < (w.below k).card := by
  refine Finset.card_lt_card (Finset.ssubset_iff_of_subset ?_ |>.2 ⟨k', ?_, ?_⟩)
  · intro x hx
    obtain ⟨hx, hpath⟩ := mem_below.1 hx
    exact mem_below.2 ⟨hx, .head hr hpath⟩
  · exact mem_below.2 ⟨hk', .single hr⟩
  · exact fun hmem => h.nesting k' (mem_below.1 hmem).2

theorem card_below_lt_length (h : w.Acyclic) (hk : k ∈ w.templates.map Prod.fst) :
    (w.below k).card < w.templates.length := by
  have hssub : w.below k ⊂ (w.templates.map Prod.fst).toFinset := by
    refine Finset.ssubset_iff_of_subset ?_ |>.2 ⟨k, List.mem_toFinset.2 hk, ?_⟩
    · exact fun x hx => List.mem_toFinset.2 (mem_below.1 hx).1
    · exact fun hmem => h.nesting k (mem_below.1 hmem).2
  have hcard := Finset.card_lt_card hssub
  have hle := (w.templates.map Prod.fst).toFinset_card_le
  rw [List.length_map] at hle
  omega

/-- Levels beyond the last add nothing.  The induction is on the levels counted; each reference
leaves fewer templates below. -/
theorem count_succ (h : w.Acyclic) {depth : Nat} (hdepth : (w.below k).card < depth) :
    w.count (depth + 1) (w.template k) = w.count depth (w.template k) := by
  induction depth generalizing k with
  | zero => omega
  | succ depth ih =>
    rw [count, count]
    refine congrArg List.sum (List.map_congr_left fun j hj => ?_)
    cases hr : j.refers with
    | none => rfl
    | some k' =>
      rw [Option.map_some, Option.map_some, Option.getD_some, Option.getD_some]
      by_cases hnil : w.template k' = []
      · rw [hnil, count_nil, count_nil]
      · have hlt := card_below_lt h ⟨j, hj, hr⟩ (mem_of_template_ne_nil hnil)
        rw [ih (by omega)]

theorem count_template (h : w.Acyclic) (k : Key) :
    w.count w.templates.length (w.template k) = w.mass (w.template k) := by
  by_cases hnil : w.template k = []
  · rw [hnil, count_nil]
    rfl
  · exact (count_succ h (card_below_lt_length h (mem_of_template_ne_nil hnil))).symm

theorem weight_of_refers (h : w.Acyclic) (hj : j.refers = some k) :
    w.weight j = 1 + w.mass (w.template k) := by
  rw [weight, hj, Option.map_some, Option.getD_some, count_template h]

/-! ## Ranks -/

open Classical in
/-- The weight of all that leads to a node. -/
noncomputable def rank (w : Wiring) (joints : List Joint) (x : NodeId) : Nat :=
  (joints.map fun j =>
    if Relation.TransGen (Joint.Leads joints) j.id x then w.weight j else 0).sum

theorem rank_add_le (h : PulseFlow.Acyclic (Joint.Leads joints)) (hj : j ∈ joints) {x : NodeId}
    (hl : Joint.Leads joints j.id x) : w.rank joints j.id + w.weight j ≤ w.rank joints x := by
  classical
  exact sum_ite_add_le (fun _ _ hpath => .tail hpath hl) hj (h j.id) (.single hl)

theorem rank_add_le_mass (h : PulseFlow.Acyclic (Joint.Leads joints)) (hj : j ∈ joints) :
    w.rank joints j.id + w.weight j ≤ w.mass joints := by
  classical
  have hle := sum_ite_add_le (f := w.weight)
    (P := fun x : Joint => Relation.TransGen (Joint.Leads joints) x.id j.id)
    (Q := fun _ : Joint => True) (fun _ _ _ => trivial) hj (h j.id) trivial
  simp only [if_true] at hle
  exact hle

end Wiring

/-! ## The wiring of an engine -/

/-- The prototype that a node is a reference to. -/
def Node.refers? (n : Node) : Option Key :=
  match n.body with
  | .reference key _ => some key
  | .native _ => none

def Node.joint (id : NodeId) (n : Node) : Joint := ⟨id, n.refers?, n.outputs⟩

def Graph.joints (g : Graph) : List Joint := g.entries.map fun q => q.2.joint q.1

def Engine.wiring (e : Engine) : Wiring where
  visible := (e.graph.entries.filter fun q => !q.2.internal).map fun q => q.2.joint q.1
  templates := e.registry.prototypes.entries.map fun q => (q.1, q.2.graph.joints)

theorem Node.refers?_of_reference {n : Node} {k : Key} {b : Option Instance}
    (h : n.body = .reference k b) : n.refers? = some k := by
  rw [refers?, h]

theorem Node.SameForm.refers? {n n' : Node} (h : n.SameForm n') : n'.refers? = n.refers? := by
  have hb := h.body
  unfold Node.refers?
  revert hb
  generalize n.body = b, n'.body = b'
  intro hb
  cases hb with
  | native _ => rfl
  | reference k b b' => rfl

/-- Nodes of one form weigh the same. -/
theorem Wiring.weight_of_sameForm (w : Wiring) {n n' : Node} (h : n.SameForm n') (a b : NodeId) :
    w.weight (n'.joint b) = w.weight (n.joint a) := by
  rw [weight, weight, Node.joint, Node.joint, h.refers?]

namespace Graph

variable {g : Graph} {x : NodeId} {n : Node}

theorem joint_mem (hn : g.get? x = some n) : n.joint x ∈ g.joints :=
  List.mem_map_of_mem (f := fun q : NodeId × Node => q.2.joint q.1) (Slots.mem_entries.2 hn)

/-- A node leads on as its joint does. -/
theorem joint_leads {joints : List Joint} {s t : Socket} (hl : Leads g s t)
    (hn : g.get? s.node = some n) (hj : n.joint s.node ∈ joints) :
    Joint.Leads joints s.node t.node := by
  obtain ⟨m, f, hm, hf, ht⟩ := hl.mem_outputs
  cases hn.symm.trans hm
  exact ⟨_, hj, rfl, f, hf, t, ht, rfl⟩

end Graph

namespace Engine

variable {e : Engine} {x : NodeId} {n : Node} {k : Key} {p : Prototype}

theorem mem_visible (hn : e.graph.get? x = some n) (hv : n.internal = false) :
    n.joint x ∈ e.wiring.visible := by
  refine List.mem_map_of_mem (f := fun q : NodeId × Node => q.2.joint q.1)
    (List.mem_filter.2 ⟨Slots.mem_entries.2 hn, ?_⟩)
  rw [hv]
  rfl

theorem mem_templates (hp : e.prototype? k = some p) :
    (k, p.graph.joints) ∈ e.wiring.templates :=
  List.mem_map_of_mem (f := fun q : Key × Prototype => (q.1, q.2.graph.joints))
    (mem_of_findEntry hp)

theorem template_wiring (hp : e.prototype? k = some p) : e.wiring.template k = p.graph.joints := by
  have hfind : ∀ {l : List (Key × Prototype)}, findEntry k l = some p →
      findEntry k (l.map fun q => (q.1, q.2.graph.joints)) = some p.graph.joints := by
    intro l hl
    induction l with
    | nil => cases hl
    | cons entry l ih =>
      rw [findEntry] at hl
      rw [List.map_cons, findEntry]
      split at hl
      · next hk =>
        cases hl
        rw [if_pos hk]
      · next hk =>
        rw [if_neg hk]
        exact ih hl
  have hget : findEntry k e.wiring.templates = some p.graph.joints := hfind hp
  rw [Wiring.template, hget, Option.getD_some]

end Engine

end PulseFlow
