import Mathlib
import PulseFlow.Proofs.Pulses

/-!
# A template that calls itself

`User.Countdown` gives back what comes in once it is not above zero, and else what a copy of itself
gives for one less.  A number `n` is therefore counted down by `n + 1` copies, each held by a
reference inside the one before.

Copies are made in the order in which they are needed, so the nodes of the copy at depth `q` have
the numbers from `base q` on.

    0 reference, 1 sink
    base q + 0 input, 1 output, 2 zero, 3 comparison, 4 one, 5 difference, 6 reference

All there is to know between two signals is how many copies there are and how many of them are bound
(`nested`): the one at depth `q` is bound if those above it are.  To bind or unbind the last one
changes two nodes (`graph_rebound`), to make one adds seven (`instantiate_prototype`), and while a
signal is in the last copy all references above it are active (`Bound.sweep_due`).
-/

namespace PulseFlow.Countdown

open Engine Counter

/-! ## Building -/

def key : Key := ⟨"User", "Countdown"⟩

def greaterKey : Key := ⟨"Compare", "GreaterThan"⟩

def subtractKey : Key := ⟨"Math", "Subtract"⟩

def course : Edit (Except Error Unit) :=
  asked (.input 0) fun input =>
  asked (.output 0) fun output =>
  asked (.addLogic (.constant (.int 0))) fun nought =>
  asked (.add greaterKey) fun positive =>
  asked (.addLogic (.constant (.int 1))) fun one =>
  asked (.add subtractKey) fun minus =>
  asked (.add key) fun again =>
  joined ⟨input, 0⟩ ⟨nought, 0⟩ <|
  joined ⟨input, 0⟩ ⟨positive, 0⟩ <|
  joined ⟨nought, 0⟩ ⟨positive, 1⟩ <|
  joined ⟨positive, 0⟩ ⟨one, 0⟩ <|
  joined ⟨positive, 0⟩ ⟨minus, 0⟩ <|
  joined ⟨one, 0⟩ ⟨minus, 1⟩ <|
  joined ⟨minus, 0⟩ ⟨again, 0⟩ <|
  joined ⟨again, 0⟩ ⟨output, 0⟩ <|
  joined ⟨positive, 1⟩ ⟨output, 0⟩ <|
  .finish (.ok ())

/-- Records what reaches it. -/
def sink : Logic :=
  .custom {
    key := ⟨"Test", "Collect"⟩
    inputs := 1
    outputs := 0
    label := "Collect"
    react := fun memory inputs w => (memory, [], w.observe "seen" inputs) }

/-- One reference, which leads to a sink. -/
def build : Build NodeId := do
  registered key 1 1 course
  let reference ← call fun e => e.create key
  let collector ← placing sink
  call fun e => e.connect ⟨reference, 0⟩ ⟨collector, 0⟩
  return reference

/-! ## Copies inside copies -/

def template : List Node :=
  [wired (.native .socket) [[⟨2, 0⟩, ⟨3, 0⟩]],
    wired (.native .socket) [[]],
    wired (.native (.constant (.int 0))) [[⟨3, 1⟩]],
    wired (.native (.relation .greater)) [[⟨4, 0⟩, ⟨5, 0⟩], [⟨1, 0⟩]],
    wired (.native (.constant (.int 1))) [[⟨5, 1⟩]],
    wired (.native (.arithmetic .subtract)) [[⟨6, 0⟩]],
    wired (.reference key 1 1) [[⟨1, 0⟩]]]

def prototype (pool : List Instance) : Prototype where
  key := key
  graph := placed template
  inputs := [0]
  outputs := [1]
  revision := 1
  pool := pool

/-- The first node of the copy at depth `q`. -/
def base (q : Nat) : Nat := 7 * q + 2

def copy (q : Nat) : Instance := ⟨q, 1, List.range' (base q) 7, [base q], [base q + 1]⟩

/-- The reference that is bound to the copy at depth `q`. -/
def reference : Nat → Nat
  | 0 => 0
  | q + 1 => base q + 6

/-- Where this reference leads. -/
def exit : Nat → Nat
  | 0 => 1
  | q + 1 => base q + 1

/-- The instance of the reference at depth `q` if the first `b` are bound. -/
def holds (b q : Nat) : Option Instance := if q < b then some (copy q) else none

def hidden (n : Node) (fans : List (List Socket)) : Node := { wired n fans with internal := true }

/-- The reference at depth `q` when it is not bound. -/
def calling (q : Nat) : Node :=
  { wired (.reference key 1 1) [[⟨exit q, 0⟩]] with internal := decide (0 < q) }

/-- The output of the copy at depth `q`. -/
def output (b q : Nat) : Node := hidden (.native .socket) [if q < b then [⟨exit q, 0⟩] else []]

/-- The nodes of the copy at depth `q` if the first `b` copies are bound. -/
def inner (b q : Nat) : Nat → Node
  | 0 => hidden (.native .socket) [[⟨base q + 2, 0⟩, ⟨base q + 3, 0⟩]]
  | 1 => output b q
  | 2 => hidden (.native (.constant (.int 0))) [[⟨base q + 3, 1⟩]]
  | 3 => hidden (.native (.relation .greater))
      [[⟨base q + 4, 0⟩, ⟨base q + 5, 0⟩], [⟨base q + 1, 0⟩]]
  | 4 => hidden (.native (.constant (.int 1))) [[⟨base q + 5, 1⟩]]
  | 5 => hidden (.native (.arithmetic .subtract)) [[⟨base q + 6, 0⟩]]
  | _ => (calling (q + 1)).bind (holds b (q + 1))

def cell (b id : Nat) : Node :=
  if id = 0 then (calling 0).bind (holds b 0)
  else if id = 1 then wired (.native sink) []
  else inner b ((id - 2) / 7) ((id - 2) % 7)

def graph (m b : Nat) : Graph where
  cells := ((List.range (base m)).map fun id => some (cell b id)).toArray

def pool (m b : Nat) : List Instance := (List.range' b (m - b)).map copy

/-- There are `m` copies, and the first `b` of them are bound.  No node has a signal. -/
def nested (catalog : Catalog) (m b : Nat) (w : World) (steps : Nat) : Engine where
  graph := graph m b
  registry := ⟨catalog, .ofList [(key, prototype (pool m b))]⟩
  watch := (List.range b).map reference
  steps := steps
  nextInstance := m
  world := w

section Graph

variable {m b q c id : Nat}

theorem get?_graph (m b id : Nat) :
    (graph m b).get? id = if id < base m then some (cell b id) else none := by
  rw [Slots.get?_eq_join, graph, List.getElem?_toArray, List.getElem?_map]
  by_cases hid : id < base m
  · rw [if_pos hid, List.getElem?_range hid]
    rfl
  · rw [if_neg hid, List.getElem?_eq_none (by simpa using hid)]
    rfl

theorem size_graph (m b : Nat) : (graph m b).cells.size = base m := by
  simp [graph]

theorem cell_inner (hc : c < 7) : cell b (base q + c) = inner b q c := by
  unfold cell base
  rw [if_neg (by omega), if_neg (by omega)]
  congr 1
  · omega
  · omega

theorem get?_inner (hq : q < m) (hc : c < 7) :
    (graph m b).get? (base q + c) = some (inner b q c) := by
  rw [get?_graph, if_pos, cell_inner hc]
  unfold base
  omega

theorem cell_reference (b q : Nat) : cell b (reference q) = (calling q).bind (holds b q) := by
  cases q with
  | zero => rfl
  | succ q => exact cell_inner (by decide)

theorem cell_output (b q : Nat) : cell b (base q + 1) = output b q := cell_inner (by decide)

theorem reference_inj {p q : Nat} : reference p = reference q ↔ p = q := by
  cases p <;> cases q <;> simp [reference, base]

theorem reference_ne_output (p q : Nat) : reference p ≠ base q + 1 := by
  cases p with
  | zero => simp [reference, base]
  | succ p =>
    simp only [reference, base]
    omega

theorem inner_eq (hc : c < 6) (hone : c ≠ 1) (b b' q : Nat) :
    inner b q c = inner b' q c ∧ (inner b q c).instance? = none := by
  obtain rfl | rfl | rfl | rfl | rfl : c = 0 ∨ c = 2 ∨ c = 3 ∨ c = 4 ∨ c = 5 := by omega
  all_goals exact ⟨rfl, rfl⟩

/-- References and outputs are what changes when copies are bound; other nodes stay as they are. -/
theorem kinds (id : Nat) : (∃ q, id = reference q) ∨ (∃ q, id = base q + 1) ∨
    (∀ q, id ≠ reference q ∧ id ≠ base q + 1) ∧ (∀ b b', cell b id = cell b' id) ∧
      ∀ b, (cell b id).instance? = none := by
  by_cases hid : id < 2
  · obtain rfl | rfl : id = 0 ∨ id = 1 := by omega
    · exact .inl ⟨0, rfl⟩
    · refine .inr (.inr ⟨fun q => ⟨?_, by simp [base]⟩, fun _ _ => rfl, fun _ => rfl⟩)
      cases q <;> simp [reference, base]
  · obtain ⟨q, c, hc, rfl⟩ : ∃ q c, c < 7 ∧ id = base q + c :=
      ⟨(id - 2) / 7, (id - 2) % 7, by omega, by unfold base; omega⟩
    by_cases hsix : c = 6
    · exact .inl ⟨q + 1, by rw [hsix]; rfl⟩
    by_cases hone : c = 1
    · exact .inr (.inl ⟨q, by rw [hone]⟩)
    refine .inr (.inr ⟨fun p => ⟨?_, by unfold base; omega⟩, fun b b' => ?_, fun b => ?_⟩)
    · cases p <;> simp only [reference, base] <;> omega
    · rw [cell_inner hc, cell_inner hc]
      exact (inner_eq (by omega) hone b b' q).1
    · rw [cell_inner hc]
      exact (inner_eq (by omega) hone b b q).2

theorem bind_bind (n : Node) (i j : Option Instance) : (n.bind i).bind j = n.bind j := by
  unfold Node.bind
  cases hb : n.body <;> simp [hb]

/-- To bind or to unbind the copy at depth `k` changes the reference and the output there. -/
theorem graph_rebound (m : Nat) {b b' k : Nat} (hk : ∀ q, q ≠ k → (q < b ↔ q < b')) :
    ((graph m b).modify (reference k) fun n => n.bind (holds b' k)).modify (base k + 1)
        (fun n => n.modifyFan 0 fun _ => SortedSet.ofList (if k < b' then [⟨exit k, 0⟩] else [])) =
      graph m b' := by
  refine Slots.ext_of_get? (by simp [size_graph]) rfl rfl fun id => ?_
  rw [Slots.get?_modify, Slots.get?_modify, get?_graph, get?_graph]
  by_cases hid : id < base m
  · rw [if_pos hid, if_pos hid]
    rcases kinds id with ⟨q, rfl⟩ | ⟨q, rfl⟩ | ⟨hne, hsame, -⟩
    · rw [if_neg (reference_ne_output q k).symm, cell_reference, cell_reference]
      by_cases hq : q = k
      · rw [if_pos (by rw [hq]), hq, Option.map_some, bind_bind]
      · rw [if_neg fun he => hq (reference_inj.1 he).symm, holds, holds]
        simp only [hk q hq]
    · rw [if_neg (reference_ne_output k q), cell_output, cell_output]
      by_cases hq : q = k
      · rw [if_pos (by rw [hq]), hq]
        rfl
      · rw [if_neg (by unfold base; omega), output, output]
        simp only [hk q hq]
    · rw [if_neg fun he => (hne k).2 he.symm, if_neg fun he => (hne k).1 he.symm, hsame b b']
  · rw [if_neg hid, if_neg hid]
    simp

theorem entries_template : (placed template).entries =
    [(0, wired (.native .socket) [[⟨2, 0⟩, ⟨3, 0⟩]]),
      (1, wired (.native .socket) [[]]),
      (2, wired (.native (.constant (.int 0))) [[⟨3, 1⟩]]),
      (3, wired (.native (.relation .greater)) [[⟨4, 0⟩, ⟨5, 0⟩], [⟨1, 0⟩]]),
      (4, wired (.native (.constant (.int 1))) [[⟨5, 1⟩]]),
      (5, wired (.native (.arithmetic .subtract)) [[⟨6, 0⟩]]),
      (6, wired (.reference key 1 1) [[⟨1, 0⟩]])] := rfl

/-- In a graph without gaps copies get the next numbers. -/
theorem copyNodes_packed {g : Graph} (hg : g.vacant = []) (heap : Heap)
    (es : List (NodeId × Node)) (hes : ∀ x ∈ es, (x.2.duplicate heap).2 = heap) :
    Prototype.copyNodes g heap es = ((es.zipIdx g.cells.size).map fun x => (x.1.1, x.2),
      { g with cells := g.cells ++ (es.map fun x => some (x.2.duplicate heap).1).toArray },
      heap) := by
  induction es generalizing g with
  | nil => simp [Prototype.copyNodes]
  | cons x es ih =>
    obtain ⟨old, n⟩ := x
    have hheap : (n.duplicate heap).2 = heap := hes _ List.mem_cons_self
    have hrest := ih (g := { g with cells := g.cells.push (some (n.duplicate heap).1) }) hg
      fun x hx => hes x (List.mem_cons_of_mem _ hx)
    rw [Prototype.copyNodes]
    dsimp only
    rw [hheap, Slots.add_of_packed hg]
    dsimp only
    rw [hrest, List.zipIdx_cons, List.map_cons, List.map_cons, Array.size_push]
    simp

/-- More nodes behind those that are there. -/
def extended (m b : Nat) (nodes : List Node) : Graph :=
  { graph m b with cells := (graph m b).cells ++ (nodes.map some).toArray }

/-- The new copy before its nodes are connected. -/
def blankCopy : List Node :=
  [.make (.native .socket) 1 1 true, .make (.native .socket) 1 1 true,
    .make (.native (.constant (.int 0))) 1 1 true, .make (.native (.relation .greater)) 2 2 true,
    .make (.native (.constant (.int 1))) 1 1 true,
    .make (.native (.arithmetic .subtract)) 2 1 true, .make (.reference key none) 1 1 true]

/-- Numbers of the template and of the copy at depth `m`. -/
def numbers (m : Nat) : Prototype.Renaming :=
  [(0, base m), (1, base m + 1), (2, base m + 2), (3, base m + 3), (4, base m + 4), (5, base m + 5),
    (6, base m + 6)]

theorem copyNodes_template (m b : Nat) (heap : Heap) :
    Prototype.copyNodes (graph m b) heap (placed template).entries =
      (numbers m, extended m b blankCopy, heap) := by
  have hsame : ∀ x ∈ (placed template).entries, (x.2.duplicate heap).2 = heap := by
    rw [entries_template]
    simp only [List.forall_mem_cons]
    exact ⟨rfl, rfl, rfl, rfl, rfl, rfl, rfl, by simp⟩
  rw [copyNodes_packed rfl heap _ hsame, size_graph, entries_template]
  rfl

theorem graph_succ (m b : Nat) :
    graph (m + 1) b = extended m b ((List.range 7).map (inner b m)) := by
  have hbase : base (m + 1) = base m + 7 := by
    unfold base
    omega
  have hnew : ((List.range 7).map (base m + ·)).map (fun id => some (cell b id)) =
      ((List.range 7).map (inner b m)).map some := by
    rw [List.map_map, List.map_map]
    refine List.map_congr_left fun c hc => ?_
    rw [Function.comp_apply, cell_inner (List.mem_range.1 hc), Function.comp_apply]
  unfold extended graph
  rw [hbase, List.range_add, List.map_append, hnew]
  simp

theorem get?_extended (m b : Nat) (nodes : List Node) (id : Nat) :
    (extended m b nodes).get? id =
      if id < base m then some (cell b id) else nodes[id - base m]? := by
  have hsize := size_graph m b
  rw [Slots.get?_eq_join, extended, Array.getElem?_append, hsize]
  by_cases hid : id < base m
  · rw [if_pos hid, if_pos hid, ← Slots.get?_eq_join, get?_graph, if_pos hid]
  · rw [if_neg hid, if_neg hid, List.getElem?_toArray, List.getElem?_map]
    cases nodes[id - base m]? <;> rfl

theorem extended_modify (m b : Nat) (nodes : List Node) (c : Nat) (f : Node → Node) :
    (extended m b nodes).modify (base m + c) f = extended m b (nodes.modify c f) := by
  refine Slots.ext_of_get? (by simp [extended]) rfl rfl fun id => ?_
  rw [Slots.get?_modify, get?_extended, get?_extended]
  by_cases hid : id < base m
  · rw [if_pos hid, if_pos hid, if_neg (by omega)]
  · obtain ⟨k, rfl⟩ := Nat.exists_eq_add_of_le (Nat.le_of_not_lt hid)
    rw [if_neg hid, if_neg hid, Nat.add_sub_cancel_left, List.getElem?_modify]
    simp only [Nat.add_left_cancel_iff]
    split <;> simp

/-- One of the new nodes is connected. -/
theorem wireCopies_cons {r : Prototype.Renaming} {old : NodeId} (n : Node)
    (es : List (NodeId × Node)) (nodes : List Node) (hc : r.lookup old = some (base m + c)) :
    Prototype.wireCopies r (extended m b nodes) ((old, n) :: es) =
      Prototype.wireCopies r (extended m b (nodes.modify c fun copy =>
        { copy with outputs := n.outputs.map (Prototype.renameFan r) })) es := by
  rw [Prototype.wireCopies, List.foldl_cons]
  dsimp only
  rw [hc]
  dsimp only
  rw [extended_modify, Prototype.wireCopies]

theorem wireCopies_template (hb : b ≤ m) :
    Prototype.wireCopies (numbers m) (extended m b blankCopy) (placed template).entries =
      graph (m + 1) b := by
  rw [graph_succ, entries_template, wireCopies_cons (c := 0) _ _ _ rfl,
    wireCopies_cons (c := 1) _ _ _ rfl, wireCopies_cons (c := 2) _ _ _ rfl,
    wireCopies_cons (c := 3) _ _ _ rfl, wireCopies_cons (c := 4) _ _ _ rfl,
    wireCopies_cons (c := 5) _ _ _ rfl, wireCopies_cons (c := 6) _ _ _ rfl]
  have hout : output b m = hidden (.native .socket) [[]] := by
    rw [output, if_neg (by omega)]
  have hcall : (calling (m + 1)).bind (holds b (m + 1)) = calling (m + 1) := by
    rw [holds, if_neg (by omega)]
    rfl
  have hrange : (List.range 7).map (inner b m) = [inner b m 0, hidden (.native .socket) [[]],
      inner b m 2, inner b m 3, inner b m 4, inner b m 5, calling (m + 1)] := by
    rw [← hout, ← hcall]
    rfl
  rw [hrange]
  rfl

theorem instantiate_prototype (hb : b ≤ m) (idle : List Instance) (heap : Heap) :
    (prototype idle).instantiate m (graph m b) heap = (copy m, graph (m + 1) b, heap) := by
  have hentries : (prototype idle).graph.entries = (placed template).entries := rfl
  have hnodes : (SortedSet.ofList ((numbers m).map Prod.snd)).toList = List.range' (base m) 7 := by
    refine SortedSet.toList_ofList ?_
    simp [numbers, Increasing, Nat.compare_eq_lt]
  rw [Prototype.instantiate]
  dsimp only
  rw [hentries, copyNodes_template]
  dsimp only
  rw [wireCopies_template hb, hnodes]
  rfl

theorem reference_lt (hq : q ≤ m) : reference q < base m := by
  cases q with
  | zero => simp [reference, base]
  | succ q =>
    simp only [reference, base]
    omega

theorem get?_reference (hq : q ≤ m) :
    (graph m b).get? (reference q) = some ((calling q).bind (holds b q)) := by
  rw [get?_graph, if_pos (reference_lt hq), cell_reference]

theorem holds_self (b : Nat) : holds b b = none := if_neg (Nat.lt_irrefl b)

theorem get?_calling (hb : b ≤ m) : (graph m b).get? (reference b) = some (calling b) := by
  rw [get?_reference hb, holds_self]
  rfl

theorem exit_lt (hq : q ≤ m) : exit q < base m := by
  cases q with
  | zero => simp [exit, base]
  | succ q =>
    simp only [exit, base]
    omega

theorem instance?_reference (hq : q < b) (hm : q ≤ m) :
    Graph.instance? (graph m b) (reference q) = some (copy q) := by
  rw [Graph.instance?_of_get? (get?_reference hm), holds, if_pos hq]
  rfl

/-- Only the first references are bound. -/
theorem of_instance? {i : Instance} (h : Graph.instance? (graph m b) id = some i) :
    ∃ q < b, id = reference q ∧ i = copy q := by
  rw [Graph.instance?, get?_graph] at h
  by_cases hid : id < base m
  · rw [if_pos hid, Option.bind_some] at h
    rcases kinds id with ⟨q, rfl⟩ | ⟨q, rfl⟩ | ⟨-, -, hnone⟩
    · rw [cell_reference] at h
      have hq : holds b q = some i := h
      unfold holds at hq
      split at hq
      · next hlt =>
        cases hq
        exact ⟨q, hlt, rfl, rfl⟩
      · cases hq
    · rw [cell_output] at h
      cases h
    · rw [hnone b] at h
      cases h
  · rw [if_neg hid] at h
    cases h

theorem mem_copy (hc : c < 7) : base q + c ∈ (copy q).nodes :=
  List.mem_range'_1.2 ⟨Nat.le_add_right _ _, Nat.add_lt_add_left hc _⟩

/-- How deep a node lies. -/
def level (id : Nat) : Nat := if id < 2 then 0 else (id - 2) / 7 + 1

theorem level_reference (q : Nat) : level (reference q) = q := by
  cases q with
  | zero => rfl
  | succ q =>
    show level (base q + 6) = q + 1
    unfold level base
    split_ifs <;> omega

theorem level_of_mem (hid : id ∈ (copy q).nodes) : level id = q + 1 := by
  obtain ⟨hle, hlt⟩ : base q ≤ id ∧ id < base q + 7 := List.mem_range'_1.1 hid
  unfold base at hle hlt
  unfold level
  split_ifs <;> omega

/-- No node of the last copy is bound: a bound reference lies higher. -/
theorem not_bound_of_mem {i : Instance} (hid : id ∈ (copy b).nodes) :
    Graph.instance? (graph m (b + 1)) id ≠ some i := by
  intro hi
  obtain ⟨q, hq, rfl, -⟩ := of_instance? hi
  have hlevel := level_of_mem hid
  rw [level_reference] at hlevel
  omega

theorem layered_graph (m b : Nat) : Graph.Layered (graph m b) := by
  refine ⟨level, fun id i hi k hk => ?_⟩
  obtain ⟨q, -, rfl, rfl⟩ := of_instance? hi
  rw [level_of_mem hk, level_reference]

end Graph

/-! ## Activity -/

section Activity

variable {m b c t : Nat} {e : Engine} {xs : List Signal}

/-- The copies are bound as in `nested`, whatever signals there are. -/
structure Bound (m b : Nat) (e : Engine) : Prop where
  watch : e.watch = (List.range b).map reference
  instances : ∀ id, Graph.instance? e.graph id = Graph.instance? (graph m b) id

theorem bound_nested (catalog : Catalog) (m b : Nat) (w : World) (steps : Nat) :
    Bound m b (nested catalog m b w steps) := ⟨rfl, fun _ => rfl⟩

theorem instance?_modify {g : Graph} {f : Node → Node} (hf : ∀ n, (f n).instance? = n.instance?)
    (t id : NodeId) : Graph.instance? (g.modify t f) id = Graph.instance? g id := by
  rw [Graph.instance?, Slots.get?_modify, Graph.instance?]
  split
  · cases g.get? id with
    | none => rfl
    | some n => exact hf n
  · rfl

theorem Bound.due (h : Bound m b e) (t : NodeId) (xs : List Signal) : Bound m b (e.due t xs) := by
  refine ⟨h.watch, fun id => Eq.trans ?_ (h.instances id)⟩
  apply instance?_modify
  exact fun n => rfl

theorem Bound.kept (h : Bound m b e) (t : NodeId) (port : Nat) (s : Signal) :
    Bound m b (e.kept t port s) := by
  refine ⟨h.watch, fun id => Eq.trans ?_ (h.instances id)⟩
  apply instance?_modify
  exact fun n => rfl

theorem Bound.isActive_iff (h : Bound m b e) (id : NodeId) :
    e.isActive id = true ↔ Graph.Active e.graph id :=
  Engine.isActive_iff ((layered_graph m b).anti fun id _ hi => (h.instances id).symm.trans hi) id

/-- What is active in the copy at depth `k` makes all references above it active.  The induction is
on the distance. -/
theorem Bound.active {k d q : Nat} (h : Bound m b e) (hk : k < b) (hm : k < m) (hc : c < 7)
    (hactive : Graph.Active e.graph (base k + c)) (hq : q + d = k) :
    Graph.Active e.graph (reference q) := by
  induction d generalizing q with
  | zero =>
    obtain rfl : q = k := hq
    have hi := (h.instances (reference q)).trans (instance?_reference hk (by omega))
    exact .inside hi (mem_copy hc) hactive
  | succ d ih =>
    have hi := (h.instances (reference q)).trans (instance?_reference (by omega) (by omega))
    have hnext : Graph.Active e.graph (base q + 6) := ih (q := q + 1) (by omega)
    exact .inside hi (mem_copy (by decide)) hnext

theorem active_due {n : Node} (ht : e.graph.get? t = some n) (xs : List Signal) :
    Graph.Active (e.due t xs).graph t := by
  have hget : (e.due t xs).graph.get? t = some (holding xs n) := by
    rw [due, Slots.get?_modify, if_pos rfl, ht]
    rfl
  exact .scheduled hget rfl

/-- While something is due in the last copy, no reference is dismissed. -/
theorem Bound.sweep_due (h : Bound m (b + 1) e) (hb : b < m) (hc : c < 7) {n : Node}
    (ht : e.graph.get? (base b + c) = some n) (xs : List Signal) :
    (e.due (base b + c) xs).sweep = e.due (base b + c) xs := by
  have hdue := h.due (base b + c) xs
  refine sweep_of_active fun id hid => ?_
  rw [hdue.watch] at hid
  obtain ⟨q, hq, rfl⟩ := List.mem_map.1 hid
  have hle : q ≤ b := Nat.le_of_lt_succ (List.mem_range.1 hq)
  rw [hdue.isActive_iff]
  exact hdue.active (Nat.lt_succ_self b) hb hc (active_due ht xs) (Nat.add_sub_of_le hle)

end Activity

end PulseFlow.Countdown
