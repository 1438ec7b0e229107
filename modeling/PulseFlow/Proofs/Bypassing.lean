import PulseFlow.Proofs.Leading

/-!
# Taking a node out of the middle

A node that is bypassed is gone, and what led into it leads on: what entered at input `k` goes where
output `k` led.  An input without an output of the same number is a dead end, an output without an
input of the same number is led to by nothing, and connections of the node with itself are no way
on.  All other connections stay, and so does everything else.

    t ∈ detour id n f ↔ t.node ≠ id ∧
      (t ∈ f ∨ ∃ port exit, ⟨id, port⟩ ∈ f ∧ n.fan? port = some exit ∧ t ∈ exit)     (mem_detour)
    g.get? id = some n → ∃ g', bypass g id = .ok g' ∧ Bypasses g id n g'          (bypass_exact)
-/

namespace PulseFlow

/-- Occupied numbers, once one of them is given up and the values of the others are changed. -/
theorem Slots.ids_of_gone {α : Type} {s s' : Slots α} {i : Nat}
    (hsize : s'.cells.size = s.cells.size)
    (hget : ∀ j, (s'.get? j).isSome = if i = j then false else (s.get? j).isSome) :
    s'.ids = s.ids.filter fun j => j != i := by
  unfold ids
  rw [List.filter_filter, hsize]
  refine List.filter_congr fun j _ => ?_
  rw [hget]
  by_cases hj : i = j
  · rw [if_pos hj, hj, bne_self_eq_false, Bool.false_and]
  · rw [if_neg hj, bne_iff_ne.2 (Ne.symm hj), Bool.true_and]

namespace Graph

variable {g g' : Graph} {id : NodeId} {n : Node}

/-- `g'` is `g` with everything led around node `id`, which was `n`. -/
structure Bypasses (g : Graph) (id : NodeId) (n : Node) (g' : Graph) : Prop where
  /-- The nodes are the same but for this one. -/
  ids : g'.ids = g.ids.filter fun m => m != id
  /-- The others keep their number of outputs and everything but the connections of these. -/
  kept : ∀ m a, m ≠ id → g.get? m = some a → ∃ a', g'.get? m = some a' ∧
    a' = { a with outputs := a'.outputs } ∧ a'.outputs.length = a.outputs.length
  /-- An output leads to the other nodes it led to, and for each input of the node that it led to,
  to the other nodes that the output with the number of the input led to. -/
  fans : ∀ m a a' port f, g.get? m = some a → g'.get? m = some a' → a.fan? port = some f →
    ∃ f', a'.fan? port = some f' ∧ ∀ t, t ∈ f' ↔ t ∈ f ∧ t.node ≠ id ∨
      ∃ k, ⟨id, k⟩ ∈ f ∧ k < n.outputs.length ∧
        ∃ exit, n.fan? k = some exit ∧ t ∈ exit ∧ t.node ≠ id

theorem bypass_ok (hn : g.get? id = some n) : ∃ g', bypass g id = .ok g' := by
  have hfind : find g id = .ok n := by rw [find, hn]
  rw [bypass, hfind]
  exact ⟨_, rfl⟩

theorem size_bypass (h : bypass g id = .ok g') : g'.cells.size = g.cells.size := by
  obtain ⟨n, f, -, rfl⟩ := bypass_eq h
  rw [erase, Slots.size_map, Slots.size_close, Slots.size_map]

theorem lt_length_of_fan? {port : Nat} {f : Fan} (h : n.fan? port = some f) :
    port < n.outputs.length := (List.getElem?_eq_some_iff.1 h).1

theorem bypasses_of_ok (hn : g.get? id = some n) (h : bypass g id = .ok g') :
    Bypasses g id n g' := by
  obtain ⟨m, hm, hget⟩ := get?_bypass h
  cases hn.symm.trans hm
  refine ⟨Slots.ids_of_gone (size_bypass h) fun j => ?_, fun k a hk ha => ?_,
    fun k a a' port f ha ha' hf => ?_⟩
  · rw [hget]
    split
    · rfl
    · rw [Option.isSome_map]
  · refine ⟨a.mapFans (detour id n), ?_, rfl, List.length_map _⟩
    rw [hget, if_neg (Ne.symm hk), ha, Option.map_some]
  · rw [hget] at ha'
    split at ha'
    · cases ha'
    · rw [ha, Option.map_some] at ha'
      cases ha'
      refine ⟨detour id n f, by rw [Node.fan?_mapFans, hf, Option.map_some], fun t => ?_⟩
      rw [mem_detour]
      constructor
      · rintro ⟨ht, hold | ⟨k, exit, hk, hexit, hout⟩⟩
        · exact .inl ⟨hold, ht⟩
        · exact .inr ⟨k, hk, lt_length_of_fan? hexit, exit, hexit, hout, ht⟩
      · rintro (⟨hold, ht⟩ | ⟨k, hk, -, exit, hexit, hout, ht⟩)
        · exact ⟨ht, .inl hold⟩
        · exact ⟨ht, .inr ⟨k, exit, hk, hexit, hout⟩⟩

/-- A node that is there can be bypassed, whatever it is connected with. -/
theorem bypass_exact (g : Graph) (id : NodeId) (n : Node) (hn : g.get? id = some n) :
    ∃ g', bypass g id = .ok g' ∧ Bypasses g id n g' := by
  obtain ⟨g', h⟩ := bypass_ok hn
  exact ⟨g', h, bypasses_of_ok hn h⟩

/-- A sum that is led into by one output at both inputs and by its own output, and leads on to a
test. -/
def knot : Graph where
  cells := #[
    some { Node.native .socket with outputs := [.ofList [⟨1, 0⟩, ⟨1, 1⟩, ⟨2, 0⟩]] },
    some { Node.native (.arithmetic .add) with outputs := [.ofList [⟨1, 0⟩, ⟨1, 1⟩, ⟨3, 0⟩]] },
    some { Node.native (.typeTest .int) with outputs := [.ofList [⟨1, 1⟩], .ofList [⟨1, 0⟩]] },
    some (Node.native .socket)]

/-- What the outputs of a node lead to. -/
def fansOf (g : Except Error Graph) (m : NodeId) : Option (List (List Socket)) :=
  g.toOption.bind fun g => (fans? g m).map (List.map SortedSet.toList)

theorem bypass_exact_knot :
    (∃ n g', knot.get? 1 = some n ∧ bypass knot 1 = .ok g' ∧ Bypasses knot 1 n g') ∧
      [0, 1, 2, 3].map (fansOf (bypass knot 1)) =
        [some [[⟨2, 0⟩, ⟨3, 0⟩]], none, some [[], [⟨3, 0⟩]], some [[]]] := by
  refine ⟨?_, by decide +kernel⟩
  obtain ⟨g', h, hb⟩ := bypass_exact knot 1 _ rfl
  exact ⟨_, g', rfl, h, hb⟩

end Graph

end PulseFlow
