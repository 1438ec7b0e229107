import PulseFlow.Heap.Basic

/-!
# Deep copies

The copy of a signal shares no array with it.  The arrays that can be reached from the signal are
listed without repetition, each gets a new place at the end of the heap, and its elements are
written there with the places renamed.  An array reached twice is copied once, and an array that
contains itself is copied to one that contains itself.
-/

namespace PulseFlow.Heap

/-- The arrays that stand in an array, in order. -/
def children (h : Heap) (i : ArrayId) : List ArrayId := (h.items i).filterMap Signal.asArray?

/-- Walks from the arrays in `todo`, visiting only arrays in `unseen`, each at most once. -/
def visit (h : Heap) (unseen : List ArrayId) : List ArrayId → List ArrayId
  | [] => []
  | i :: todo =>
    if hi : i ∈ unseen then
      have := List.length_erase_of_mem hi
      have := List.length_pos_of_mem hi
      i :: visit h (unseen.erase i) (h.children i ++ todo)
    else visit h unseen todo
termination_by todo => (unseen.length, todo.length)

/-- The arrays that can be reached from `i`, itself first. -/
def reachable (h : Heap) (i : ArrayId) : List ArrayId := h.visit (List.range h.size) [i]

/-- Sends the arrays of `ids` to the places from `base` on, in order. -/
def rename (ids : List ArrayId) (base : Nat) : Signal → Signal
  | .array i => if i ∈ ids then .array (base + ids.idxOf i) else .array i
  | s => s

/-- Copies a signal together with all arrays that can be reached from it. -/
def copy (h : Heap) : Signal → Signal × Heap
  | .array i =>
    let ids := h.reachable i
    (rename ids h.size (.array i),
      ⟨h.arrays ++ (ids.map fun j => (h.items j).map (rename ids h.size)).toArray⟩)
  | s => (s, h)

end PulseFlow.Heap
