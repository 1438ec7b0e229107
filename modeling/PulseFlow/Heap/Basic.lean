import PulseFlow.Signal.Arithmetic

/-!
# The heap of arrays

Arrays are shared and change in place, so they live in a heap and signals carry their places.  An
array once made stays where it is; each operation below changes at most the array it is given.

    (h.update i f).items j = if i = j ∧ i < h.size then f (h.items i) else h.items j   (items_update)
    (h.alloc l).2.items (h.alloc l).1 = l                                              (items_alloc)
-/

namespace PulseFlow

structure Heap where
  arrays : Array (List Signal) := #[]

namespace Heap

instance : Inhabited Heap := ⟨{}⟩

def size (h : Heap) : Nat := h.arrays.size

/-- The elements of an array; a place not in use holds none. -/
def items (h : Heap) (i : ArrayId) : List Signal := h.arrays.getD i []

/-- Makes a new array. -/
def alloc (h : Heap) (l : List Signal) : ArrayId × Heap :=
  (h.size, ⟨h.arrays.push l⟩)

/-- Replaces the elements of one array. -/
def update (h : Heap) (i : ArrayId) (f : List Signal → List Signal) : Heap :=
  ⟨h.arrays.modify i f⟩

theorem items_update (h : Heap) (i j : ArrayId) (f : List Signal → List Signal) :
    (h.update i f).items j = if i = j ∧ i < h.size then f (h.items i) else h.items j := by
  simp only [items, update, size, Array.getD_eq_getD_getElem?, Array.getElem?_modify]
  by_cases hij : i = j
  · subst hij
    by_cases hi : i < h.arrays.size <;> simp [hi]
  · simp [hij]

theorem items_alloc (h : Heap) (l : List Signal) : (h.alloc l).2.items (h.alloc l).1 = l := by
  simp [items, alloc, size]

/-! ## Reading -/

/-- The first position whose element equals `s`. -/
def indexOf? (h : Heap) (i : ArrayId) (s : Signal) : Option Nat :=
  (h.items i).findIdx? fun x => x.equalTo s

def contains (h : Heap) (i : ArrayId) (s : Signal) : Bool :=
  (h.items i).any fun x => x.equalTo s

/-- The texts of the elements with a separator between them. -/
def join (h : Heap) (i : ArrayId) (separator : String) : String :=
  separator.intercalate ((h.items i).map Signal.toText)

/-! ## Changing -/

def push (h : Heap) (i : ArrayId) (s : Signal) : Heap := h.update i (· ++ [s])

def unshift (h : Heap) (i : ArrayId) (s : Signal) : Heap := h.update i (s :: ·)

/-- Takes the last element away. -/
def pop? (h : Heap) (i : ArrayId) : Option (Signal × Heap) :=
  (h.items i).getLast?.map fun s => (s, h.update i List.dropLast)

/-- Takes the first element away. -/
def shift? (h : Heap) (i : ArrayId) : Option (Signal × Heap) :=
  (h.items i).head?.map fun s => (s, h.update i List.tail)

/-- Puts an element at position `k`, which may be the end. -/
def insertAt? (h : Heap) (i : ArrayId) (k : Nat) (s : Signal) : Option Heap :=
  if k ≤ (h.items i).length then some (h.update i fun l => l.take k ++ s :: l.drop k) else none

end Heap

end PulseFlow
