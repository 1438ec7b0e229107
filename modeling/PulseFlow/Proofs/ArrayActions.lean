import PulseFlow.Proofs.Arrays

/-!
# Actions on arrays

An action on an array is an operation on a list: the array at the first input, whatever else leads
to it, has the elements that the operation leaves, and every other array is as before.  An action
that has nothing to send changes nothing.

* `Acts i l action rest out l'`: given an array `i` with the elements `l` and further inputs `rest`,
  the action sends `out` and leaves the elements `l'`.
* `Obeys`: what a firing does to the whole heap.
-/

namespace PulseFlow

/-! ## One array of a heap -/

/-- The heap `h'` is `h` with the elements `l` in array `i`. -/
structure Heap.Sets (h : Heap) (i : ArrayId) (l : List Signal) (h' : Heap) : Prop where
  size : h'.size = h.size
  self : h'.items i = l
  other : ∀ j, j ≠ i → h'.items j = h.items j

namespace Heap

variable {h : Heap} {i : ArrayId}

theorem sets_self (h : Heap) (i : ArrayId) : h.Sets i (h.items i) h := ⟨rfl, rfl, fun _ _ => rfl⟩

theorem sets_update (hi : i < h.size) (f : List Signal → List Signal) :
    h.Sets i (f (h.items i)) (h.update i f) where
  size := by simp [update, size]
  self := by rw [items_update, if_pos ⟨rfl, hi⟩]
  other := by
    intro j hj
    rw [items_update, if_neg fun hij => hj hij.1.symm]

end Heap

/-! ## Positions -/

theorem position?_eq_some {s : Signal} {k : Nat} :
    position? s = some k ↔ ∃ v, s = .int v ∧ v.toInt = k := by
  cases s with
  | int v =>
    have hint : position? (.int v) = if 0 ≤ v.toInt then some v.toInt.toNat else none := rfl
    rw [hint]
    constructor
    · intro hk
      split at hk
      · next hv =>
        cases hk
        exact ⟨v, rfl, (Int.toNat_of_nonneg hv).symm⟩
      · cases hk
    · rintro ⟨v', hv', hk⟩
      cases hv'
      rw [hk, if_pos (Int.natCast_nonneg k), Int.toNat_natCast]
  | _ => simp [position?, Signal.asInt?]

/-- A count is sent as it is, up to the largest integer. -/
theorem countSignal_eq_int {k : Nat} {v : Int64} :
    countSignal k = .int v ↔ v.toInt = min k 9223372036854775807 := by
  have hcount : (if k < 9223372036854775808 then Int64.ofNat k else Int64.maxValue).toInt =
      min k 9223372036854775807 := by
    split
    · next hk =>
      rw [Int64.toInt_ofNat_of_lt hk]
      omega
    · rw [Int64.toInt_maxValue]
      omega
  rw [countSignal, Signal.int.injEq, ← Int64.toInt_inj, hcount, eq_comm]

/-- The element at `k` equals `s`, and none before it does. -/
structure FirstAt (l : List Signal) (s : Signal) (k : Nat) : Prop where
  found : ∃ x, l[k]? = some x ∧ x.equalTo s = true
  first : ∀ j < k, ∀ x, l[j]? = some x → x.equalTo s = false

theorem FirstAt.lt_length {l : List Signal} {s : Signal} {k : Nat} (h : FirstAt l s k) :
    k < l.length := by
  obtain ⟨x, hx, -⟩ := h.found
  exact (List.getElem?_eq_some_iff.1 hx).1

namespace Heap

variable {h : Heap} {i : ArrayId} {s : Signal} {k : Nat}

theorem indexOf?_eq_some : h.indexOf? i s = some k ↔ FirstAt (h.items i) s k := by
  rw [indexOf?, List.findIdx?_eq_some_iff_getElem]
  constructor
  · rintro ⟨hk, hfound, hfirst⟩
    refine ⟨⟨_, List.getElem?_eq_getElem hk, hfound⟩, fun j hj x hx => ?_⟩
    obtain ⟨hj', rfl⟩ := List.getElem?_eq_some_iff.1 hx
    exact Bool.eq_false_iff.2 (hfirst j hj)
  · rintro ⟨⟨x, hx, hfound⟩, hfirst⟩
    obtain ⟨hk, rfl⟩ := List.getElem?_eq_some_iff.1 hx
    refine ⟨hk, hfound, fun j hj => ?_⟩
    have hlt : j < (h.items i).length := Nat.lt_trans hj hk
    rw [hfirst j hj _ (List.getElem?_eq_getElem hlt)]
    exact Bool.false_ne_true

theorem contains_eq_isSome (h : Heap) (i : ArrayId) (s : Signal) :
    h.contains i s = (h.indexOf? i s).isSome := List.findIdx?_isSome.symm

theorem contains_iff : h.contains i s = true ↔ ∃ k, FirstAt (h.items i) s k := by
  rw [contains_eq_isSome, Option.isSome_iff_exists]
  exact exists_congr fun k => indexOf?_eq_some

end Heap

namespace ArrayAction

/-! ## Operations on lists -/

/-- What an action does, given an array `i` with the elements `l` and further inputs: what it sends
and the elements it leaves.  Where no rule applies, it does nothing. -/
inductive Acts (i : ArrayId) (l : List Signal) :
    ArrayAction → List Signal → List Emission → List Signal → Prop
  | length : Acts i l .length [] [⟨0, countSignal l.length⟩] l
  | index {v : Int64} {k : Nat} {s : Signal} (hv : v.toInt = k) (hs : l[k]? = some s) :
    Acts i l .index [.int v] [⟨0, s⟩] l
  | insert {v : Int64} {front back : List Signal} {s : Signal} (hl : l = front ++ back)
      (hv : v.toInt = front.length) :
    Acts i l .insert [.int v, s] [⟨0, .array i⟩] (front ++ s :: back)
  | push {s : Signal} : Acts i l .push [s] [⟨0, .array i⟩] (l ++ [s])
  | unshift {s : Signal} : Acts i l .unshift [s] [⟨0, .array i⟩] (s :: l)
  | pop {front : List Signal} {s : Signal} (hl : l = front ++ [s]) :
    Acts i l .pop [] [⟨0, .array i⟩, ⟨1, s⟩] front
  | shift {back : List Signal} {s : Signal} (hl : l = s :: back) :
    Acts i l .shift [] [⟨0, .array i⟩, ⟨1, s⟩] back
  | present {s : Signal} {k : Nat} (hk : FirstAt l s k) :
    Acts i l .contains [s] [⟨positivePort, s⟩] l
  | absent {s : Signal} (hs : ∀ k, ¬ FirstAt l s k) : Acts i l .contains [s] [⟨negativePort, s⟩] l
  | indexOf {s : Signal} {k : Nat} (hk : FirstAt l s k) :
    Acts i l .indexOf [s] [⟨0, countSignal k⟩] l
  | join {s : Signal} :
    Acts i l .join [s] [⟨0, .text (s.toText.intercalate (l.map Signal.toText))⟩] l

variable {i : ArrayId} {l l' : List Signal} {action : ArrayAction} {rest : List Signal}
  {out : List Emission} {h : Heap}

theorem Acts.ne_nil (ha : Acts i l action rest out l') : out ≠ [] := by
  cases ha <;> exact List.cons_ne_nil _ _

theorem Acts.port_lt (ha : Acts i l action rest out l') : ∀ m ∈ out, m.port < action.outputs := by
  cases ha <;> simp [outputs, positivePort, negativePort]

/-- An action either follows its rule or, having none, does nothing. -/
def Follows (i : ArrayId) (h : Heap) (action : ArrayAction) (rest : List Signal)
    (done : List Emission × Heap) : Prop :=
  (∃ l', Acts i (h.items i) action rest done.1 l' ∧ h.Sets i l' done.2) ∨
    (done = ([], h) ∧ ∀ out l', ¬ Acts i (h.items i) action rest out l')

theorem follows_index (a : Signal) :
    Follows i h .index [a] (onArray i a .nan h .index) := by
  rw [onArray]
  cases hfound : (position? a).bind fun k => (h.items i)[k]? with
  | some s =>
    obtain ⟨k, hk, hs⟩ := Option.bind_eq_some_iff.1 hfound
    obtain ⟨v, rfl, hv⟩ := position?_eq_some.1 hk
    exact .inl ⟨_, .index hv hs, h.sets_self i⟩
  | none =>
    refine .inr ⟨rfl, fun out l' ha => ?_⟩
    cases ha with
    | index hv hs =>
      rw [position?_eq_some.2 ⟨_, rfl, hv⟩, Option.bind_some, hs] at hfound
      cases hfound

theorem follows_insert (hi : i < h.size) (a s : Signal) :
    Follows i h .insert [a, s] (onArray i a s h .insert) := by
  rw [onArray]
  cases hdone : (position? a).bind fun k => h.insertAt? i k s with
  | some h' =>
    obtain ⟨k, hk, hd⟩ := Option.bind_eq_some_iff.1 hdone
    obtain ⟨v, rfl, hv⟩ := position?_eq_some.1 hk
    obtain ⟨hle, hd⟩ := Option.ite_none_right_eq_some.1 hd
    cases hd
    refine .inl ⟨_, .insert (List.take_append_drop k (h.items i)).symm ?_,
      Heap.sets_update hi fun l => l.take k ++ s :: l.drop k⟩
    rw [hv, List.length_take, Nat.min_eq_left hle]
  | none =>
    refine .inr ⟨rfl, fun out l' ha => ?_⟩
    cases ha with
    | insert hl hv =>
      rw [position?_eq_some.2 ⟨_, rfl, hv⟩, Option.bind_some, Heap.insertAt?, if_pos] at hdone
      · cases hdone
      · rw [hl, List.length_append]
        exact Nat.le_add_right _ _

theorem follows_pop (hi : i < h.size) (a b : Signal) :
    Follows i h .pop [] (onArray i a b h .pop) := by
  rw [onArray, Heap.pop?]
  cases hlast : (h.items i).getLast? with
  | some s =>
    have hl : h.items i = (h.items i).dropLast ++ [s] := by
      obtain ⟨front, hfront⟩ := List.getLast?_eq_some_iff.1 hlast
      rw [hfront, List.dropLast_concat]
    exact .inl ⟨_, .pop hl, Heap.sets_update hi _⟩
  | none =>
    refine .inr ⟨rfl, fun out l' ha => ?_⟩
    cases ha with
    | pop hl =>
      rw [List.getLast?_eq_none_iff.1 hlast] at hl
      exact List.cons_ne_nil _ _ (List.append_eq_nil_iff.1 hl.symm).2

theorem follows_shift (hi : i < h.size) (a b : Signal) :
    Follows i h .shift [] (onArray i a b h .shift) := by
  rw [onArray, Heap.shift?]
  cases hl : h.items i with
  | cons s back =>
    have hset := Heap.sets_update hi List.tail
    rw [hl] at hset
    exact .inl ⟨back, .shift hl, hset⟩
  | nil =>
    refine .inr ⟨rfl, fun out l' ha => ?_⟩
    cases ha with
    | shift hl' =>
      rw [hl] at hl'
      cases hl'

theorem follows_contains (s b : Signal) :
    Follows i h .contains [s] (onArray i s b h .contains) := by
  refine .inl ⟨_, ?_, h.sets_self i⟩
  show Acts i (h.items i) .contains [s] [⟨branch (h.contains i s), s⟩] _
  cases hc : h.contains i s with
  | true =>
    obtain ⟨k, hk⟩ := Heap.contains_iff.1 hc
    exact .present hk
  | false =>
    refine .absent fun k hk => ?_
    rw [Heap.contains_iff.2 ⟨k, hk⟩] at hc
    cases hc

theorem follows_indexOf (s b : Signal) :
    Follows i h .indexOf [s] (onArray i s b h .indexOf) := by
  rw [onArray]
  cases hk : h.indexOf? i s with
  | some k => exact .inl ⟨_, .indexOf (Heap.indexOf?_eq_some.1 hk), h.sets_self i⟩
  | none =>
    refine .inr ⟨rfl, fun out l' ha => ?_⟩
    cases ha with
    | indexOf hk' =>
      rw [Heap.indexOf?_eq_some.2 hk'] at hk
      cases hk

theorem follows_onArray (hi : i < h.size) (hne : action ≠ .create)
    (hlen : rest.length + 1 = action.inputs) :
    Follows i h action rest (onArray i (rest.getD 0 .nan) (rest.getD 1 .nan) h action) := by
  cases action with
  | create => exact absurd rfl hne
  | length =>
    obtain rfl := List.length_eq_zero_iff.1 (Nat.succ.inj hlen)
    exact .inl ⟨_, .length, h.sets_self i⟩
  | index =>
    obtain ⟨a, rfl⟩ := List.length_eq_one_iff.1 (Nat.succ.inj hlen)
    exact follows_index a
  | insert =>
    obtain ⟨a, s, rfl⟩ := List.length_eq_two.1 (Nat.succ.inj hlen)
    exact follows_insert hi a s
  | push =>
    obtain ⟨s, rfl⟩ := List.length_eq_one_iff.1 (Nat.succ.inj hlen)
    exact .inl ⟨_, .push, Heap.sets_update hi (· ++ [s])⟩
  | pop =>
    obtain rfl := List.length_eq_zero_iff.1 (Nat.succ.inj hlen)
    exact follows_pop hi _ _
  | unshift =>
    obtain ⟨s, rfl⟩ := List.length_eq_one_iff.1 (Nat.succ.inj hlen)
    exact .inl ⟨_, .unshift, Heap.sets_update hi (s :: ·)⟩
  | shift =>
    obtain rfl := List.length_eq_zero_iff.1 (Nat.succ.inj hlen)
    exact follows_shift hi _ _
  | contains =>
    obtain ⟨s, rfl⟩ := List.length_eq_one_iff.1 (Nat.succ.inj hlen)
    exact follows_contains s _
  | indexOf =>
    obtain ⟨s, rfl⟩ := List.length_eq_one_iff.1 (Nat.succ.inj hlen)
    exact follows_indexOf s _
  | join =>
    obtain ⟨s, rfl⟩ := List.length_eq_one_iff.1 (Nat.succ.inj hlen)
    exact .inl ⟨_, .join, h.sets_self i⟩

/-! ## Firings -/

/-- What a firing with `inputs` does to the heap `h`, by what it sends and the heap it leaves. -/
structure Obeys (action : ArrayAction) (inputs : List Signal) (h : Heap) (out : List Emission)
    (h' : Heap) : Prop where
  port_lt : ∀ m ∈ out, m.port < action.outputs
  /-- No array changes but the one at the first input. -/
  kept : ∀ j < h.size, inputs.head? ≠ some (.array j) → h'.items j = h.items j
  /-- That one is changed as the rules of the action say. -/
  acts : ∀ i rest, inputs = .array i :: rest → action ≠ .create → out ≠ [] →
    Acts i (h.items i) action rest out (h'.items i)
  silent : out = [] → h' = h
  /-- Nothing is sent just when there is no rule to follow. -/
  silent_iff : out = [] ↔ action ≠ .create ∧
    ∀ i rest, inputs = .array i :: rest → ∀ out l', ¬ Acts i (h.items i) action rest out l'
  size : h'.size = if action = .create then h.size + 1 else h.size
  /-- A new array is empty, and no array that was there changes. -/
  made : action = .create → out = [⟨0, .array h.size⟩] ∧ h'.items h.size = [] ∧
    ∀ j < h.size, h'.items j = h.items j

theorem perform_array (hne : action ≠ .create) : perform action (.array i :: rest) h =
    onArray i (rest.getD 0 .nan) (rest.getD 1 .nan) h action := by
  unfold perform
  split
  · exact absurd rfl hne
  · rfl

theorem perform_of_not_array {s : Signal} (hne : action ≠ .create) (hs : ∀ i, s ≠ .array i) :
    perform action (s :: rest) h = ([], h) := by
  unfold perform
  split
  · exact absurd rfl hne
  · cases s with
    | array i => exact absurd rfl (hs i)
    | _ => rfl

/-- A rule that is followed, on the array at the first input. -/
theorem obeys_of_acts {h' : Heap} (hne : action ≠ .create)
    (ha : Acts i (h.items i) action rest out l') (hset : h.Sets i l' h') :
    action.Obeys (.array i :: rest) h out h' where
  port_lt := ha.port_lt
  kept := fun j _ hj => hset.other j fun hji => hj (hji ▸ rfl)
  acts := by
    rintro _ _ ⟨⟩ - -
    rw [hset.self]
    exact ha
  silent := fun hnil => absurd hnil ha.ne_nil
  silent_iff := ⟨fun hnil => absurd hnil ha.ne_nil, fun hno => absurd ha (hno.2 i rest rfl out l')⟩
  size := by rw [hset.size, if_neg hne]
  made := fun hc => absurd hc hne

/-- An action without a rule to follow does nothing. -/
theorem obeys_of_not_acts {inputs : List Signal} (hne : action ≠ .create)
    (hno : ∀ i rest, inputs = .array i :: rest →
      ∀ out l', ¬ Acts i (h.items i) action rest out l') : action.Obeys inputs h [] h where
  port_lt := fun m hm => absurd hm List.not_mem_nil
  kept := fun _ _ _ => rfl
  acts := fun _ _ _ _ hnil => absurd rfl hnil
  silent := fun _ => rfl
  silent_iff := ⟨fun _ => ⟨hne, hno⟩, fun _ => rfl⟩
  size := by rw [if_neg hne]
  made := fun hc => absurd hc hne

theorem obeys_create (inputs : List Signal) (h : Heap) :
    create.Obeys inputs h [⟨0, .array h.size⟩] (h.alloc []).2 := by
  have hold : ∀ j < h.size, (h.alloc []).2.items j = h.items j := fun j hj =>
    (h.alloc_grows []).items_eq hj
  constructor
  · simp [outputs]
  · exact fun j hj _ => hold j hj
  · exact fun _ _ _ hne => absurd rfl hne
  · exact fun hnil => absurd hnil (List.cons_ne_nil _ _)
  · exact ⟨fun hnil => absurd hnil (List.cons_ne_nil _ _), fun hne => absurd rfl hne.1⟩
  · simp [Heap.size, Heap.alloc]
  · exact fun _ => ⟨rfl, h.items_alloc [], hold⟩

theorem perform_obeys {inputs : List Signal} (hlen : inputs.length = action.inputs)
    (hhas : ∀ s ∈ inputs, h.Has s) :
    action.Obeys inputs h (action.perform inputs h).1 (action.perform inputs h).2 := by
  by_cases hne : action = .create
  · subst hne
    exact obeys_create inputs h
  cases inputs with
  | nil =>
    exfalso
    cases action <;> cases hlen
  | cons s rest =>
    by_cases hs : ∃ i, s = .array i
    · obtain ⟨i, rfl⟩ := hs
      have hi : i < h.size := hhas _ List.mem_cons_self i rfl
      rw [perform_array hne]
      obtain ⟨l', ha, hset⟩ | ⟨hdone, hno⟩ := follows_onArray hi hne hlen
      · exact obeys_of_acts hne ha hset
      · rw [hdone]
        refine obeys_of_not_acts hne ?_
        rintro _ _ ⟨⟩
        exact hno
    · rw [perform_of_not_array hne fun i hi => hs ⟨i, hi⟩]
      refine obeys_of_not_acts hne ?_
      rintro i _ ⟨⟩
      exact absurd ⟨i, rfl⟩ hs

/-- What a search sends. -/
theorem fire_indexOf (i : ArrayId) (s : Signal) (w : World) :
    ((Logic.array .indexOf).fire [.array i, s] w).emissions =
      ((w.heap.indexOf? i s).map fun k => Emission.mk 0 (countSignal k)).toList := by
  show (onArray i s .nan w.heap .indexOf).1 = _
  rw [onArray]
  cases w.heap.indexOf? i s <;> rfl

theorem fire_indexOf_eq_iff {i : ArrayId} {s : Signal} {w : World} {v : Int64} :
    ((Logic.array .indexOf).fire [.array i, s] w).emissions = [⟨0, .int v⟩] ↔
      ∃ k : Nat, FirstAt (w.heap.items i) s k ∧ v.toInt = min k 9223372036854775807 := by
  simp only [← Heap.indexOf?_eq_some, ← countSignal_eq_int]
  rw [fire_indexOf]
  cases w.heap.indexOf? i s <;> simp

/-- A search sends something just when a test finds the same. -/
theorem fire_indexOf_ne_nil_iff {i : ArrayId} {s : Signal} {w : World} :
    ((Logic.array .indexOf).fire [.array i, s] w).emissions ≠ [] ↔
      ((Logic.array .contains).fire [.array i, s] w).emissions = [⟨positivePort, s⟩] := by
  have htest : ((Logic.array .contains).fire [.array i, s] w).emissions =
      [⟨branch (w.heap.contains i s), s⟩] := rfl
  rw [fire_indexOf, htest, Heap.contains_eq_isSome]
  cases w.heap.indexOf? i s <;> simp [branch, positivePort, negativePort]

/-- A firing on arrays touches nothing of the world but the heap, and there it is the operation on
the list at the first input, or nothing.  A search sends the first position at which the list has
what is sought, and sends something just when the test for it comes out positive. -/
theorem fire_array_obeys (action : ArrayAction) (inputs : List Signal) (w : World)
    (hlen : inputs.length = action.inputs) (hhas : ∀ s ∈ inputs, w.heap.Has s) :
    let f := (Logic.array action).fire inputs w
    f.logic = .array action ∧ f.world = { w with heap := f.world.heap } ∧
      action.Obeys inputs w.heap f.emissions f.world.heap ∧
      ∀ i s,
        let sought := ((Logic.array .indexOf).fire [.array i, s] w).emissions
        let tested := ((Logic.array .contains).fire [.array i, s] w).emissions
        (∀ v, sought = [⟨0, .int v⟩] ↔
          ∃ k : Nat, FirstAt (w.heap.items i) s k ∧ v.toInt = min k 9223372036854775807) ∧
        ((w.heap.items i).length ≤ 9223372036854775808 → ∀ v, sought = [⟨0, .int v⟩] ↔
          ∃ k : Nat, FirstAt (w.heap.items i) s k ∧ v.toInt = k) ∧
        (sought ≠ [] ↔ tested = [⟨positivePort, s⟩]) := by
  refine ⟨rfl, rfl, perform_obeys hlen hhas, fun i s => ⟨fun v => fire_indexOf_eq_iff,
    fun hshort v => fire_indexOf_eq_iff.trans (exists_congr fun k => and_congr_right fun hk => ?_),
    fire_indexOf_ne_nil_iff⟩⟩
  have hlt := hk.lt_length
  rw [min_eq_left (by omega)]

/-- An array that holds itself and stands in another one. -/
def loopedWorld : World := { heap := ⟨#[[.array 0, .int 5], [.array 0]]⟩ }

/-- Inserting an array into itself, at its end. -/
theorem fire_array_looped :
    let f := (Logic.array .insert).fire [.array 0, .int 2, .array 0] loopedWorld
    f.world.heap.items 0 = [.array 0, .int 5, .array 0] ∧
      insert.Obeys [.array 0, .int 2, .array 0] loopedWorld.heap f.emissions f.world.heap := by
  have hhas : ∀ s ∈ [Signal.array 0, .int 2, .array 0], loopedWorld.heap.Has s := by
    intro s hs a ha
    simp only [List.mem_cons, List.not_mem_nil, or_false] at hs
    rcases hs with rfl | rfl | rfl <;> cases ha <;> decide
  have hobeys := (fire_array_obeys .insert [.array 0, .int 2, .array 0] loopedWorld rfl hhas).2.2.1
  exact ⟨rfl, hobeys⟩

end ArrayAction

end PulseFlow
