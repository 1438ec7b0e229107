import PulseFlow.Proofs.Arrays

/-!
# Deep copies, array by array

A deep copy can be made array by array (`detachWithin`): a copy is begun empty and entered in a
table, then what stands in the array is copied into it, and an array that is found in the table is
not copied again.  An array that leads back to itself finds its own copy there, begun and not yet
filled.  Each array is entered once, so this ends if it may go as deep as there are arrays, and
it leaves the heap that `copy` gives.

What the table and the heap are on the way depends only on which arrays were entered so far, and
which of them are not yet filled (`begun`).

    h.Whole → h.Has s → h.size ≤ depth →
      (detachWithin depth ⟨[], h⟩ s).map (fun r => (r.1, r.2.heap)) = some (h.copy s)
                                                                             (detachWithin_eq)
    h.Whole → a < h.size → Set.BijOn (place (h.reachable a) h.size)
      {b | h.Reaches (.array a) b} {b | h.size ≤ b ∧ b < (h.copy (.array a)).2.size} (bijOn_place)
-/

namespace PulseFlow.Heap

/-! ## Copying array by array -/

/-- A deep copy under way. -/
structure Transfer where
  /-- The arrays entered so far, with the places of their copies. -/
  copies : List (ArrayId × ArrayId)
  heap : Heap

namespace Transfer

/-- Treats signals one after another. -/
def each (f : Transfer → Signal → Option (Signal × Transfer)) (t : Transfer) :
    List Signal → Option (List Signal × Transfer)
  | [] => some ([], t)
  | s :: rest => do
    let (s, t) ← f t s
    let (rest, t) ← each f t rest
    return (s :: rest, t)

/-- Copies a signal, if no more than `depth` arrays have to be entered on the way down. -/
def detachWithin (depth : Nat) (t : Transfer) : Signal → Option (Signal × Transfer)
  | .array a =>
    match t.copies.lookup a with
    | some b => some (.array b, t)
    | none =>
      match depth with
      | 0 => none
      | depth + 1 => do
        let (b, heap) := t.heap.alloc []
        let (items, t) ← each (detachWithin depth) ⟨t.copies ++ [(a, b)], heap⟩ (heap.items a)
        return (.array b, { t with heap := t.heap.update b fun l => l ++ items })
  | s => some (s, t)
termination_by structural depth

end Transfer

open Transfer (each detachWithin)

variable {h : Heap} {ids unfilled todo : List ArrayId} {a b : ArrayId} {s : Signal}

/-! ## What a walk enters -/

/-- A walk from two lists is one from the first and then one from the second. -/
theorem visit_append (h : Heap) (unseen xs ys : List ArrayId) :
    h.visit unseen (xs ++ ys) =
      h.visit unseen xs ++ h.visit (unseen.diff (h.visit unseen xs)) ys := by
  induction unseen, xs using visit.induct h with
  | case1 unseen => rw [visit, List.nil_append, List.nil_append, List.diff_nil]
  | case2 unseen i todo hi _ _ ih =>
    rw [List.cons_append, visit, dif_pos hi, ← List.append_assoc, ih, visit, dif_pos hi,
      List.diff_cons, List.cons_append]
  | case3 unseen i todo hi ih =>
    rw [List.cons_append, visit, dif_neg hi, ih, visit, dif_neg hi]

theorem mem_unseen_of_visit (unseen todo : List ArrayId) (ha : a ∈ h.visit unseen todo) :
    a ∈ unseen := by
  induction unseen, todo using visit.induct h with
  | case1 unseen =>
    rw [visit] at ha
    cases ha
  | case2 unseen i todo hi _ _ ih =>
    rw [visit, dif_pos hi] at ha
    rcases List.mem_cons.1 ha with rfl | ha
    · exact hi
    · exact List.mem_of_mem_erase (ih ha)
  | case3 unseen i todo hi ih =>
    rw [visit, dif_neg hi] at ha
    exact ih ha

/-- No array is visited twice. -/
theorem nodup_visit (unseen todo : List ArrayId) (hn : unseen.Nodup) :
    (h.visit unseen todo).Nodup := by
  induction unseen, todo using visit.induct h with
  | case1 unseen =>
    rw [visit]
    exact List.nodup_nil
  | case2 unseen i todo hi _ _ ih =>
    rw [visit, dif_pos hi]
    refine List.nodup_cons.2 ⟨fun hin => ?_, ih (hn.erase i)⟩
    exact hn.not_mem_erase (mem_unseen_of_visit _ _ hin)
  | case3 unseen i todo hi ih =>
    rw [visit, dif_neg hi]
    exact ih hn

/-- The arrays that are not entered yet. -/
def ahead (h : Heap) (ids : List ArrayId) : List ArrayId := (List.range h.size).diff ids

theorem mem_ahead : a ∈ h.ahead ids ↔ a < h.size ∧ a ∉ ids := by
  rw [ahead, List.nodup_range.mem_sdiff_iff, List.mem_range]

theorem ahead_append (ids more : List ArrayId) : h.ahead (ids ++ more) = (h.ahead ids).diff more :=
  List.diff_append _ _ _

theorem length_ahead_append (ids more : List ArrayId) :
    (h.ahead (ids ++ more)).length ≤ (h.ahead ids).length := by
  rw [ahead_append]
  exact (List.diff_sublist _ _).length_le

theorem length_ahead_enter (ha : a ∈ h.ahead ids) :
    (h.ahead (ids ++ [a])).length + 1 = (h.ahead ids).length := by
  rw [ahead_append, List.diff_cons, List.diff_nil, List.length_erase_of_mem ha]
  exact Nat.sub_add_cancel (List.length_pos_of_mem ha)

/-- What is entered after a walk from `todo`, if `ids` were entered before. -/
def enter (h : Heap) (ids todo : List ArrayId) : List ArrayId := ids ++ h.visit (h.ahead ids) todo

theorem enter_nil (h : Heap) (ids : List ArrayId) : h.enter ids [] = ids := by
  rw [enter, visit, List.append_nil]

theorem enter_append (h : Heap) (ids xs ys : List ArrayId) :
    h.enter ids (xs ++ ys) = h.enter (h.enter ids xs) ys := by
  rw [enter, visit_append, ← ahead_append, ← List.append_assoc]
  rfl

theorem enter_of_mem (ha : a ∈ ids) : h.enter ids [a] = ids := by
  have hnot : a ∉ h.ahead ids := fun hin => (mem_ahead.1 hin).2 ha
  rw [enter, visit, dif_neg hnot, visit, List.append_nil]

theorem enter_of_ahead (ha : a ∈ h.ahead ids) :
    h.enter ids [a] = h.enter (ids ++ [a]) (h.children a) := by
  rw [enter, visit, dif_pos ha, List.append_nil, enter, ahead_append, List.diff_cons, List.diff_nil,
    List.append_assoc, List.singleton_append]

theorem mem_enter (ha : a ∈ todo) (hlt : a < h.size) : a ∈ h.enter ids todo := by
  by_cases hin : a ∈ ids
  · exact List.mem_append_left _ hin
  · exact List.mem_append_right _ ((visit_complete _ _).1 a ha (mem_ahead.2 ⟨hlt, hin⟩))

/-! ## Copies that are begun -/

/-- Some of the arrays in `ids` are not yet filled.  In the others stand only arrays that were
entered. -/
structure Entered (h : Heap) (ids unfilled : List ArrayId) : Prop where
  known : ∀ a ∈ unfilled, a ∈ ids
  holds : ∀ a ∈ ids, a ∉ unfilled → ∀ b, h.Holds a b → b ∈ ids

theorem Entered.enter (he : Entered h ids unfilled) (hw : h.Whole) (todo : List ArrayId) :
    Entered h (h.enter ids todo) unfilled where
  known := fun a ha => List.mem_append_left _ (he.known a ha)
  holds := by
    intro a ha hfilled b hb
    rcases List.mem_append.1 ha with ha | ha
    · exact List.mem_append_left _ (he.holds a ha hfilled b hb)
    · have hlt : b < h.size := (hw a (mem_ahead.1 (mem_unseen_of_visit _ _ ha)).1).2 b hb
      by_cases hin : b ∈ ids
      · exact List.mem_append_left _ hin
      · exact List.mem_append_right _ ((visit_complete _ _).2 a ha b hb (mem_ahead.2 ⟨hlt, hin⟩))

theorem Entered.begin (he : Entered h ids unfilled) (a : ArrayId) :
    Entered h (ids ++ [a]) (a :: unfilled) where
  known := by
    intro c hc
    rcases List.mem_cons.1 hc with rfl | hc
    · exact List.mem_append_right _ List.mem_cons_self
    · exact List.mem_append_left _ (he.known c hc)
  holds := by
    intro c hc hfilled b hb
    obtain ⟨hne, hfilled⟩ := List.ne_and_not_mem_of_not_mem_cons hfilled
    have hold : c ∈ ids :=
      (List.mem_append.1 hc).resolve_right fun h => hne (List.mem_singleton.1 h)
    exact List.mem_append_left _ (he.holds c hold hfilled b hb)

/-- The table and the heap once `ids` are entered. -/
def begun (h : Heap) (ids unfilled : List ArrayId) : Transfer where
  copies := ids.zipIdx h.size
  heap := ⟨h.arrays ++ (ids.map fun a =>
    if a ∈ unfilled then [] else (h.items a).map (rename ids h.size)).toArray⟩

theorem lookup_zipIdx (ids : List ArrayId) (base : Nat) (a : ArrayId) :
    (ids.zipIdx base).lookup a = if a ∈ ids then some (base + ids.idxOf a) else none := by
  induction ids generalizing base with
  | nil => rfl
  | cons i ids ih =>
    rw [List.zipIdx_cons, List.lookup_cons, ih]
    by_cases hi : a = i
    · simp [hi]
    · have hbeq : (a == i) = false := beq_eq_false_iff_ne.2 hi
      simp [hi, hbeq, List.idxOf_cons_ne _ (Ne.symm hi), Nat.add_assoc, Nat.add_comm 1]

/-- An array that is entered keeps its place. -/
theorem rename_append (ids more : List ArrayId) (base : Nat) (hs : ∀ a, s = .array a → a ∈ ids) :
    rename (ids ++ more) base s = rename ids base s := by
  cases s with
  | array a =>
    have ha : a ∈ ids := hs a rfl
    rw [rename, rename, if_pos ha, if_pos (List.mem_append_left _ ha), List.idxOf_append_of_mem ha]
  | _ => rfl

theorem map_rename_append (ids more : List ArrayId) (base : Nat) {l : List Signal}
    (hl : ∀ a, .array a ∈ l → a ∈ ids) :
    l.map (rename (ids ++ more) base) = l.map (rename ids base) :=
  List.map_congr_left fun _ hs => rename_append ids more base fun a ha => hl a (ha ▸ hs)

theorem size_begun (h : Heap) (ids unfilled : List ArrayId) :
    (h.begun ids unfilled).heap.size = h.size + ids.length := by
  rw [begun, size_append, List.length_map]

theorem items_begun (ids unfilled : List ArrayId) (ha : a < h.size) :
    (h.begun ids unfilled).heap.items a = h.items a := by
  rw [begun, items_append, if_pos ha]

/-- Entering an array begins its copy. -/
theorem begun_enter (he : Entered h ids unfilled) (ha : a ∉ ids) :
    h.begun (ids ++ [a]) (a :: unfilled) =
      ⟨(h.begun ids unfilled).copies ++ [(a, h.size + ids.length)],
        ((h.begun ids unfilled).heap.alloc []).2⟩ := by
  have hsame : (ids.map fun c =>
      if c ∈ a :: unfilled then [] else (h.items c).map (rename (ids ++ [a]) h.size)) =
        ids.map fun c => if c ∈ unfilled then [] else (h.items c).map (rename ids h.size) := by
    refine List.map_congr_left fun c hc => ?_
    have hne : c ≠ a := fun hca => ha (hca ▸ hc)
    by_cases hu : c ∈ unfilled
    · rw [if_pos hu, if_pos (List.mem_cons_of_mem a hu)]
    · rw [if_neg hu, if_neg (List.not_mem_cons_of_ne_of_not_mem hne hu),
        map_rename_append ids [a] h.size (he.holds c hc hu)]
  rw [begun, List.map_append, hsame, List.zipIdx_append]
  simp [begun, alloc]

theorem modify_append_cons {α : Type} (xs : List α) (x : α) (ys : List α) (f : α → α) :
    (xs ++ x :: ys).modify xs.length f = xs ++ f x :: ys := by
  induction xs with
  | nil => rfl
  | cons y xs ih => exact congrArg (y :: ·) ih

/-- Filling the copy of an array. -/
theorem begun_fill {before after : List ArrayId} (hbefore : a ∉ before) (hafter : a ∉ after)
    (hu : a ∉ unfilled) :
    (h.begun (before ++ a :: after) (a :: unfilled)).heap.update (h.size + before.length)
        (fun l => l ++ (h.items a).map (rename (before ++ a :: after) h.size)) =
      (h.begun (before ++ a :: after) unfilled).heap := by
  generalize hids : before ++ a :: after = ids
  have hsame : ∀ part : List ArrayId, a ∉ part → (part.map fun c =>
      if c ∈ a :: unfilled then [] else (h.items c).map (rename ids h.size)) =
        part.map fun c => if c ∈ unfilled then [] else (h.items c).map (rename ids h.size) := by
    intro part ha
    refine List.map_congr_left fun c hc => ?_
    have hne : c ≠ a := fun hca => ha (hca ▸ hc)
    simp only [List.mem_cons, hne, false_or]
  have hat : h.size + before.length = (h.arrays.toList ++ before.map fun c =>
      if c ∈ unfilled then [] else (h.items c).map (rename ids h.size)).length := by
    simp [size]
  rw [update, begun, begun, Heap.mk.injEq, ← Array.toList_inj]
  simp only [Array.toList_modify, Array.toList_append, ← hids, List.map_append, List.map_cons]
  rw [hids, hsame before hbefore, hsame after hafter, ← List.append_assoc, hat, modify_append_cons,
    if_pos List.mem_cons_self, if_neg hu, List.nil_append, List.append_assoc]

/-! ## Every array once -/

theorem each_cons {f : Transfer → Signal → Option (Signal × Transfer)} {t t' t'' : Transfer}
    {s' : Signal} {l l' : List Signal} (hs : f t s = some (s', t'))
    (hl : each f t' l = some (l', t'')) : each f t (s :: l) = some (s' :: l', t'') := by
  rw [each, hs]
  show (each f t' l >>= _) = _
  rw [hl]
  rfl

theorem detachWithin_known {t : Transfer} (depth : Nat) (hb : t.copies.lookup a = some b) :
    detachWithin depth t (.array a) = some (.array b, t) := by
  unfold detachWithin
  rw [hb]

theorem detachWithin_new {t t' : Transfer} {depth : Nat} {l : List Signal}
    (ha : t.copies.lookup a = none)
    (hl : each (detachWithin depth) ⟨t.copies ++ [(a, t.heap.size)], (t.heap.alloc []).2⟩
      ((t.heap.alloc []).2.items a) = some (l, t')) :
    detachWithin (depth + 1) t (.array a) =
      some (.array t.heap.size,
        { t' with heap := t'.heap.update t.heap.size fun old => old ++ l }) := by
  unfold detachWithin
  rw [ha]
  show (each (detachWithin depth) ⟨t.copies ++ [(a, t.heap.size)], (t.heap.alloc []).2⟩
    ((t.heap.alloc []).2.items a) >>= _) = _
  rw [hl]
  rfl

/-- The arrays that stand in a list. -/
def arraysIn (l : List Signal) : List ArrayId := l.filterMap Signal.asArray?

/-- While at most `depth` arrays are ahead, a signal is copied the way the walk goes. -/
def Detaches (h : Heap) (depth : Nat) : Prop :=
  ∀ ids unfilled s, Entered h ids unfilled → h.Has s → (h.ahead ids).length ≤ depth →
    detachWithin depth (h.begun ids unfilled) s =
      some (rename (h.enter ids (arraysIn [s])) h.size s,
        h.begun (h.enter ids (arraysIn [s])) unfilled)

variable {depth : Nat}

theorem Detaches.each (hone : h.Detaches depth) (hw : h.Whole) (he : Entered h ids unfilled)
    (hdepth : (h.ahead ids).length ≤ depth) {l : List Signal} (hl : ∀ s ∈ l, h.Has s) :
    each (detachWithin depth) (h.begun ids unfilled) l =
      some (l.map (rename (h.enter ids (arraysIn l)) h.size),
        h.begun (h.enter ids (arraysIn l)) unfilled) := by
  induction l generalizing ids with
  | nil => rw [Transfer.each, arraysIn, List.filterMap_nil, enter_nil, List.map_nil]
  | cons s l ih =>
    have hs : h.Has s := hl s List.mem_cons_self
    have hsplit : arraysIn (s :: l) = arraysIn [s] ++ arraysIn l :=
      List.filterMap_append (l := [s])
    -- what the rest enters does not move the arrays of the first
    have hkeep : rename (h.enter (h.enter ids (arraysIn [s])) (arraysIn l)) h.size s =
        rename (h.enter ids (arraysIn [s])) h.size s := by
      refine rename_append _ _ _ fun a ha => ?_
      rw [ha]
      exact mem_enter List.mem_cons_self (hs a ha)
    have hrest := ih (he.enter hw (arraysIn [s])) ((length_ahead_append ids _).trans hdepth)
      fun x hx => hl x (List.mem_cons_of_mem s hx)
    rw [each_cons (hone ids unfilled s he hs hdepth) hrest, hsplit, enter_append, List.map_cons,
      hkeep]

/-- An array that is new is entered, what stands in it is copied, and its copy is filled. -/
theorem Detaches.new (hone : h.Detaches depth) (hw : h.Whole) (he : Entered h ids unfilled)
    (ha : a ∈ h.ahead ids) (hdepth : (h.ahead ids).length ≤ depth + 1) :
    detachWithin (depth + 1) (h.begun ids unfilled) (.array a) =
      some (rename (h.enter ids [a]) h.size (.array a), h.begun (h.enter ids [a]) unfilled) := by
  obtain ⟨hlt, hnew⟩ := mem_ahead.1 ha
  have hlookup : (h.begun ids unfilled).copies.lookup a = none :=
    (lookup_zipIdx ids h.size a).trans (if_neg hnew)
  have hdepth' : (h.ahead (ids ++ [a])).length ≤ depth := by
    have := length_ahead_enter ha
    omega
  have hitems := hone.each hw (he.begin a) hdepth' (l := h.items a)
    fun s hs b hb => (hw a hlt).2 b (hb ▸ hs)
  have hread : ((h.begun ids unfilled).heap.alloc []).2.items a = h.items a :=
    (congrArg (fun t => t.heap.items a) (begun_enter he hnew)).symm.trans (items_begun _ _ hlt)
  rw [begun_enter he hnew, ← size_begun h ids unfilled, ← hread] at hitems
  rw [detachWithin_new hlookup hitems, hread, size_begun]
  -- the array stands where it was entered, before all that was found behind it
  obtain ⟨found, hfound, hids⟩ : ∃ found, a ∉ found ∧
      h.enter (ids ++ [a]) (arraysIn (h.items a)) = ids ++ a :: found := by
    refine ⟨h.visit (h.ahead (ids ++ [a])) (h.children a), fun hin => ?_, ?_⟩
    · exact (mem_ahead.1 (mem_unseen_of_visit _ _ hin)).2
        (List.mem_append_right _ List.mem_cons_self)
    · rw [enter, List.append_assoc, List.singleton_append]
      rfl
  have hwalk : h.enter ids [a] = ids ++ a :: found := (enter_of_ahead ha).trans hids
  have hfill := begun_fill (h := h) hnew hfound fun hu => hnew (he.known a hu)
  rw [hids, hwalk, hfill, rename, if_pos (List.mem_append_right _ List.mem_cons_self),
    List.idxOf_append_of_notMem hnew, List.idxOf_cons_self, Nat.add_zero]
  rfl

/-- Signals other than new arrays are copied at any depth. -/
theorem Detaches.of_new (hnew : ∀ ids unfilled a, Entered h ids unfilled → a ∈ h.ahead ids →
      (h.ahead ids).length ≤ depth → detachWithin depth (h.begun ids unfilled) (.array a) =
        some (rename (h.enter ids [a]) h.size (.array a), h.begun (h.enter ids [a]) unfilled)) :
    h.Detaches depth := by
  intro ids unfilled s he hs hdepth
  cases s with
  | array a =>
    show _ = some (rename (h.enter ids [a]) h.size (.array a), h.begun (h.enter ids [a]) unfilled)
    by_cases ha : a ∈ ids
    · have hlookup : (h.begun ids unfilled).copies.lookup a = some (h.size + ids.idxOf a) :=
        (lookup_zipIdx ids h.size a).trans (if_pos ha)
      rw [detachWithin_known depth hlookup, enter_of_mem ha, rename, if_pos ha]
    · exact hnew ids unfilled a he (mem_ahead.2 ⟨hs a rfl, ha⟩) hdepth
  | _ =>
    unfold detachWithin
    show some (_, h.begun ids unfilled) = some (_, h.begun (h.enter ids []) unfilled)
    rw [enter_nil]
    rfl

/-- The induction is on the depth: each array that is entered on the way down leaves one less
ahead. -/
theorem detaches (hw : h.Whole) (depth : Nat) : h.Detaches depth := by
  induction depth with
  | zero =>
    refine .of_new fun ids unfilled a he ha hdepth => ?_
    have := List.length_pos_of_mem ha
    omega
  | succ depth ih => exact .of_new fun ids unfilled a he ha hdepth => ih.new hw he ha hdepth

/-- Copying array by array comes to an end, and gives the deep copy. -/
theorem detachWithin_eq (hw : h.Whole) (hs : h.Has s) (hdepth : h.size ≤ depth) :
    (detachWithin depth ⟨[], h⟩ s).map (fun r => (r.1, r.2.heap)) = some (h.copy s) := by
  have hstart : h.begun [] [] = ⟨[], h⟩ := by simp [begun]
  have hlength : (h.ahead []).length = h.size := by simp [ahead]
  have hrun := detaches hw depth [] [] s ⟨fun a ha => ha, fun a ha => absurd ha List.not_mem_nil⟩ hs
    (hlength.trans_le hdepth)
  rw [hstart] at hrun
  rw [hrun, Option.map_some]
  cases s with
  | array a =>
    have hwalk : h.enter [] (arraysIn [.array a]) = h.reachable a := by
      show [] ++ h.visit ((List.range h.size).diff []) [a] = h.visit (List.range h.size) [a]
      rw [List.diff_nil, List.nil_append]
    rw [hwalk]
    simp [begun, copy]
  | _ =>
    have hwalk := h.enter_nil []
    show some (_, (h.begun (h.enter [] []) []).heap) = _
    rw [hwalk, hstart]
    rfl

/-! ## Isolated copies -/

/-- A copy whose arrays are all that is new in the heap. -/
structure Detached (h : Heap) (s : Signal) (h' : Heap) (s' : Signal) (ρ : ArrayId → ArrayId) :
    Prop where
  /-- The same leaves stand at the same positions, and arrays go to their copies. -/
  copy : Copy h s h' s' ρ
  /-- Each array within reach has one copy, and nothing else was made. -/
  places : Set.BijOn ρ {a | h.Reaches s a} {b | h.size ≤ b ∧ b < h'.size}
  /-- What is within reach of the copy is what was made. -/
  reaches : ∀ b, h'.Reaches s' b ↔ h.size ≤ b ∧ b < h'.size
  /-- The arrays that were there are as they were. -/
  old : ∀ a, a < h.size → h'.items a = h.items a

theorem bijOn_place (hw : h.Whole) (ha : a < h.size) :
    Set.BijOn (place (h.reachable a) h.size) {b | h.Reaches (.array a) b}
      {b | h.size ≤ b ∧ b < (h.copy (.array a)).2.size} := by
  refine ⟨fun b hb => place_lt hw ha hb, (copy_array hw ha).injOn, ?_⟩
  rintro b ⟨hle, hlt⟩
  obtain ⟨k, rfl⟩ := Nat.exists_eq_add_of_le hle
  rw [size_copy, Nat.add_lt_add_iff_left] at hlt
  have hmem : (h.reachable a)[k] ∈ h.reachable a := List.getElem_mem hlt
  refine ⟨(h.reachable a)[k], reaches_array.2 ((mem_reachable hw ha).1 hmem), ?_⟩
  have hnodup : (h.reachable a).Nodup := nodup_visit _ _ List.nodup_range
  rw [place, if_pos hmem, hnodup.idxOf_getElem]

/-- A deep copy of a signal in a heap in which no array is missing can be made array by array, going
no deeper than there are arrays, and is detached from all that was there. -/
theorem copy_detached (h : Heap) (s : Signal) (hw : h.Whole) (hs : h.Has s) :
    (∀ depth, h.size ≤ depth →
      (detachWithin depth ⟨[], h⟩ s).map (fun r => (r.1, r.2.heap)) = some (h.copy s)) ∧
    ∃ ρ, Detached h s (h.copy s).2 (h.copy s).1 ρ := by
  refine ⟨fun depth hdepth => detachWithin_eq hw hs hdepth, ?_⟩
  have hold : ∀ a, a < h.size → (h.copy s).2.items a = h.items a :=
    fun a ha => (copy_grows h s).items_eq ha
  obtain ⟨ρ, hcopy, hplaces⟩ : ∃ ρ, Copy h s (h.copy s).2 (h.copy s).1 ρ ∧
      Set.BijOn ρ {a | h.Reaches s a} {b | h.size ≤ b ∧ b < (h.copy s).2.size} := by
    cases s with
    | array a => exact ⟨_, copy_array hw (hs a rfl), bijOn_place hw (hs a rfl)⟩
    | _ =>
      -- nothing is within reach, and nothing is made
      obtain ⟨ρ, hcopy⟩ := (copy_spec hw hs).1
      refine ⟨ρ, hcopy, ?_, hcopy.injOn, ?_⟩
      · rintro b ⟨a, ha, -⟩
        cases ha
      · rintro b ⟨hle, hlt⟩
        exact absurd hlt (Nat.not_lt.2 hle)
  refine ⟨ρ, hcopy, hplaces, fun b => ?_, hold⟩
  rw [hcopy.reaches]
  exact Set.ext_iff.1 hplaces.image_eq b

/-- Two arrays that hold each other, one of them also itself and, twice, a third one.  A fourth one
is out of reach. -/
def tangle : Heap :=
  ⟨#[[.array 1, .int 5, .array 0, .array 2, .array 2], [.array 0], [.int 7], [.array 2]]⟩

theorem whole_tangle : tangle.Whole := by
  have hitems : ∀ a < 4, ∀ s ∈ tangle.items a, s.asArray?.getD 0 < 4 := by decide
  exact fun a ha => ⟨ha, fun b hb => hitems a ha _ hb⟩

theorem copy_detached_tangle :
    (detachWithin 4 ⟨[], tangle⟩ (.array 0)).map (fun r => (r.1, r.2.heap.arrays.toList.drop 4)) =
        some (.array 4, [[.array 5, .int 5, .array 4, .array 6, .array 6], [.array 4], [.int 7]]) ∧
      (detachWithin 4 ⟨[], tangle⟩ (.array 0)).map (fun r => (r.1, r.2.heap)) =
        some (tangle.copy (.array 0)) ∧
      ∃ ρ, Detached tangle (.array 0) (tangle.copy (.array 0)).2 (tangle.copy (.array 0)).1 ρ := by
  have hhas : tangle.Has (.array 0) := by
    rintro a ⟨⟩
    decide
  obtain ⟨hends, hdetached⟩ := copy_detached tangle (.array 0) whole_tangle hhas
  exact ⟨rfl, hends 4 (by decide), hdetached⟩

end PulseFlow.Heap
