import PulseFlow.Proofs.Arrays
import PulseFlow.Proofs.Settling

/-!
# Instances share no arrays

Each constant of an instance is a deep copy of its own of a constant of the template, also where
constants of the template share arrays.  So whatever is done to the arrays of one instance, nobody
sees it through another instance, through a template, or through anything that was there before.

    Apart g₁ C₁ h h₁ → Apart g₂ C₂ h₁ h₂ → … → Apart g₂ C h h₂                    (Apart.append)
    h.Backs e → … → Isolated h calls is g' h'                              (isolated_instances)
-/

namespace PulseFlow

namespace Graph

variable {g g₁ g₂ : Graph} {C C₁ C₂ : NodeId → Prop} {h h₁ h₂ : Heap}

/-- The value of a constant node. -/
def constant? (g : Graph) (id : NodeId) : Option Signal :=
  (g.get? id).bind fun n => n.body.constant?

/-- The constants of the nodes `created`, for which `h` became `h'`, have arrays of their own. -/
structure Apart (g : Graph) (created : NodeId → Prop) (h h' : Heap) : Prop where
  grows : h.Grows h'
  whole : h'.Whole
  here : ∀ x, created x → ∀ v, constant? g x = some v → h'.Has v
  new : ∀ x, created x → ∀ v, constant? g x = some v → ∀ a, h'.Reaches v a → h.size ≤ a
  disjoint : ∀ x y, created x → created y → x ≠ y → ∀ v w, constant? g x = some v →
    constant? g y = some w → ∀ a, h'.Reaches v a → ¬ h'.Reaches w a

namespace Apart

/-- Nodes created in two stages.  The arrays of the second lie behind those of the first. -/
theorem append (h₁₂ : Apart g₁ C₁ h h₁) (h₂₃ : Apart g₂ C₂ h₁ h₂)
    (hkeep : ∀ x, C₁ x → constant? g₂ x = constant? g₁ x) (hC : ∀ x, C x → C₁ x ∨ C₂ x) :
    Apart g₂ C h h₂ := by
  have hfirst : ∀ x, C₁ x → ∀ v, constant? g₂ x = some v → h₁.Has v ∧
      (∀ a, h₂.Reaches v a ↔ h₁.Reaches v a) ∧ constant? g₁ x = some v := by
    intro x hx v hv
    rw [hkeep x hx] at hv
    have hhas := h₁₂.here x hx v hv
    exact ⟨hhas, fun a => Heap.reaches_grown h₂₃.grows h₁₂.whole hhas, hv⟩
  have hcross : ∀ x y, C₁ x → C₂ y → ∀ v w, constant? g₂ x = some v → constant? g₂ y = some w →
      ∀ a, h₂.Reaches v a → ¬ h₂.Reaches w a := by
    intro x y hx hy v w hv hw a hva hwa
    obtain ⟨hhas, hreach, -⟩ := hfirst x hx v hv
    have hlt := ((hreach a).1 hva).lt h₁₂.whole hhas
    exact Nat.not_lt.2 (h₂₃.new y hy w hw a hwa) hlt
  constructor
  · exact h₁₂.grows.trans h₂₃.grows
  · exact h₂₃.whole
  · intro x hx v hv
    rcases hC x hx with hx | hx
    · exact (hfirst x hx v hv).1.mono h₂₃.grows
    · exact h₂₃.here x hx v hv
  · intro x hx v hv a ha
    rcases hC x hx with hx | hx
    · obtain ⟨-, hreach, hv⟩ := hfirst x hx v hv
      exact h₁₂.new x hx v hv a ((hreach a).1 ha)
    · exact Nat.le_trans h₁₂.grows.size_le (h₂₃.new x hx v hv a ha)
  · intro x y hx hy hne v w hv hw a hva hwa
    rcases hC x hx with hx | hx
    · rcases hC y hy with hy | hy
      · obtain ⟨-, hvreach, hv⟩ := hfirst x hx v hv
        obtain ⟨-, hwreach, hw⟩ := hfirst y hy w hw
        exact h₁₂.disjoint x y hx hy hne v w hv hw a ((hvreach a).1 hva) ((hwreach a).1 hwa)
      · exact hcross x y hx hy v w hv hw a hva hwa
    · rcases hC y hy with hy | hy
      · exact hcross y x hy hx w v hw hv a hwa hva
      · exact h₂₃.disjoint x y hx hy hne v w hv hw a hva hwa

theorem none (g : Graph) (hw : h.Whole) : Apart g (fun _ => False) h h where
  grows := .refl h
  whole := hw
  here := fun _ hx => hx.elim
  new := fun _ hx => hx.elim
  disjoint := fun _ _ hx => hx.elim

theorem imp (ha : Apart g C₁ h h₁) (hC : ∀ x, C x → C₁ x)
    (hkeep : ∀ x, C x → constant? g₂ x = constant? g x) : Apart g₂ C h h₁ where
  grows := ha.grows
  whole := ha.whole
  here := fun x hx v hv => ha.here x (hC x hx) v (hkeep x hx ▸ hv)
  new := fun x hx v hv => ha.new x (hC x hx) v (hkeep x hx ▸ hv)
  disjoint := fun x y hx hy hne v w hv hw =>
    ha.disjoint x y (hC x hx) (hC y hy) hne v w (hkeep x hx ▸ hv) (hkeep y hy ▸ hw)

end Apart

end Graph

/-! ## One instance -/

/-- A constant and a copy of it, or neither. -/
def Heap.CopyOfConstant (h h' : Heap) : Option Signal → Option Signal → Prop :=
  Option.Rel fun v v' => ∃ ρ, Heap.Copy h v h' v' ρ

namespace Heap.CopyOfConstant

variable {h h' h'' : Heap} {o o' : Option Signal}

theorem grow (hc : Heap.CopyOfConstant h h' o o') (hw : h'.Whole)
    (hhas : ∀ v, o' = some v → h'.Has v) (hg : h'.Grows h'') : Heap.CopyOfConstant h h'' o o' := by
  cases hc with
  | none => exact .none
  | some hc =>
    obtain ⟨ρ, hc⟩ := hc
    exact .some ⟨ρ, hc.grow hw (hhas _ rfl) hg⟩

theorem of_grown (hc : Heap.CopyOfConstant h' h'' o o') (hg : h.Grows h') (hw : h.Whole)
    (hhas : ∀ v, o = some v → h.Has v) : Heap.CopyOfConstant h h'' o o' := by
  cases hc with
  | none => exact .none
  | some hc =>
    obtain ⟨ρ, hc⟩ := hc
    exact .some ⟨ρ, hc.of_grown hg hw (hhas _ rfl)⟩

end Heap.CopyOfConstant

theorem Body.constant?_duplicate (b : Body) (h : Heap) :
    (b.duplicate h).1.constant? = b.constant?.map (fun v => (h.copy v).1) ∧
      (b.duplicate h).2 = b.constant?.elim h fun v => (h.copy v).2 := by
  cases b with
  | reference k i => exact ⟨rfl, rfl⟩
  | native l => cases l <;> exact ⟨rfl, rfl⟩

namespace Prototype

variable {g : Graph} {h : Heap}

/-- Copying one node. -/
theorem duplicate_apart {g' : Graph} {n : Node} {x : NodeId} (hw : h.Whole)
    (hhas : ∀ v, n.body.constant? = some v → h.Has v)
    (hx : g'.get? x = some (n.duplicate h).1) :
    Graph.Apart g' (· = x) h (n.duplicate h).2 ∧
      Heap.CopyOfConstant h (n.duplicate h).2 n.body.constant? (Graph.constant? g' x) := by
  have hconst : Graph.constant? g' x = n.body.constant?.map fun v => (h.copy v).1 := by
    rw [Graph.constant?, hx]
    exact (n.body.constant?_duplicate h).1
  have hheap : (n.duplicate h).2 = n.body.constant?.elim h fun v => (h.copy v).2 :=
    (n.body.constant?_duplicate h).2
  rw [hheap, hconst]
  cases hv : n.body.constant? with
  | none =>
    rw [hv] at hconst
    have hnone : ∀ y, y = x → ∀ v, Graph.constant? g' y ≠ some v := by
      rintro y rfl v hv
      rw [hconst] at hv
      cases hv
    exact ⟨⟨.refl h, hw, fun y hy v hv => absurd hv (hnone y hy v),
      fun y hy v hv => absurd hv (hnone y hy v),
      fun y _ hy _ _ v _ hv => absurd hv (hnone y hy v)⟩, .none⟩
  | some v =>
    obtain ⟨hcopy, hhere, hnew⟩ := Heap.copy_spec hw (hhas v hv)
    rw [hv, Option.map_some] at hconst
    have hsome : ∀ y, y = x → ∀ w, Graph.constant? g' y = some w → w = (h.copy v).1 := by
      rintro y rfl w hw
      exact (Option.some.inj (hconst.symm.trans hw)).symm
    refine ⟨⟨Heap.copy_grows h v, Heap.whole_copy hw (hhas v hv), ?_, ?_, ?_⟩, .some hcopy⟩
    · intro y hy w hyw
      rw [hsome y hy w hyw]
      exact hhere
    · intro y hy w hyw
      rw [hsome y hy w hyw]
      exact hnew
    · rintro y z rfl rfl hne
      exact absurd rfl hne

/-- Copying nodes one after another. -/
theorem copyNodes_apart (hg : g.Tidy) (hw : h.Whole) {es : List (NodeId × Node)}
    (hes : (es.map Prod.fst).Nodup)
    (hhas : ∀ q ∈ es, ∀ v, q.2.body.constant? = some v → h.Has v) :
    Graph.Apart (copyNodes g h es).2.1 (· ∈ (copyNodes g h es).1.map Prod.snd) h
        (copyNodes g h es).2.2 ∧
      ∀ old n new, (old, n) ∈ es → (old, new) ∈ (copyNodes g h es).1 →
        Heap.CopyOfConstant h (copyNodes g h es).2.2 n.body.constant?
          (Graph.constant? (copyNodes g h es).2.1 new) := by
  induction es generalizing g h with
  | nil => exact ⟨(Graph.Apart.none g hw).imp (by simp [copyNodes]) fun _ _ => rfl, by simp⟩
  | cons entry es ih =>
    obtain ⟨old, n⟩ := entry
    obtain ⟨hold, hes⟩ := List.nodup_cons.1 hes
    let c := (n.duplicate h).1
    have hself : (g.add c).2.get? (g.add c).1 = some c := Slots.get?_add_self hg c
    obtain ⟨hfirst, hcopy⟩ := duplicate_apart hw (hhas (old, n) List.mem_cons_self) hself
    have hhas' : ∀ q ∈ es, ∀ v, q.2.body.constant? = some v → h.Has v := fun q hq =>
      hhas q (List.mem_cons_of_mem _ hq)
    have hrest := ih (Slots.tidy_add hg c) hfirst.whole hes fun q hq v hv =>
      (hhas' q hq v hv).mono hfirst.grows
    have hcopied := copyNodes_copied (fun _ => True) (Slots.tidy_add hg c) (n.duplicate h).2 hes
    show Graph.Apart (copyNodes (g.add c).2 (n.duplicate h).2 es).2.1
        (· ∈ ((old, (g.add c).1) :: (copyNodes (g.add c).2 (n.duplicate h).2 es).1).map Prod.snd) h
        (copyNodes (g.add c).2 (n.duplicate h).2 es).2.2 ∧
      ∀ old' m new, (old', m) ∈ (old, n) :: es →
        (old', new) ∈ (old, (g.add c).1) :: (copyNodes (g.add c).2 (n.duplicate h).2 es).1 →
        Heap.CopyOfConstant h (copyNodes (g.add c).2 (n.duplicate h).2 es).2.2 m.body.constant?
          (Graph.constant? (copyNodes (g.add c).2 (n.duplicate h).2 es).2.1 new)
    generalize copyNodes (g.add c).2 (n.duplicate h).2 es = result at hrest hcopied
    obtain ⟨r, g', h'⟩ := result
    obtain ⟨hrest, hcopies⟩ := hrest
    have hkeys : r.map Prod.fst = es.map Prod.fst := hcopied.keys
    -- the number just taken is in use, so it is not taken again
    have hkeep : ∀ x, x = (g.add c).1 → Graph.constant? g' x = Graph.constant? (g.add c).2 x := by
      rintro x rfl
      have hnot : (g.add c).1 ∉ r.map Prod.snd := fun hm => by
        have hfresh := hcopied.fresh _ hm
        rw [hself] at hfresh
        cases hfresh
      rw [Graph.constant?, hcopied.keep _ hnot, Graph.constant?]
    refine ⟨hfirst.append hrest hkeep fun x hx => ?_, ?_⟩
    · exact (List.mem_cons.1 hx)
    · intro old' m new hm hnew
      rcases List.mem_cons.1 hm with hm | hm
      · cases hm
        rcases List.mem_cons.1 hnew with hnew | hnew
        · cases hnew
          rw [hkeep _ rfl]
          exact hcopy.grow hfirst.whole (hfirst.here _ rfl) hrest.grows
        · exact absurd (hkeys ▸ List.mem_map_of_mem hnew) hold
      · rcases List.mem_cons.1 hnew with hnew | hnew
        · cases hnew
          exact absurd (List.mem_map_of_mem hm) hold
        · exact (hcopies old' m new hm hnew).of_grown hfirst.grows hw (hhas' (old', m) hm)

theorem constant?_wireCopies (r : Renaming) (g : Graph) (es : List (NodeId × Node)) (x : NodeId) :
    Graph.constant? (wireCopies r g es) x = Graph.constant? g x := by
  induction es generalizing g with
  | nil => rfl
  | cons q es ih =>
    rw [wireCopies, List.foldl_cons, ← wireCopies, ih]
    dsimp only
    cases r.lookup q.1 with
    | none => rfl
    | some new =>
      dsimp only
      unfold Graph.constant?
      rw [Slots.get?_modify]
      split
      · cases g.get? x <;> rfl
      · rfl

/-- The constants of a new instance are copies of those of the template, each with arrays of its
own. -/
theorem instantiate_apart {p : Prototype} (hg : g.Tidy) (hw : h.Whole)
    (hhas : ∀ old v, p.constant? old = some v → h.Has v) (id : Nat) :
    Graph.Apart (p.instantiate id g h).2.1 (· ∈ (p.instantiate id g h).1.nodes) h
        (p.instantiate id g h).2.2 ∧
      ∀ old, (p.graph.get? old).isSome = true →
        Heap.CopyOfConstant h (p.instantiate id g h).2.2 (p.constant? old)
          (Graph.constant? (p.instantiate id g h).2.1 (p.copyOf g h old)) := by
  have hes := nodup_map_fst_entries p.graph
  have hhas' : ∀ q ∈ p.graph.entries, ∀ v, q.2.body.constant? = some v → h.Has v := by
    rintro ⟨old, n⟩ hq v hv
    refine hhas old v ?_
    rw [constant?, Slots.mem_entries.1 hq]
    exact hv
  obtain ⟨hapart, hcopies⟩ := copyNodes_apart hg hw hes hhas'
  have hkeys : (copyNodes g h p.graph.entries).1.map Prod.fst = p.graph.entries.map Prod.fst :=
    (copyNodes_copied (fun _ => True) hg h hes).keys
  have hconst : ∀ x, Graph.constant? (p.instantiate id g h).2.1 x =
      Graph.constant? (copyNodes g h p.graph.entries).2.1 x := constant?_wireCopies _ _ _
  refine ⟨hapart.imp (fun x hx => SortedSet.mem_ofList.1 hx) fun x _ => hconst x, ?_⟩
  intro old hold
  obtain ⟨n, hn⟩ := Option.isSome_iff_exists.1 hold
  have hentry := Slots.mem_entries.2 hn
  obtain ⟨new, hnew⟩ := lookup_of_mem (hkeys ▸ List.mem_map_of_mem hentry)
  have hname : p.copyOf g h old = new := by rw [copyOf, hnew, Option.getD_some]
  have hvalue : p.constant? old = n.body.constant? := by rw [constant?, hn, Option.bind_some]
  rw [hname, hvalue, hconst]
  exact hcopies old n new hentry (mem_of_lookup hnew)

/-! ## Many instances -/

/-- Makes instances one after another, each of a prototype and with a number of its own. -/
def instantiateAll (g : Graph) (h : Heap) : List (Prototype × Nat) → List Instance × Graph × Heap
  | [] => ([], g, h)
  | (p, id) :: calls =>
    let (i, g, h) := p.instantiate id g h
    let (is, g, h) := instantiateAll g h calls
    (i :: is, g, h)

/-- An instance is its template under a renaming of nodes, and its constants are copies. -/
def Reproduces (g : Graph) (h h' : Heap) (p : Prototype) (i : Instance) : Prop :=
  ∃ f, p.CopiedIn g i f ∧ ∀ old, (p.graph.get? old).isSome = true →
    Heap.CopyOfConstant h h' (p.constant? old) (Graph.constant? g (f old))

/-- What making instances one after another leaves. -/
structure Copies (g : Graph) (h : Heap) (calls : List (Prototype × Nat)) (is : List Instance)
    (g' : Graph) (h' : Heap) : Prop where
  fresh : ∀ i ∈ is, ∀ x ∈ i.nodes, g.get? x = none
  keep : ∀ x, (∀ i ∈ is, x ∉ i.nodes) → g'.get? x = g.get? x
  nodup : (is.flatMap Instance.nodes).Nodup
  apart : Graph.Apart g' (fun x => ∃ i ∈ is, x ∈ i.nodes) h h'
  templates : List.Forall₂ (fun call i => Reproduces g' h h' call.1 i) calls is

/-- One instance more, made first. -/
theorem Copies.cons {t : Prototypes} {g₁ g' : Graph} {h₁ h' : Heap} {p : Prototype} {id : Nat}
    {i : Instance} {f : NodeId → NodeId} {calls : List (Prototype × Nat)} {is : List Instance}
    (hw : h.Whole) (hwell : p.WellMade t) (hmade : p.Made g g₁ i) (hcopied : p.CopiedIn g₁ i f)
    (hfirst : Graph.Apart g₁ (· ∈ i.nodes) h h₁)
    (hconst : ∀ old, (p.graph.get? old).isSome = true →
      Heap.CopyOfConstant h h₁ (p.constant? old) (Graph.constant? g₁ (f old)))
    (hhas : ∀ call ∈ calls, ∀ old v, call.1.constant? old = some v → h.Has v)
    (hrest : Copies g₁ h₁ calls is g' h') : Copies g h ((p, id) :: calls) (i :: is) g' h' := by
  -- the nodes made first are there, so their numbers are not taken again
  have hother : ∀ x ∈ i.nodes, ∀ j ∈ is, x ∉ j.nodes := by
    intro x hx j hj hxj
    obtain ⟨-, -, c, -, hc, -⟩ := hmade.copy x hx
    rw [hrest.fresh j hj x hxj] at hc
    cases hc
  have hget : ∀ x ∈ i.nodes, g'.get? x = g₁.get? x := fun x hx => hrest.keep x (hother x hx)
  have hvalue : ∀ x ∈ i.nodes, Graph.constant? g' x = Graph.constant? g₁ x := by
    intro x hx
    rw [Graph.constant?, hget x hx, Graph.constant?]
  constructor
  · intro j hj x hx
    rcases List.mem_cons.1 hj with rfl | hj
    · exact hmade.fresh x hx
    · have hnot : x ∉ i.nodes := fun hxi => hother x hxi j hj hx
      rw [← hmade.keep x hnot]
      exact hrest.fresh j hj x hx
  · intro x hx
    rw [hrest.keep x fun j hj => hx j (List.mem_cons_of_mem i hj),
      hmade.keep x (hx i List.mem_cons_self)]
  · rw [List.flatMap_cons, List.nodup_append]
    refine ⟨hmade.nodup, hrest.nodup, fun x hx y hy hxy => ?_⟩
    obtain ⟨j, hj, hy⟩ := List.mem_flatMap.1 hy
    exact hother x hx j hj (hxy ▸ hy)
  · refine hfirst.append hrest.apart hvalue ?_
    rintro x ⟨j, hj, hx⟩
    rcases List.mem_cons.1 hj with rfl | hj
    · exact .inl hx
    · exact .inr ⟨j, hj, hx⟩
  · refine .cons ⟨f, hcopied.of_kept hwell (.of_eq hget), fun old hold => ?_⟩ ?_
    · have hnode : f old ∈ i.nodes := hcopied.bijOn.mapsTo hold
      rw [hvalue _ hnode]
      exact (hconst old hold).grow hfirst.whole (hfirst.here _ hnode) hrest.apart.grows
    · have hboth := (List.forall₂_and_left calls is).2 ⟨hhas, hrest.templates⟩
      refine hboth.imp ?_
      rintro call j ⟨hhas, f, hf, hcopies⟩
      exact ⟨f, hf, fun old hold => (hcopies old hold).of_grown hfirst.grows hw (hhas old)⟩

theorem instantiateAll_copies {t : Prototypes} {calls : List (Prototype × Nat)} (hg : g.Tidy)
    (hw : h.Whole)
    (hcalls : ∀ call ∈ calls, call.1.WellMade t ∧ Graph.Plugged call.1.graph ∧
      ∀ old v, call.1.constant? old = some v → h.Has v) :
    Copies g h calls (instantiateAll g h calls).1 (instantiateAll g h calls).2.1
      (instantiateAll g h calls).2.2 := by
  induction calls generalizing g h with
  | nil =>
    refine ⟨by simp [instantiateAll], fun _ _ => rfl, List.nodup_nil, ?_, .nil⟩
    exact (Graph.Apart.none g hw).imp (by simp [instantiateAll]) fun _ _ => rfl
  | cons call calls ih =>
    obtain ⟨p, id⟩ := call
    obtain ⟨hwell, hplugged, hhas⟩ := hcalls (p, id) List.mem_cons_self
    obtain ⟨hfirst, hconst⟩ := instantiate_apart hg hw hhas id
    have hmade := instantiate_made hg hwell id h
    refine Copies.cons hw hwell hmade (instantiate_copyOf hg h hwell hplugged id).1 hfirst hconst
      (fun call hcall => (hcalls call (List.mem_cons_of_mem _ hcall)).2.2) ?_
    refine ih hmade.tidy hfirst.whole fun call hcall => ?_
    obtain ⟨hwell, hplugged, hhas⟩ := hcalls call (List.mem_cons_of_mem _ hcall)
    exact ⟨hwell, hplugged, fun old v hv => (hhas old v hv).mono hfirst.grows⟩

end Prototype

/-! ## What can be seen -/

/-- Instances made one after another share no array, with one another or with what was there. -/
structure Isolated (h : Heap) (calls : List (Prototype × Nat)) (is : List Instance) (g' : Graph)
    (h' : Heap) : Prop where
  /-- Arrays are added, and those that were there are as they were. -/
  grows : h.Grows h'
  nodup : (is.flatMap Instance.nodes).Nodup
  /-- No array is within reach of two constants, -/
  disjoint : ∀ x y, x ∈ is.flatMap Instance.nodes → y ∈ is.flatMap Instance.nodes → x ≠ y →
    ∀ v w, Graph.constant? g' x = some v → Graph.constant? g' y = some w →
    ∀ a, h'.Reaches v a → ¬ h'.Reaches w a
  /-- or of a constant and of a signal that was there. -/
  apart : ∀ x ∈ is.flatMap Instance.nodes, ∀ v, Graph.constant? g' x = some v →
    ∀ s, h.Has s → ∀ a, h'.Reaches v a → ¬ h'.Reaches s a
  /-- Each instance is its template again, and its constants are copies of those of the template. -/
  copies : List.Forall₂ (fun call i => Prototype.Reproduces g' h h' call.1 i) calls is
  /-- When arrays of one instance change, nothing else looks different. -/
  unseen : ∀ i ∈ is, ∀ h'' : Heap,
    (∀ a, (∀ x ∈ i.nodes, ∀ v, Graph.constant? g' x = some v → ¬ h'.Reaches v a) →
      h''.items a = h'.items a) →
    (∀ y ∈ is.flatMap Instance.nodes, y ∉ i.nodes → ∀ w, Graph.constant? g' y = some w →
      Heap.SameView h' h'' w) ∧
    ∀ s, h.Has s → Heap.SameView h' h'' s

theorem Prototype.Copies.isolated {g g' : Graph} {h h' : Heap} {calls : List (Prototype × Nat)}
    {is : List Instance} (hw : h.Whole) (hc : Prototype.Copies g h calls is g' h') :
    Isolated h calls is g' h' := by
  have hdisjoint : ∀ x y, x ∈ is.flatMap Instance.nodes → y ∈ is.flatMap Instance.nodes → x ≠ y →
      ∀ v w, Graph.constant? g' x = some v → Graph.constant? g' y = some w →
      ∀ a, h'.Reaches v a → ¬ h'.Reaches w a := fun x y hx hy =>
    hc.apart.disjoint x y (List.mem_flatMap.1 hx) (List.mem_flatMap.1 hy)
  have hapart : ∀ x ∈ is.flatMap Instance.nodes, ∀ v, Graph.constant? g' x = some v →
      ∀ s, h.Has s → ∀ a, h'.Reaches v a → ¬ h'.Reaches s a := by
    intro x hx v hv s hs a hva hsa
    have hlt := ((Heap.reaches_grown hc.apart.grows hw hs).1 hsa).lt hw hs
    exact Nat.not_lt.2 (hc.apart.new x (List.mem_flatMap.1 hx) v hv a hva) hlt
  refine ⟨hc.apart.grows, hc.nodup, hdisjoint, hapart, hc.templates, ?_⟩
  intro i hi h'' hsame
  have hmem : ∀ x ∈ i.nodes, x ∈ is.flatMap Instance.nodes := fun x hx =>
    List.mem_flatMap.2 ⟨i, hi, hx⟩
  constructor
  · intro y hy hyi w hw
    refine Heap.sameView_of_items fun a ha => hsame a fun x hx v hv hva => ?_
    exact hdisjoint x y (hmem x hx) hy (fun hxy => hyi (hxy ▸ hx)) v w hv hw a hva ha
  · intro s hs
    refine Heap.sameView_of_items fun a ha => hsame a fun x hx v hv hva => ?_
    exact hapart x (hmem x hx) v hv s hs a hva ha

/-- No array is missing: the heap has all that stand in its arrays and in the constants of
templates. -/
structure Heap.Backs (h : Heap) (e : Engine) : Prop where
  whole : h.Whole
  templates : ∀ k p id v, e.prototype? k = some p → p.constant? id = some v → h.Has v

namespace Engine

/-- In every engine that commands lead to and for every heap, instances of registered prototypes,
made in any number and order, share no arrays with one another, with templates, or with anything
that was there. -/
theorem isolated_instances (settings : Settings) (console : Console) (commands : List Command)
    (h : Heap) (hh : h.Backs ((fresh settings console).after commands))
    (calls : List (Prototype × Nat))
    (hcalls : ∀ call ∈ calls,
      ∃ k, ((fresh settings console).after commands).prototype? k = some call.1) :
    let e := (fresh settings console).after commands
    let made := Prototype.instantiateAll e.graph h calls
    Isolated h calls made.1 made.2.1 made.2.2 := by
  intro e made
  have he : Sound (.rest e) := (settled_after settings console commands).sound
  have hdrawn : e.Drawn := (drawn_faithful_after settings console commands).1
  have hmade : ∀ call ∈ calls, call.1.WellMade e.registry.prototypes ∧
      Graph.Plugged call.1.graph ∧ ∀ old v, call.1.constant? old = some v → h.Has v := by
    intro call hcall
    obtain ⟨k, hk⟩ := hcalls call hcall
    exact ⟨he.templates k _ hk, (hdrawn k _ hk).plugged, fun old v => hh.templates k _ old v hk⟩
  exact (Prototype.instantiateAll_copies he.tidy hh.whole hmade).isolated hh.whole

def twinKey : Key := ⟨"User", "Twin"⟩

/-- Two constants of one template share an array. -/
def twinCourse : Edit Unit :=
  .act (.addLogic (.constant (.array 0))) fun _ =>
  .act (.addLogic (.constant (.array 0))) fun _ =>
  .finish ()

def twinSession : List Command := [.call (.register twinKey 0 0 twinCourse)]

/-- An array that contains another one and itself. -/
def loop : Heap := ⟨#[[.array 1, .int 5, .array 0], [.int 7]]⟩

theorem backs_loop : loop.Backs ((fresh {} (.script {})).after twinSession) where
  whole := by
    have hitems : ∀ a < 2, ∀ s ∈ loop.items a, s.asArray?.getD 0 < 2 := by decide
    exact fun a ha => ⟨ha, fun b hb => hitems a ha _ hb⟩
  templates := by
    have hconstants : ∀ x ∈ ((fresh {} (.script {})).after twinSession).registry.prototypes.entries,
        ∀ q ∈ x.2.graph.entries, (q.2.body.constant?.bind Signal.asArray?).getD 0 < 2 := by
      decide +kernel
    intro k p id v hp hv a ha
    obtain ⟨n, hn, hv⟩ := Option.bind_eq_some_iff.1 hv
    have hlt := hconstants (k, p) (Table.get?_eq_some_iff.1 hp) (id, n) (Slots.mem_entries.2 hn)
    rw [hv, ha] at hlt
    exact hlt

theorem isolated_instances_twins :
    let e := (fresh {} (.script {})).after twinSession
    ∃ p, e.prototype? twinKey = some p ∧
      [0, 1].map (fun id => (p.constant? id).bind Signal.asArray?) = [some 0, some 0] ∧
      let made := Prototype.instantiateAll e.graph loop [(p, 0), (p, 1)]
      Isolated loop [(p, 0), (p, 1)] made.1 made.2.1 made.2.2 := by
  have hany : (((fresh {} (.script {})).after twinSession).prototype? twinKey).any (fun p =>
      decide ([0, 1].map (fun id => (p.constant? id).bind Signal.asArray?) = [some 0, some 0])) =
        true := by decide +kernel
  obtain ⟨p, hp, hshared⟩ := (Option.any_eq_true _ _).1 hany
  refine ⟨p, hp, of_decide_eq_true hshared, ?_⟩
  refine isolated_instances {} (.script {}) twinSession loop backs_loop [(p, 0), (p, 1)] ?_
  intro call hcall
  have hcall : call.1 = p := by
    rcases List.mem_pair.1 hcall with rfl | rfl <;> rfl
  exact ⟨twinKey, hcall ▸ hp⟩

end Engine

end PulseFlow
