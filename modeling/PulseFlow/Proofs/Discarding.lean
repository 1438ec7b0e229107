import PulseFlow.Proofs.Waves

/-!
# Discarding among busy references

Between two calls every bound reference is active.  So what is scrapped then is scrapped to the
bottom: no instance below it is quiet, none goes to a pool, and the references that stay bound stay
active.

    Busy e.graph → Busy (e.scrap i).graph ∧ (e.scrap i).registry = e.registry      (scrap_busy)
-/

namespace PulseFlow

namespace Graph

variable {g g' : Graph} {id : NodeId}

/-- Touching one node keeps references busy if it ends unbound and lies in no bound instance. -/
theorem Busy.of_keep_but (h : Busy g) (hk : ∀ k, k ≠ id → g'.get? k = g.get? k)
    (hfree : ∀ k i, instance? g k = some i → id ∉ i.nodes) (hun : instance? g' id = none) :
    Busy g' := by
  refine h.of_keep (S := fun k => k = id) hk ?_ ?_
  · rintro k i m hi hm rfl
    exact absurd hm (hfree k i hi)
  · rintro k rfl
    exact hun

theorem Busy.unbind (h : Busy g) (hfree : ∀ k i, instance? g k = some i → id ∉ i.nodes) :
    Busy (g.modify id fun n => n.bind none) := by
  refine h.of_keep_but (fun k hk => ?_) hfree ?_
  · rw [Slots.get?_modify, if_neg (Ne.symm hk)]
  · rw [instance?_unbind, if_pos rfl]

theorem Busy.vacate (h : Busy g) (hfree : ∀ k i, instance? g k = some i → id ∉ i.nodes) :
    Busy (g.vacate id) := by
  refine h.of_keep_but (fun k hk => get?_vacate_of_ne hk) hfree ?_
  rw [instance?, Slots.get?_vacate, if_pos rfl]
  rfl

end Graph

namespace Engine

variable {e : Engine} {hand : List Instance} {debris stale : List NodeId} {i : Instance}
  {id : NodeId} {depth : Nat}

/-- Withdrawing a node, given what scrapping the instance bound to it does.  Nothing is dismissed:
a node that is bound is active. -/
theorem withdrawBy_busy {scrap : Engine → Instance → Engine}
    (h : Sound ⟨e, hand, debris, stale⟩) (hb : Graph.Busy e.graph)
    (hfree : ∀ k i, e.instance? k = some i → id ∉ i.nodes)
    (hscrap : ∀ i, e.instance? id = some i → Graph.Busy (e.unbind id).graph →
      Graph.Busy (scrap (e.unbind id) i).graph ∧
        (scrap (e.unbind id) i).registry = (e.unbind id).registry) :
    Graph.Busy (withdrawBy scrap e id).graph ∧ (withdrawBy scrap e id).registry = e.registry := by
  cases hi : e.instance? id with
  | none =>
    rw [withdrawBy_of_unbound scrap hi]
    exact ⟨hb, rfl⟩
  | some i =>
    have hact : e.isActive id = true := (isActive_iff h.layered id).2 (hb id i hi)
    rw [withdrawBy, if_pos hact, hi]
    exact hscrap i hi (hb.unbind hfree)

/-- The nodes of an instance in hand lie in no bound instance. -/
theorem not_mem_of_hand (h : Sound ⟨e, i :: hand, debris, stale⟩) {k m : NodeId} {j : Instance}
    (hj : e.instance? k = some j) (hm : m ∈ i.nodes) : m ∉ j.nodes := by
  intro hmj
  have hi := Sound.mem_of_hand (w := ⟨e, i :: hand, debris, stale⟩) (i := i) List.mem_cons_self
  have hij := h.owning.eq_of_mem hi (Sound.mem_of_bound hj) hm hmj
  exact h.not_bound_of_hand List.mem_cons_self (hij ▸ hj)

/-- The induction is the one of `scrapWithin_moves`, which says that each engine on the way is
sound. -/
theorem scrapWithin_busy (h : Sound ⟨e, i :: hand, debris, stale⟩) (hb : Graph.Busy e.graph)
    (hshallow : ∀ m ∈ i.nodes, Graph.Shallow e.graph depth m) :
    Graph.Busy (scrapWithin depth e i).graph ∧ (scrapWithin depth e i).registry = e.registry := by
  induction depth generalizing e i hand debris stale with
  | zero =>
    have hmoves : Moves (fun m => m ∈ i.nodes) ⟨e, i :: hand, debris, stale⟩
        ⟨e.free i, hand, debris, stale⟩ := free_moves hshallow fun m hm => hm
    refine ⟨hb.of_keep (S := fun m => m ∈ i.nodes) (fun k hk => hmoves.keep hk) ?_ ?_, rfl⟩
    · exact fun k j m hj hm hmi => absurd hm (not_mem_of_hand h hj hmi)
    · exact fun k hk => hmoves.fades.instance?_eq_none (hshallow k hk)
  | succ depth ih =>
    have hreport : Sound ⟨e.report (.discarded i.id), i :: hand, debris, stale⟩ :=
      h.of_eq rfl rfl rfl rfl rfl rfl
    have hfold : ∀ (ms : List NodeId) (e₁ : Engine), (∀ m ∈ ms, m ∈ i.nodes) →
        Sound ⟨e₁, hand, ms ++ debris, i.nodes ++ stale⟩ → Graph.Fades e.graph e₁.graph →
        Graph.Busy e₁.graph → Graph.Busy (ms.foldl (clear depth) e₁).graph ∧
          (ms.foldl (clear depth) e₁).registry = e₁.registry := by
      intro ms
      induction ms with
      | nil => exact fun e₁ _ _ _ hb₁ => ⟨hb₁, rfl⟩
      | cons m ms ihms =>
        intro e₁ hsub hsound hf hb₁
        have hm : m ∈ i.nodes := hsub m List.mem_cons_self
        -- m is debris, so no bound instance has it
        have hfree : ∀ k j, e₁.instance? k = some j → m ∉ j.nodes := fun k j hj hmj =>
          hsound.owning.not_mem_debris (Sound.mem_of_bound hj) hmj List.mem_cons_self
        have hbelow : ∀ j, e₁.instance? m = some j →
            ∀ x ∈ j.nodes, Graph.Shallow (e₁.unbind m).graph depth x := by
          intro j hj x hx
          have hfu : Graph.Fades e.graph (e₁.unbind m).graph := hf.trans (.unbind e₁.graph m)
          exact (hshallow m hm j (hf.instance? hj) x hx).anti fun _ _ => hfu.instance?
        obtain ⟨hbw, hreg⟩ := withdrawBy_busy hsound hb₁ hfree fun j hj hbu =>
          ih (hsound.take hj) hbu (hbelow j hj)
        obtain ⟨hwithdraw, hun⟩ := withdrawBy_moves (S := fun _ => True) hsound trivial
          (fun _ _ _ _ _ _ => trivial) fun j hj => scrapWithin_moves (hsound.take hj)
            (fun _ _ => trivial) (fun _ _ _ _ _ _ => trivial) (hbelow j hj)
        have hclear : Moves (fun _ => True) _ ⟨clear depth e₁ m, hand, ms ++ debris, _⟩ :=
          hwithdraw.tail (.vacate hun (List.mem_append_left _ hm) trivial)
        have hbc : Graph.Busy (clear depth e₁ m).graph :=
          hbw.vacate fun k j hj => hfree k j (hwithdraw.fades.instance? hj)
        obtain ⟨hbusy, hregs⟩ := ihms _ (fun x hx => hsub x (List.mem_cons_of_mem m hx))
          (hclear.sound hsound) (hf.trans hclear.fades) hbc
        exact ⟨hbusy, hregs.trans hreg⟩
    exact hfold i.nodes _ (fun m hm => hm) hreport.breakUp (.refl _) hb

theorem scrap_busy (h : Sound ⟨e, i :: hand, debris, stale⟩) (hb : Graph.Busy e.graph) :
    Graph.Busy (e.scrap i).graph ∧ (e.scrap i).registry = e.registry :=
  scrapWithin_busy h hb fun m _ => shallow_depthBound h.layered m

/-- Scrapping instances that are all in hand. -/
theorem foldl_scrap_busy {is : List Instance} (h : Sound ⟨e, is ++ hand, debris, stale⟩)
    (hb : Graph.Busy e.graph) :
    Graph.Busy (is.foldl scrap e).graph ∧ (is.foldl scrap e).registry = e.registry := by
  induction is generalizing e with
  | nil => exact ⟨hb, rfl⟩
  | cons i is ih =>
    have hm : Moves (fun _ => True) _ ⟨e.scrap i, is ++ hand, debris, stale⟩ :=
      scrap_moves h (fun _ _ => trivial) fun _ _ _ _ _ _ => trivial
    obtain ⟨hb₁, hreg₁⟩ := scrap_busy h hb
    obtain ⟨hb₂, hreg₂⟩ := ih (hm.sound h) hb₁
    exact ⟨hb₂, hreg₂.trans hreg₁⟩

theorem withdraw_busy (h : Sound (.rest e)) (hb : Graph.Busy e.graph)
    (hv : Graph.Visible e.graph id) :
    Graph.Busy (e.withdraw id).graph ∧ (e.withdraw id).registry = e.registry := by
  have hfree : ∀ k i, e.instance? k = some i → id ∉ i.nodes := fun k i hi hm =>
    Graph.not_visible_of_internal (h.owning.internal_of_mem (Sound.mem_of_bound hi) hm) hv
  exact withdrawBy_busy h hb hfree fun i hi hbu => scrap_busy (h.take hi) hbu

end Engine

end PulseFlow
