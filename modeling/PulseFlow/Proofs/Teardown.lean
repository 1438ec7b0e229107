import PulseFlow.Proofs.Moves

/-!
# Taking instances apart

Each way to give instances back is a sequence of moves: `dismiss` for instances that have gone
quiet, `scrap` for those that still hold signals, `withdraw` for either, and `sweep` for all quiet
ones.  The moves stay inside any set of nodes that is closed downward: with a reference it contains
the nodes of the instance bound to it.

    ¬ Active e.graph id → Moves S (rest e) (rest (e.dismiss id))            (dismiss_moves)
    Moves S ⟨e, i :: hand, debris, stale⟩ ⟨e.scrap i, hand, debris, stale⟩    (scrap_moves)
    Moves (fun id => ¬ Active e.graph id) (rest e) (rest e.sweep)          (sweep_moves)
-/

namespace PulseFlow

/-- With a reference, `S` contains the nodes of the instance bound to it. -/
def Graph.Closed (g : Graph) (S : NodeId → Prop) : Prop :=
  ∀ k i, S k → Graph.instance? g k = some i → ∀ m ∈ i.nodes, S m

theorem Graph.Closed.anti {g g' : Graph} {S : NodeId → Prop} (h : Graph.Closed g S)
    (hf : Graph.Fades g g') : Graph.Closed g' S :=
  fun k i hk hi => h k i hk (hf.instance? hi)

namespace Engine

variable {S : NodeId → Prop} {e : Engine} {hand : List Instance} {debris stale : List NodeId}
  {i : Instance} {id : NodeId} {depth : Nat}

theorem instance?_unbind_self (e : Engine) (id : NodeId) : (e.unbind id).instance? id = none := by
  show Graph.instance? (e.graph.modify id fun n => n.bind none) id = none
  rw [Graph.instance?_unbind, if_pos rfl]

/-! ## Freeing -/

theorem vacate_moves {nodes : List NodeId} (hunbound : ∀ m ∈ nodes, e.instance? m = none)
    (hstale : ∀ m ∈ nodes, m ∈ stale) (hS : ∀ m ∈ nodes, S m) :
    Moves S ⟨e, hand, nodes ++ debris, stale⟩
      ⟨{ e with graph := nodes.foldl Slots.vacate e.graph }, hand, debris, stale⟩ := by
  induction nodes generalizing e with
  | nil => exact .refl
  | cons m ms ih =>
    have hm := hunbound m List.mem_cons_self
    have hmove : Move S ⟨e, hand, m :: (ms ++ debris), stale⟩
        ⟨{ e with graph := e.graph.vacate m }, hand, ms ++ debris, stale⟩ :=
      .vacate hm (hstale m List.mem_cons_self) (hS m List.mem_cons_self)
    refine .head hmove (ih ?_ (fun k hk => hstale k (List.mem_cons_of_mem m hk))
      fun k hk => hS k (List.mem_cons_of_mem m hk))
    intro k hk
    show Graph.instance? (e.graph.vacate m) k = none
    rw [Graph.instance?_vacate hm]
    exact hunbound k (List.mem_cons_of_mem m hk)

theorem free_moves (hunbound : ∀ m ∈ i.nodes, e.instance? m = none) (hS : ∀ m ∈ i.nodes, S m) :
    Moves S ⟨e, i :: hand, debris, stale⟩ ⟨e.free i, hand, debris, stale⟩ := by
  have hreport : Move S ⟨e, i :: hand, debris, stale⟩
      ⟨e.report (.discarded i.id), i :: hand, debris, stale⟩ := .report _
  have hbreak : Move S ⟨e.report (.discarded i.id), i :: hand, debris, stale⟩
      ⟨e.report (.discarded i.id), hand, i.nodes ++ debris, i.nodes ++ stale⟩ := .breakUp
  have hvacate : Moves S
      ⟨e.report (.discarded i.id), hand, i.nodes ++ debris, i.nodes ++ stale⟩ _ :=
    vacate_moves hunbound (fun m hm => List.mem_append_left _ hm) hS
  refine .tail (((Relation.ReflTransGen.single hreport).tail hbreak).trans hvacate) (.flush ?_)
  exact fun m hm => (Slots.get?_foldl_vacate _ _ _).trans (if_pos hm)

/-! ## Pooling -/

theorem shelve_moves {k : Key} (hnamed : ∀ p, e.prototype? k = some p → p.key = k)
    (hS : ∀ m ∈ i.nodes, S m) (hunbound : ∀ m ∈ i.nodes, e.instance? m = none)
    (hidle : ∀ p, e.prototype? k = some p → i.revision = p.revision → Idle e.graph p i) :
    Moves S ⟨e, i :: hand, debris, stale⟩ ⟨e.shelve k i, hand, debris, stale⟩ := by
  unfold shelve
  cases hp : e.prototype? k with
  | none => exact free_moves hunbound hS
  | some p =>
    by_cases hfit : e.fitsPool p i = true
    · have hrev : i.revision = p.revision := by
        unfold fitsPool at hfit
        rw [Bool.and_eq_true, beq_iff_eq] at hfit
        exact hfit.1
      have hreport : Move S ⟨e, i :: hand, debris, stale⟩
          ⟨e.report (.pooled i.id k), i :: hand, debris, stale⟩ := .report _
      have hkey : (e.report (.pooled i.id k)).prototype? p.key = some p := by
        rw [hnamed p hp]
        exact hp
      show Moves S _ ⟨if e.fitsPool p i = true then _ else _, hand, debris, stale⟩
      rw [if_pos hfit]
      exact (Relation.ReflTransGen.single hreport).tail (.pool hkey hfit (hidle p hp hrev))
    · show Moves S _ ⟨if e.fitsPool p i = true then _ else _, hand, debris, stale⟩
      rw [if_neg hfit]
      exact free_moves hunbound hS

/-! ## Node after node -/

/-- Treating nodes one after another, when each step does what `Moves` allows and leaves its node in
a condition that lasts. -/
theorem foldl_moves {f : Engine → NodeId → Engine} {d : List NodeId → List NodeId}
    {P : NodeId → Prop} {Q : Graph → NodeId → Prop} {w : Work}
    (hlasts : ∀ {g g' m}, Graph.Fades g g' → Q g m → Q g' m)
    (hstep : ∀ m ms e, P m → Moves S w ⟨e, hand, d (m :: ms), stale⟩ →
      Moves S ⟨e, hand, d (m :: ms), stale⟩ ⟨f e m, hand, d ms, stale⟩ ∧ Q (f e m).graph m)
    (ms : List NodeId) (e : Engine) (hms : ∀ m ∈ ms, P m)
    (hmoves : Moves S w ⟨e, hand, d ms, stale⟩) :
    Moves S w ⟨ms.foldl f e, hand, d [], stale⟩ ∧ Graph.Fades e.graph (ms.foldl f e).graph ∧
      ∀ m ∈ ms, Q (ms.foldl f e).graph m := by
  induction ms generalizing e with
  | nil => exact ⟨hmoves, .refl _, by simp⟩
  | cons m ms ih =>
    obtain ⟨hone, hm⟩ := hstep m ms e (hms m List.mem_cons_self) hmoves
    obtain ⟨hrest, hf, hall⟩ := ih (f e m) (fun x hx => hms x (List.mem_cons_of_mem m hx))
      (hmoves.trans hone)
    refine ⟨hrest, hone.fades.trans hf, fun x hx => ?_⟩
    rcases List.mem_cons.1 hx with rfl | hx
    · exact hlasts hf hm
    · exact hall x hx

/-! ## Dismissing -/

theorem dismissWithin_of_unbound (h : e.instance? id = none) :
    dismissWithin depth e id = e := by
  cases depth with
  | zero => rfl
  | succ depth =>
    rw [dismissWithin]
    cases hn : e.graph.get? id with
    | none => rfl
    | some n =>
      dsimp only
      split
      · next k i hb =>
        rw [show e.instance? id = n.instance? from Graph.instance?_of_get? hn,
          Node.instance?_of_reference hb] at h
        cases h
      · rfl

theorem dismissWithin_of_bound {n : Node} {k : Key} (hn : e.graph.get? id = some n)
    (hb : n.body = .reference k (some i)) :
    dismissWithin (depth + 1) e id =
      ({ i.nodes.foldl (dismissWithin depth) (e.unbind id) with
        graph := unroute (i.nodes.foldl (dismissWithin depth) (e.unbind id)).graph
          i.outputs }).shelve k i := by
  rw [dismissWithin]
  simp only [hn, hb]

/-- What lets an instance that was bound to `n` go back to its pool. -/
theorem idle_of_dismissed {e' : Engine} {n : Node} {k : Key} {p' : Prototype}
    (h : Sound ⟨e, hand, debris, stale⟩) (hn : e.graph.get? id = some n)
    (hb : n.body = .reference k (some i)) (hact : ¬ Graph.Active e.graph id)
    (hf : Graph.Fades e.graph e'.graph)
    (hp : ∃ p, e.prototype? k = some p ∧ p'.bare = p.bare) (hrev : i.revision = p'.revision)
    (hunbound : ∀ m ∈ i.nodes, e'.instance? m = none)
    (hdry : ∀ o ∈ i.outputs, ∀ n', e'.graph.get? o = some n' → n'.outputs = [∅]) :
    Idle e'.graph p' i := by
  have hi : n.instance? = some i := Node.instance?_of_reference hb
  obtain ⟨p, hp, hbare⟩ := hp
  have hins : p'.bare.inputs.length = p.bare.inputs.length := by rw [hbare]
  have houts : p'.bare.outputs.length = p.bare.outputs.length := by rw [hbare]
  simp only [Prototype.bare] at hins houts
  have harity := h.registered id n hn k _ hb
  rw [Prototypes.arity?, show e.registry.prototypes.get? k = some p from hp, Option.map_some,
    Option.some.injEq, Prod.mk.injEq] at harity
  constructor
  · exact hrev
  · have hfit := h.fitting id n i hn hi
    omega
  · have hmirror := congrArg List.length (h.wired.mirror id n i hn hi)
    rw [List.length_map, List.length_map] at hmirror
    omega
  · intro m hm n' hn'
    -- a scheduled node would make the reference active
    by_contra hs
    rw [Bool.not_eq_false] at hs
    obtain ⟨n₀, hn₀, hs₀⟩ := hf.scheduled ⟨n', hn', hs⟩
    exact hact (.inside (Graph.instance?_eq_some_iff.2 ⟨n, hn, hi⟩) hm (.scheduled hn₀ hs₀))
  · exact hunbound
  · exact hdry

/-- The induction is on the depth, and inside it on the nodes of the instance, which is in hand
meanwhile. -/
theorem dismissWithin_moves (h : Sound ⟨e, hand, debris, stale⟩) (hid : S id)
    (hS : Graph.Closed e.graph S) (hact : ¬ Graph.Active e.graph id)
    (hshallow : Graph.Shallow e.graph depth id) :
    Moves S ⟨e, hand, debris, stale⟩ ⟨dismissWithin depth e id, hand, debris, stale⟩ ∧
      (dismissWithin depth e id).instance? id = none := by
  induction depth generalizing e id hand with
  | zero => exact ⟨.refl, hshallow⟩
  | succ depth ih =>
    cases hi : e.instance? id with
    | none =>
      rw [dismissWithin_of_unbound hi]
      exact ⟨.refl, hi⟩
    | some i =>
      obtain ⟨n, hn, hni⟩ := Graph.instance?_eq_some_iff.1 hi
      obtain ⟨k, hb⟩ := Node.reference_of_instance? hni
      have htake : Move S ⟨e, hand, debris, stale⟩ ⟨e.unbind id, i :: hand, debris, stale⟩ :=
        .take hi hid
      have hnodes : ∀ m ∈ i.nodes, S m := hS id i hid hi
      have hstep : ∀ m (_ : List NodeId) e₁, m ∈ i.nodes →
          Moves S ⟨e, hand, debris, stale⟩ ⟨e₁, i :: hand, debris, stale⟩ →
          Moves S ⟨e₁, i :: hand, debris, stale⟩
            ⟨dismissWithin depth e₁ m, i :: hand, debris, stale⟩ ∧
          Graph.instance? (dismissWithin depth e₁ m).graph m = none := by
        intro m _ e₁ hm hmoves
        have hf := hmoves.fades
        exact ih (hmoves.sound h) (hnodes m hm) (hS.anti hf)
          (fun ha => hact (.inside hi hm (hf.active ha)))
          ((hshallow i hi m hm).anti fun _ _ => hf.instance?)
      obtain ⟨hmoves, hf₂, hunbound⟩ := foldl_moves (d := fun _ => debris)
        (Q := fun g m => Graph.instance? g m = none) (fun hf hm => hf.instance?_eq_none hm) hstep
        i.nodes (e.unbind id) (fun m hm => hm) (.single htake)
      rw [dismissWithin_of_bound hn hb]
      generalize i.nodes.foldl (dismissWithin depth) (e.unbind id) = e₂ at hmoves hf₂ hunbound
      have hsound₂ := hmoves.sound h
      have hmem : i ∈ Work.instances ⟨e₂, i :: hand, debris, stale⟩ :=
        Sound.mem_of_hand List.mem_cons_self
      have hroute : Move S ⟨e₂, i :: hand, debris, stale⟩
          ⟨{ e₂ with graph := unroute e₂.graph i.outputs }, i :: hand, debris, stale⟩ :=
        .unroute List.mem_cons_self fun o ho => hnodes o (hsound₂.owning.outputs_subset hmem ho)
      have hmoves₃ : Moves S ⟨e, hand, debris, stale⟩
          ⟨{ e₂ with graph := unroute e₂.graph i.outputs }, i :: hand, debris, stale⟩ :=
        hmoves.tail hroute
      have hunbound₃ : ∀ m ∈ i.nodes,
          { e₂ with graph := unroute e₂.graph i.outputs }.instance? m = none := fun m hm =>
        hroute.fades.instance?_eq_none (hunbound m hm)
      have hshelve : Moves S
          ⟨{ e₂ with graph := unroute e₂.graph i.outputs }, i :: hand, debris, stale⟩
          ⟨{ e₂ with graph := unroute e₂.graph i.outputs }.shelve k i, hand, debris, stale⟩ := by
        refine shelve_moves (fun p hp => (hmoves₃.sound h).named k p hp) hnodes hunbound₃
          fun p hp hrev => ?_
        refine idle_of_dismissed h hn hb hact hmoves₃.fades (hmoves₃.prototype hp) hrev hunbound₃ ?_
        intro o ho n' hn'
        exact Graph.outputs_unroute ho (hsound₂.wired.placeholder i hmem o ho) hn'
      exact ⟨hmoves₃.trans hshelve,
        (hf₂.trans (hroute.fades.trans hshelve.fades)).instance?_eq_none
          (instance?_unbind_self e id)⟩

theorem dismiss_moves (h : Sound ⟨e, hand, debris, stale⟩) (hid : S id)
    (hS : Graph.Closed e.graph S) (hact : ¬ Graph.Active e.graph id) :
    Moves S ⟨e, hand, debris, stale⟩ ⟨e.dismiss id, hand, debris, stale⟩ ∧
      (e.dismiss id).instance? id = none :=
  dismissWithin_moves h hid hS hact (shallow_depthBound h.layered id)

/-! ## Scrapping -/

/-- A node that is bound to nothing is withdrawn as it is. -/
theorem withdrawBy_of_unbound (scrap : Engine → Instance → Engine) (h : e.instance? id = none) :
    withdrawBy scrap e id = e := by
  have hdismiss : e.dismiss id = e := dismissWithin_of_unbound h
  rw [withdrawBy, h, hdismiss, ite_self]

/-- Withdrawing a node, given what scrapping the instance bound to it does. -/
theorem withdrawBy_moves {scrap : Engine → Instance → Engine}
    (h : Sound ⟨e, hand, debris, stale⟩) (hid : S id) (hS : Graph.Closed e.graph S)
    (hscrap : ∀ i, e.instance? id = some i →
      Moves S ⟨e.unbind id, i :: hand, debris, stale⟩
        ⟨scrap (e.unbind id) i, hand, debris, stale⟩) :
    Moves S ⟨e, hand, debris, stale⟩ ⟨withdrawBy scrap e id, hand, debris, stale⟩ ∧
      (withdrawBy scrap e id).instance? id = none := by
  unfold withdrawBy
  by_cases hact : e.isActive id = true
  · rw [if_pos hact]
    cases hi : e.instance? id with
    | none => exact ⟨.refl, hi⟩
    | some i =>
      have htake : Move S ⟨e, hand, debris, stale⟩ ⟨e.unbind id, i :: hand, debris, stale⟩ :=
        .take hi hid
      exact ⟨.head htake (hscrap i hi),
        (hscrap i hi).fades.instance?_eq_none (instance?_unbind_self e id)⟩
  · rw [if_neg hact]
    exact dismiss_moves h hid hS fun ha => hact ((isActive_iff h.layered id).2 ha)

/-- Clears away one node of an instance that is scrapped. -/
def clear (depth : Nat) (e : Engine) (id : NodeId) : Engine :=
  { withdrawBy (scrapWithin depth) e id with
    graph := (withdrawBy (scrapWithin depth) e id).graph.vacate id }

/-- Clearing away a node, given what scrapping the instance bound to it does. -/
theorem clear_moves (h : Sound ⟨e, hand, id :: debris, stale⟩) (hstale : id ∈ stale) (hid : S id)
    (hS : Graph.Closed e.graph S)
    (hscrap : ∀ i, e.instance? id = some i →
      Moves S ⟨e.unbind id, i :: hand, id :: debris, stale⟩
        ⟨scrapWithin depth (e.unbind id) i, hand, id :: debris, stale⟩) :
    Moves S ⟨e, hand, id :: debris, stale⟩ ⟨clear depth e id, hand, debris, stale⟩ ∧
      (clear depth e id).graph.get? id = none := by
  obtain ⟨hmoves, hun⟩ := withdrawBy_moves h hid hS hscrap
  refine ⟨hmoves.tail (.vacate hun hstale hid), ?_⟩
  show Slots.get? (Slots.vacate _ id) id = none
  rw [Slots.get?_vacate, if_pos rfl]

theorem scrapWithin_succ (depth : Nat) (e : Engine) (i : Instance) :
    scrapWithin (depth + 1) e i =
      { i.nodes.foldl (clear depth) (e.report (.discarded i.id)) with
        pending := (i.nodes.foldl (clear depth) (e.report (.discarded i.id))).pending.filter
          fun id => !i.nodes.contains id } := rfl

/-- The induction is on the depth, and inside it on the nodes of the instance, which are debris
meanwhile. -/
theorem scrapWithin_moves (h : Sound ⟨e, i :: hand, debris, stale⟩) (hnodes : ∀ m ∈ i.nodes, S m)
    (hS : Graph.Closed e.graph S) (hshallow : ∀ m ∈ i.nodes, Graph.Shallow e.graph depth m) :
    Moves S ⟨e, i :: hand, debris, stale⟩ ⟨scrapWithin depth e i, hand, debris, stale⟩ := by
  induction depth generalizing e i hand debris stale with
  | zero => exact free_moves hshallow hnodes
  | succ depth ih =>
    have hreport : Move S ⟨e, i :: hand, debris, stale⟩
        ⟨e.report (.discarded i.id), i :: hand, debris, stale⟩ := .report _
    have hbreak : Move S ⟨e.report (.discarded i.id), i :: hand, debris, stale⟩
        ⟨e.report (.discarded i.id), hand, i.nodes ++ debris, i.nodes ++ stale⟩ := .breakUp
    have hstep : ∀ m (ms : List NodeId) e₁, m ∈ i.nodes →
        Moves S ⟨e, i :: hand, debris, stale⟩
          ⟨e₁, hand, (m :: ms) ++ debris, i.nodes ++ stale⟩ →
        Moves S ⟨e₁, hand, (m :: ms) ++ debris, i.nodes ++ stale⟩
          ⟨clear depth e₁ m, hand, ms ++ debris, i.nodes ++ stale⟩ ∧
        (clear depth e₁ m).graph.get? m = none := by
      intro m ms e₁ hm hmoves
      have hf := hmoves.fades
      have hsound := hmoves.sound h
      refine clear_moves hsound (List.mem_append_left _ hm) (hnodes m hm) (hS.anti hf)
        fun j hj => ?_
      have hfu : Graph.Fades e.graph (e₁.unbind m).graph := hf.trans (.unbind e₁.graph m)
      have hjS : ∀ x ∈ j.nodes, S x := hS m j (hnodes m hm) (hf.instance? hj)
      exact ih (hsound.take hj) hjS (hS.anti hfu) fun x hx =>
        (hshallow m hm j (hf.instance? hj) x hx).anti fun _ _ => hfu.instance?
    obtain ⟨hmoves, -, hgone⟩ := foldl_moves (d := fun ms => ms ++ debris)
      (Q := fun g m => g.get? m = none) (fun hf hm => hf.get?_eq_none hm) hstep
      i.nodes _ (fun m hm => hm) ((Relation.ReflTransGen.single hreport).tail hbreak)
    rw [scrapWithin_succ]
    exact hmoves.tail (.flush hgone)

theorem scrap_moves (h : Sound ⟨e, i :: hand, debris, stale⟩) (hnodes : ∀ m ∈ i.nodes, S m)
    (hS : Graph.Closed e.graph S) :
    Moves S ⟨e, i :: hand, debris, stale⟩ ⟨e.scrap i, hand, debris, stale⟩ :=
  scrapWithin_moves h hnodes hS fun m _ => shallow_depthBound h.layered m

/-- Scrapping instances that are all in hand. -/
theorem foldl_scrap_moves {is : List Instance} (h : Sound ⟨e, is ++ hand, debris, stale⟩)
    (hnodes : ∀ i ∈ is, ∀ m ∈ i.nodes, S m) (hS : Graph.Closed e.graph S) :
    Moves S ⟨e, is ++ hand, debris, stale⟩ ⟨is.foldl scrap e, hand, debris, stale⟩ := by
  induction is generalizing e with
  | nil => exact .refl
  | cons i is ih =>
    have hm := scrap_moves h (hnodes i List.mem_cons_self) hS
    exact hm.trans (ih (hm.sound h) (fun j hj => hnodes j (List.mem_cons_of_mem i hj))
      (hS.anti hm.fades))

theorem withdraw_moves (h : Sound ⟨e, hand, debris, stale⟩) (hid : S id)
    (hS : Graph.Closed e.graph S) :
    Moves S ⟨e, hand, debris, stale⟩ ⟨e.withdraw id, hand, debris, stale⟩ ∧
      (e.withdraw id).instance? id = none := by
  refine withdrawBy_moves h hid hS fun i hi => ?_
  have htake : Move S ⟨e, hand, debris, stale⟩ ⟨e.unbind id, i :: hand, debris, stale⟩ :=
    .take hi hid
  exact scrap_moves (htake.sound h) (hS id i hid hi) (hS.anti htake.fades)

/-! ## Sweeping -/

/-- What is not active stays so further down. -/
theorem closed_not_active (g : Graph) : Graph.Closed g fun id => ¬ Graph.Active g id :=
  fun _ _ hk hi _ hm ha => hk (.inside hi hm ha)

/-- Sweeping touches the quiet references and what lies below them. -/
theorem sweep_moves_within (h : Sound (.rest e)) (hS : Graph.Closed e.graph S)
    (hquiet : ∀ id ∈ e.watch, ¬ Graph.Active e.graph id → S id) :
    Moves S (.rest e) (.rest e.sweep) ∧
      ∀ id, ¬ Graph.Active e.graph id → e.sweep.instance? id = none := by
  have hstep : ∀ id (_ : List NodeId) e₁, S id ∧ ¬ Graph.Active e.graph id →
      Moves S (.rest e) (.rest e₁) →
      Moves S (.rest e₁) (.rest (dismiss e₁ id)) ∧
      Graph.instance? (dismiss e₁ id).graph id = none := by
    intro id _ e₁ hid hmoves
    have hf := hmoves.fades
    exact dismiss_moves (hmoves.sound h) hid.1 (hS.anti hf) fun ha => hid.2 (hf.active ha)
  have hmem : ∀ id, id ∈ (e.watch.filter fun id => !e.isActive id) ↔
      id ∈ e.watch ∧ ¬ Graph.Active e.graph id := by
    intro id
    have hact : e.isActive id = true ↔ Graph.Active e.graph id := isActive_iff h.layered id
    rw [List.mem_filter, ← hact]
    simp
  obtain ⟨hmoves, hf, hun⟩ := foldl_moves (d := fun _ => [])
    (Q := fun g m => Graph.instance? g m = none) (fun hf hm => hf.instance?_eq_none hm) hstep
    (e.watch.filter fun id => !e.isActive id) e
    (fun id hid => ⟨hquiet id ((hmem id).1 hid).1 ((hmem id).1 hid).2, ((hmem id).1 hid).2⟩) .refl
  refine ⟨hmoves, fun id hid => ?_⟩
  cases hi : e.instance? id with
  | none => exact hf.instance?_eq_none hi
  | some i =>
    have hw : id ∈ e.watch := (h.watching.mem_iff id).2 ⟨i, hi⟩
    exact hun id ((hmem id).2 ⟨hw, hid⟩)

theorem sweep_moves (h : Sound (.rest e)) :
    Moves (fun id => ¬ Graph.Active e.graph id) (.rest e) (.rest e.sweep) ∧
      ∀ id, ¬ Graph.Active e.graph id → e.sweep.instance? id = none :=
  sweep_moves_within h (closed_not_active e.graph) fun _ _ hid => hid

end Engine

end PulseFlow
