import PulseFlow.Proofs.Descent
import PulseFlow.Proofs.Ownership
import PulseFlow.Proofs.Progress

/-!
# Descents end

What is computed with a bound on the depth is what the rules without a bound come to.  The bound is
never reached, since no reference lies in its own instance, however deep.

    Layered e.graph → ∃ v, Does e (.dismiss id) v (e.dismiss id)                   (does_dismiss)
    Layered e.graph → ∃ v, Does e (.scrap i) v (e.scrap i)                           (does_scrap)
    Layered e.graph → ∃ v, Does e (.withdraw id) v (e.withdraw id)                 (does_withdraw)

So every descent ends, from whichever node or instance it starts, in all engines that commands lead
to (`Descends`).
-/

namespace PulseFlow.Engine

variable {e e' : Engine} {id : NodeId}

/-! ## The bound is deep enough -/

section

variable {i : Instance} {ms : List NodeId} {depth : Nat}

theorem does_withdraw_of_unbound (h : e.instance? id = none) : Does e (.withdraw id) [] e := by
  by_cases hs : Graph.Scheduled e.graph id
  · exact .activeUnbound (.scheduled hs) h
  · exact .quiet (.unbound hs h .none) (.unbound h)

/-- Where nothing is bound, clearing nodes away is freeing them. -/
theorem does_clearEach_of_unbound (h : ∀ m ∈ ms, e.instance? m = none) :
    Does e (.clearEach ms) (ms.map .cleared) { e with graph := ms.foldl Slots.vacate e.graph } := by
  induction ms generalizing e with
  | nil => exact .clearedAll
  | cons m ms ih =>
    refine .clearNext (does_withdraw_of_unbound (h m List.mem_cons_self)) (ih fun k hk => ?_)
    exact (Graph.Fades.vacate e.graph m).instance?_eq_none (h k (List.mem_cons_of_mem m hk))

theorem does_free (h : ∀ m ∈ i.nodes, e.instance? m = none) :
    Does e (.scrap i) (i.nodes.map .cleared) (e.free i) :=
  .scrapped (does_clearEach_of_unbound h)

/-- An instance goes to its pool, or nothing lets it in there. -/
theorem fitsPool_or (e : Engine) (k : Key) (i : Instance) :
    (∃ p, e.prototype? k = some p ∧ e.fitsPool p i = true) ∨
      ∀ p, e.prototype? k = some p → e.fitsPool p i = false := by
  cases hp : e.prototype? k with
  | none => exact .inr fun p hp' => by cases hp'
  | some p =>
    cases hfit : e.fitsPool p i with
    | true => exact .inl ⟨p, rfl, hfit⟩
    | false =>
      refine .inr fun p' hp' => ?_
      cases hp'
      exact hfit

/-- Shelving an instance ends if scrapping it does. -/
theorem exists_does_shelve {v : List Visit} (h : Does e (.scrap i) v e') (k : Key) :
    ∃ v e', Does e (.shelve k i) v e' := by
  rcases e.fitsPool_or k i with ⟨p, hp, hfit⟩ | hnot
  · exact ⟨_, _, .pooled hp hfit⟩
  · exact ⟨v, e', .dropped hnot h⟩

/-- An instance in which nothing is bound is pooled or freed at once. -/
theorem does_shelve (h : ∀ m ∈ i.nodes, e.instance? m = none) (k : Key) :
    ∃ v, Does e (.shelve k i) v (e.shelve k i) := by
  rcases e.fitsPool_or k i with ⟨p, hp, hfit⟩ | hnot
  · have hshelve : e.shelve k i =
        (e.report (.pooled i.id k)).putPrototype { p with pool := i :: p.pool } := by
      simp only [shelve, hp, hfit, if_true]
    rw [hshelve]
    exact ⟨_, .pooled hp hfit⟩
  · have hshelve : e.shelve k i = e.free i := by
      cases hp : e.prototype? k with
      | none => simp only [shelve, hp]
      | some p => simp only [shelve, hp, hnot p hp, Bool.false_eq_true, if_false]
    rw [hshelve]
    exact ⟨_, .dropped hnot (does_free h)⟩

/-- What is done to one after another is done to all, if it is done to each whatever the others left
behind. -/
theorem foldl_fading {β : Type} {P : List β → Engine → Engine → Prop} {f : Engine → β → Engine}
    {l : List β} (hnil : ∀ e, P [] e e)
    (hcons : ∀ b ∈ l, ∀ e' : Engine, Graph.Fades e.graph e'.graph →
      Graph.Fades e'.graph (f e' b).graph ∧ ∀ l e'', P l (f e' b) e'' → P (b :: l) e' e'') :
    P l e (l.foldl f e) := by
  induction l generalizing e with
  | nil => exact hnil e
  | cons b l ih =>
    obtain ⟨hfades, hnext⟩ := hcons b List.mem_cons_self e (.refl _)
    exact hnext l _ (ih fun c hc e' hf =>
      hcons c (List.mem_cons_of_mem b hc) e' (hfades.trans hf))

theorem does_dismissEach {f : Engine → NodeId → Engine}
    (h : ∀ m ∈ ms, ∀ e', Graph.Fades e.graph e'.graph → ∃ v, Does e' (.dismiss m) v (f e' m)) :
    ∃ v, Does e (.dismissEach ms) v (ms.foldl f e) := by
  refine foldl_fading (P := fun ms e e' => ∃ v, Does e (.dismissEach ms) v e')
    (fun e => ⟨[], .dismissedAll⟩) fun m hm e' hf => ?_
  obtain ⟨v, hone⟩ := h m hm e' hf
  refine ⟨hone.fades, ?_⟩
  rintro ms e'' ⟨v', hrest⟩
  exact ⟨_, .dismissNext hone hrest⟩

/-- The induction is on the depth; by the time an instance is shelved, nothing in it is bound. -/
theorem does_dismissWithin (h : Graph.Shallow e.graph depth id) :
    ∃ v, Does e (.dismiss id) v (dismissWithin depth e id) := by
  induction depth generalizing e id with
  | zero => exact ⟨[], .unbound h⟩
  | succ depth ih =>
    cases hi : e.instance? id with
    | none =>
      rw [dismissWithin_of_unbound hi]
      exact ⟨[], .unbound hi⟩
    | some i =>
      obtain ⟨n, hn, hni⟩ := Graph.instance?_eq_some_iff.1 hi
      obtain ⟨k, hb⟩ := Node.reference_of_instance? hni
      have hloop : ∃ v, Does (e.unbind id) (.dismissEach i.nodes) v
          (i.nodes.foldl (dismissWithin depth) (e.unbind id)) := by
        refine does_dismissEach fun m hm e' hf => ih ((h i hi m hm).anti fun _ _ hj => ?_)
        exact ((Graph.Fades.unbind e.graph id).trans hf).instance? hj
      obtain ⟨v, hloop⟩ := hloop
      rw [dismissWithin_of_bound hn hb]
      generalize i.nodes.foldl (dismissWithin depth) (e.unbind id) = e₁ at hloop
      have hunbound : ∀ m ∈ i.nodes,
          { e₁ with graph := unroute e₁.graph i.outputs }.instance? m = none := fun m hm =>
        (Graph.fades_unroute e₁.graph i.outputs).instance?_eq_none
          (hloop.instance?_dismissedEach m hm)
      obtain ⟨v', hshelve⟩ := does_shelve hunbound k
      exact ⟨v ++ v', .bound hn hb hloop hshelve⟩

theorem does_dismiss (h : Graph.Layered e.graph) (id : NodeId) :
    ∃ v, Does e (.dismiss id) v (e.dismiss id) :=
  does_dismissWithin (shallow_depthBound h id)

/-- Withdrawing ends if scrapping the instance bound to the node does. -/
theorem does_withdrawBy {scrap : Engine → Instance → Engine} (h : Graph.Layered e.graph)
    (hscrap : ∀ i, e.instance? id = some i →
      ∃ v, Does (e.unbind id) (.scrap i) v (scrap (e.unbind id) i)) :
    ∃ v, Does e (.withdraw id) v (withdrawBy scrap e id) := by
  have hlook := looks_isActive h id
  unfold withdrawBy
  cases hact : e.isActive id with
  | true =>
    rw [hact] at hlook
    cases hi : e.instance? id with
    | none => exact ⟨[], .activeUnbound hlook hi⟩
    | some i =>
      obtain ⟨v, hdoes⟩ := hscrap i hi
      exact ⟨v, .activeBound hlook hi hdoes⟩
  | false =>
    rw [hact] at hlook
    obtain ⟨v, hdoes⟩ := does_dismiss h id
    exact ⟨v, .quiet hlook hdoes⟩

theorem does_clearEach (h : ∀ m ∈ ms, ∀ e', Graph.Fades e.graph e'.graph →
      ∃ v, Does e' (.withdraw m) v (withdrawBy (scrapWithin depth) e' m)) :
    ∃ v, Does e (.clearEach ms) v (ms.foldl (clear depth) e) := by
  refine foldl_fading (P := fun ms e e' => ∃ v, Does e (.clearEach ms) v e')
    (fun e => ⟨[], .clearedAll⟩) fun m hm e' hf => ?_
  obtain ⟨v, hone⟩ := h m hm e' hf
  refine ⟨hone.fades.trans (.vacate _ m), ?_⟩
  rintro ms e'' ⟨v', hrest⟩
  exact ⟨_, .clearNext hone hrest⟩

/-- The induction is on the depth; at its end nothing is bound, and clearing away is freeing. -/
theorem does_scrapWithin (h : Graph.Layered e.graph)
    (hs : ∀ m ∈ i.nodes, Graph.Shallow e.graph depth m) :
    ∃ v, Does e (.scrap i) v (scrapWithin depth e i) := by
  induction depth generalizing e i with
  | zero => exact ⟨_, does_free hs⟩
  | succ depth ih =>
    have hloop : ∃ v, Does (e.report (.discarded i.id)) (.clearEach i.nodes) v
        (i.nodes.foldl (clear depth) (e.report (.discarded i.id))) := by
      refine does_clearEach fun m hm e' hf => ?_
      refine does_withdrawBy (h.fade hf) fun j hj => ?_
      have hfu : Graph.Fades e.graph (e'.unbind m).graph := hf.trans (.unbind e'.graph m)
      exact ih (h.fade hfu) fun x hx =>
        (hs m hm j (hf.instance? hj) x hx).anti fun _ _ => hfu.instance?
    obtain ⟨v, hloop⟩ := hloop
    rw [scrapWithin_succ]
    exact ⟨v, .scrapped hloop⟩

theorem does_scrap (h : Graph.Layered e.graph) (i : Instance) :
    ∃ v, Does e (.scrap i) v (e.scrap i) :=
  does_scrapWithin h fun m _ => shallow_depthBound h m

theorem does_withdraw (h : Graph.Layered e.graph) (id : NodeId) :
    ∃ v, Does e (.withdraw id) v (e.withdraw id) :=
  does_withdrawBy h fun i _ => does_scrap (h.fade (.unbind e.graph id)) i

end

/-! ## Engines in which descents end -/

/-- A task comes to an end at `e'`.  It has no other outcome, and treats no node twice in the same
way. -/
def Ends (e : Engine) (t : Task) (e' : Engine) : Prop :=
  ∃ v, Does e t v e' ∧ v.Nodup ∧ ∀ w e'', Does e t w e'' → w = v ∧ e'' = e'

/-- Tasks one after the other, each of which comes to an end. -/
inductive EndsEach : Engine → List Task → Engine → Prop
  | nil {e : Engine} : EndsEach e [] e
  | cons {e e₁ e₂ : Engine} {t : Task} {ts : List Task} :
      Ends e t e₁ → EndsEach e₁ ts e₂ → EndsEach e (t :: ts) e₂

/-- The engine once the instance at a place is taken from there. -/
def without (e : Engine) : Place → Engine
  | .reference id => e.unbind id
  | .pool key position =>
    match e.prototype? key with
    | some p => e.putPrototype { p with pool := p.pool.eraseIdx position }
    | none => e

/-- Every descent ends, from whichever node it starts, and from whichever instance that is taken
from its place.  Where the engine computes the same with a bound, the results agree. -/
structure Descends (e : Engine) : Prop where
  /-- No reference lies in its own instance, however deep. -/
  acyclic : ∀ id, ¬ Relation.TransGen (Graph.Holds e.graph) id id
  /-- A node lies in the instance of one reference at most. -/
  single : ∀ r s m, Graph.Holds e.graph r m → Graph.Holds e.graph s m → r = s
  /-- Looking for activity ends, with one answer. -/
  active : ∀ id b, Graph.Looks e.graph [id] b ↔ b = e.isActive id
  dismiss : ∀ id, e.Ends (.dismiss id) (e.dismiss id)
  withdraw : ∀ id, e.Ends (.withdraw id) (e.withdraw id)
  scrap : ∀ place i, e.at? place = some i →
    (e.without place).Ends (.scrap i) ((e.without place).scrap i)
  shelve : ∀ place i key, e.at? place = some i → ∃ e', (e.without place).Ends (.shelve key i) e'
  /-- What has gone quiet is given back, reference after reference. -/
  sweep : e.EndsEach ((e.watch.filter fun id => !e.isActive id).map .dismiss) e.sweep
  /-- A pool is emptied, instance after instance. -/
  clear : ∀ key p, e.prototype? key = some p →
    (e.putPrototype { p with pool := [] }).EndsEach (p.pool.reverse.map .scrap)
      (p.pool.reverse.foldl Engine.scrap (e.putPrototype { p with pool := [] }))

theorem Ends.fades {t : Task} (h : e.Ends t e') : Graph.Fades e.graph e'.graph := by
  obtain ⟨v, hdoes, -⟩ := h
  exact hdoes.fades

theorem Does.ends {t : Task} {v : List Visit} (h : Does e t v e') (hf : Graph.Forest e.graph)
    (ht : Graph.InHand e.graph t.nodes) : e.Ends t e' :=
  ⟨v, h, h.nodup hf ht, fun _ _ => h.unique⟩

theorem ends_dismiss (h : Graph.Layered e.graph) (hf : Graph.Forest e.graph) (id : NodeId) :
    e.Ends (.dismiss id) (e.dismiss id) := by
  obtain ⟨v, hdoes⟩ := does_dismiss h id
  exact hdoes.ends hf (.nil _)

theorem ends_withdraw (h : Graph.Layered e.graph) (hf : Graph.Forest e.graph) (id : NodeId) :
    e.Ends (.withdraw id) (e.withdraw id) := by
  obtain ⟨v, hdoes⟩ := does_withdraw h id
  exact hdoes.ends hf (.nil _)

theorem ends_scrap {i : Instance} (h : Graph.Layered e.graph) (hf : Graph.Forest e.graph)
    (hi : Graph.InHand e.graph i.nodes) : e.Ends (.scrap i) (e.scrap i) := by
  obtain ⟨v, hdoes⟩ := does_scrap h i
  exact hdoes.ends hf hi

theorem ends_shelve {i : Instance} (h : Graph.Layered e.graph) (hf : Graph.Forest e.graph)
    (hi : Graph.InHand e.graph i.nodes) (key : Key) : ∃ e', e.Ends (.shelve key i) e' := by
  obtain ⟨v, hscrap⟩ := does_scrap h i
  obtain ⟨v', e', hdoes⟩ := exists_does_shelve hscrap key
  exact ⟨e', hdoes.ends hf hi⟩

/-- Nothing that a task leaves behind keeps the next one from coming to an end. -/
theorem endsEach_foldl {β : Type} {t : β → Task} {f : Engine → β → Engine} {l : List β}
    (h : ∀ b ∈ l, ∀ e' : Engine, Graph.Fades e.graph e'.graph → e'.Ends (t b) (f e' b)) :
    e.EndsEach (l.map t) (l.foldl f e) := by
  refine foldl_fading (P := fun l e e' => e.EndsEach (l.map t) e') (fun e => .nil)
    fun b hb e' hf => ?_
  have hone := h b hb e' hf
  exact ⟨hone.fades, fun l e'' hrest => .cons hone hrest⟩

theorem forest_of_sound {w : Work} (h : Sound w) : Graph.Forest w.engine.graph where
  single := by
    rintro r s m ⟨i, hi, hm⟩ ⟨j, hj, hm'⟩
    obtain rfl : i = j := h.owning.eq_of_mem (Sound.mem_of_bound hi) (Sound.mem_of_bound hj) hm hm'
    exact h.holder_unique hi hj
  once := fun _ _ hi => h.owning.nodup_nodes (Sound.mem_of_bound hi)

/-- Pooled instances are held by no reference. -/
theorem inHand_of_pool {key : Key} {p : Prototype} {i : Instance} (h : Sound (.rest e))
    (hp : e.prototype? key = some p) (hi : i ∈ p.pool) : Graph.InHand e.graph i.nodes := by
  have hmem : i ∈ Work.instances (.rest e) := Sound.mem_of_pool (w := .rest e) hp hi
  refine ⟨h.owning.nodup_nodes hmem, ?_⟩
  rintro m hm r ⟨j, hj, hm'⟩
  obtain rfl : i = j := h.owning.eq_of_mem hmem (Sound.mem_of_bound hj) hm hm'
  exact h.not_pooled_of_bound hj hp hi

theorem inHand_without {place : Place} {i : Instance} (h : Sound (.rest e))
    (hi : e.at? place = some i) :
    Graph.Fades e.graph (e.without place).graph ∧ Graph.InHand (e.without place).graph i.nodes := by
  cases place with
  | reference id => exact ⟨.unbind e.graph id, (forest_of_sound h).inHand_unbind hi⟩
  | pool key position =>
    obtain ⟨p, hp, hpos⟩ := Option.bind_eq_some_iff.1 hi
    have hsame : (e.without (.pool key position)).graph = e.graph := by
      rw [without, hp]
      rfl
    rw [hsame]
    exact ⟨.refl _, inHand_of_pool h hp (List.mem_of_getElem? hpos)⟩

theorem descends_of_sound (h : Sound (.rest e)) : e.Descends := by
  have hl : Graph.Layered e.graph := h.layered
  have hf : Graph.Forest e.graph := forest_of_sound h
  constructor
  · exact Graph.acyclic_of_layered hl
  · exact hf.single
  · exact fun id b => looks_iff hl
  · exact ends_dismiss hl hf
  · exact ends_withdraw hl hf
  · intro place i hi
    obtain ⟨hfade, hhand⟩ := inHand_without h hi
    exact ends_scrap (hl.fade hfade) (hf.fade hfade) hhand
  · intro place i key hi
    obtain ⟨hfade, hhand⟩ := inHand_without h hi
    exact ends_shelve (hl.fade hfade) (hf.fade hfade) hhand key
  · exact endsEach_foldl fun id _ e' hfade =>
      ends_dismiss (hl.fade hfade) (hf.fade hfade) id
  · intro key p hp
    refine endsEach_foldl fun i hi e' hfade => ?_
    have hhand : Graph.InHand e.graph i.nodes := inHand_of_pool h hp (List.mem_reverse.1 hi)
    exact ends_scrap (hl.fade hfade) (hf.fade hfade) (hhand.fade hfade)

/-- Between any two calls, and however far a wave has come, every descent ends. -/
theorem descends_after (settings : Settings) (console : Console) (commands : List Command) :
    let e := (fresh settings console).after commands
    e.Descends ∧ ∀ shots, shots <+: (collect e.graph e.pending).1 →
      (e.collected.fireAll shots).2.Descends := by
  intro e
  have h : Sound (.rest e) := (settled_after settings console commands).sound
  refine ⟨descends_of_sound h, fun shots hshots => ?_⟩
  obtain ⟨e', hfire, hsound, -⟩ := fireAll_spec (collected_spec h).1 fun shot hshot =>
    not_pooled_of_mem_collect h (hshots.subset hshot)
  rw [hfire]
  exact descends_of_sound hsound

end PulseFlow.Engine
