import PulseFlow.Proofs.Leading
import PulseFlow.Proofs.Numbers
import PulseFlow.Proofs.Residue

/-!
# What a session is made of

Every command is a chain of changes of nine kinds, each from a sound engine to a sound engine
(`Change`, `Changed`, `perform_changes`).  What each of them keeps is kept by whole sessions, and by
engines in the middle of a wave as well.  A `Scope` leaves out some of the changes; a call or a
session that stays within it is a chain of the others, so what these keep need not be looked into
call by call.

    Sound (.rest e) → Changes scope e (e.fireAll shots).2, if `scope` has waves  (fireAll_changes)
    e.Settled → c.Within scope e → Changes scope e (e.answer c)                  (answer_changes)
    Changes scope e e' → P e → P e', if every change keeps P                     (Changes.induct)
-/

namespace PulseFlow

namespace Engine

variable {e e' e'' : Engine} {i : Instance} {k k' : Key} {id : NodeId} {depth : Nat}

/-! ## Whose instance it is -/

/-- A reference to `k` holds the instance, or it waits in the pool of `k`. -/
def InstanceOf (e : Engine) (k : Key) (i : Instance) : Prop :=
  (∃ id n, e.graph.get? id = some n ∧ n.body = .reference k (some i)) ∨
    ∃ p, e.prototype? k = some p ∧ i ∈ p.pool

theorem InstanceOf.mem (h : e.InstanceOf k i) : i ∈ Work.instances (.rest e) := by
  rcases h with ⟨id, n, hn, hb⟩ | ⟨p, hp, hi⟩
  · exact Sound.mem_of_bound (w := .rest e)
      ((Graph.instance?_of_get? hn).trans (Node.instance?_of_reference hb))
  · exact Sound.mem_of_pool (w := .rest e) hp hi

/-- Instances may be given back to where they came from; no prototype gets an instance that was not
one of its own. -/
structure Restores (e e' : Engine) : Prop where
  named : ∀ k p, e'.prototype? k = some p → p.key = k
  instanceOf : ∀ k i, e'.InstanceOf k i → e.InstanceOf k i

namespace Restores

theorem refl (h : ∀ k p, e.prototype? k = some p → p.key = k) : Restores e e :=
  ⟨h, fun _ _ hi => hi⟩

theorem trans (h : Restores e e') (h' : Restores e' e'') : Restores e e'' :=
  ⟨h'.named, fun k i hi => h.instanceOf k i (h'.instanceOf k i hi)⟩

/-- A body that holds an instance has not faded. -/
theorem of_fades (h : ∀ k p, e.prototype? k = some p → p.key = k)
    (hf : Graph.Fades e.graph e'.graph)
    (ht : e'.registry.prototypes = e.registry.prototypes) : Restores e e' where
  named := by
    intro k p hp
    rw [prototype?, ht] at hp
    exact h k p hp
  instanceOf := by
    rintro k i (⟨id, n', hn', hb'⟩ | ⟨p, hp, hi⟩)
    · obtain ⟨n, hn, hfade⟩ := hf id n' hn'
      rcases hfade.body with hb | ⟨k', b, -, hb⟩
      · exact .inl ⟨id, n, hn, hb.symm.trans hb'⟩
      · rw [hb] at hb'
        cases hb'
    · rw [prototype?, ht] at hp
      exact .inr ⟨p, hp, hi⟩

end Restores

theorem fades_foldl_vacate (g : Graph) (nodes : List NodeId) :
    Graph.Fades g (nodes.foldl Slots.vacate g) := by
  induction nodes generalizing g with
  | nil => exact .refl g
  | cons m nodes ih => exact (Graph.Fades.vacate g m).trans (ih _)

/-- An instance that is shelved goes to the pool of its key or nowhere. -/
theorem shelve_instanceOf (h : ∀ k p, e.prototype? k = some p → p.key = k) (k' : Key)
    (i : Instance) :
    (∀ k p, (e.shelve k' i).prototype? k = some p → p.key = k) ∧
      ∀ k j, (e.shelve k' i).InstanceOf k j → e.InstanceOf k j ∨ k = k' ∧ j = i := by
  have hfree : Restores e (e.free i) :=
    .of_fades h (fades_foldl_vacate e.graph i.nodes) rfl
  unfold shelve
  cases hp : e.prototype? k' with
  | none => exact ⟨hfree.named, fun k j hj => .inl (hfree.instanceOf k j hj)⟩
  | some p =>
    dsimp only
    split
    · have hkey := h k' p hp
      have hget : ∀ k, ((e.report (.pooled i.id k')).putPrototype
          { p with pool := i :: p.pool }).prototype? k =
            if k = p.key then some { p with pool := i :: p.pool } else e.prototype? k :=
        fun k => Table.get?_insert _ _ _ _
      refine ⟨fun k q hq => ?_, fun k j hj => ?_⟩
      · rw [hget] at hq
        split at hq
        · next hk =>
          cases hq
          exact hk.symm
        · exact h k q hq
      · rcases hj with hj | ⟨q, hq, hj⟩
        · exact .inl (.inl hj)
        · rw [hget] at hq
          split at hq
          · next hk =>
            cases hq
            rcases List.mem_cons.1 hj with rfl | hj
            · exact .inr ⟨hk.trans hkey, rfl⟩
            · exact .inl (.inr ⟨p, hk ▸ hkey ▸ hp, hj⟩)
          · exact .inl (.inr ⟨q, hq, hj⟩)
    · exact ⟨hfree.named, fun k j hj => .inl (hfree.instanceOf k j hj)⟩

/-- Treating nodes one after another. -/
theorem restores_foldl {f : Engine → NodeId → Engine}
    (hf : ∀ (e : Engine) (id : NodeId), (∀ k p, e.prototype? k = some p → p.key = k) →
      Restores e (f e id))
    (h : ∀ k p, e.prototype? k = some p → p.key = k) (ids : List NodeId) :
    Restores e (ids.foldl f e) := by
  induction ids generalizing e with
  | nil => exact .refl h
  | cons id ids ih => exact (hf e id h).trans (ih (hf e id h).named)

/-- The induction is on the depth.  The instance of the reference is no one's while those inside it
are dismissed, and then goes back to its key. -/
theorem dismissWithin_restores (h : ∀ k p, e.prototype? k = some p → p.key = k) (id : NodeId) :
    Restores e (dismissWithin depth e id) := by
  induction depth generalizing e id with
  | zero => exact .refl h
  | succ depth ih =>
    rw [dismissWithin]
    cases hn : e.graph.get? id with
    | none => exact .refl h
    | some n =>
      dsimp only
      split
      · next k i hb =>
        have hunbind : Restores e (e.unbind id) := .of_fades h (.unbind e.graph id) rfl
        have hfold := hunbind.trans (restores_foldl (fun e id h => ih h id) hunbind.named i.nodes)
        generalize i.nodes.foldl (dismissWithin depth) (e.unbind id) = e₁ at hfold ⊢
        have hroute : Restores e { e₁ with graph := unroute e₁.graph i.outputs } :=
          hfold.trans (.of_fades hfold.named (.refans (Graph.refans_unroute _ _)) rfl)
        obtain ⟨hnamed, hshelve⟩ := shelve_instanceOf hroute.named k i
        refine ⟨hnamed, fun k' j hj => ?_⟩
        rcases hshelve k' j hj with hj | ⟨rfl, rfl⟩
        · exact hroute.instanceOf k' j hj
        · exact .inl ⟨id, n, hn, hb⟩
      · exact .refl h

theorem sweep_restores (h : Sound (.rest e)) : Restores e e.sweep :=
  restores_foldl (fun _ id h => dismissWithin_restores h id) h.named _

/-! ## Kinds of changes -/

/-- What changes may be made up of. -/
structure Scope where
  /-- The actions on templates. -/
  drawing : Draft.Action → Prop
  /-- Whether signals may be sent and references bound. -/
  running : Prop
  /-- Whether nodes may be placed. -/
  placing : Prop
  /-- Whether visible nodes may be led elsewhere. -/
  wiring : Prop
  /-- Whether visible nodes may be erased. -/
  erasing : Prop

/-- Anything at all. -/
def Scope.all : Scope := ⟨fun _ => True, True, True, True, True⟩

/-- One change of an engine. -/
inductive Change (scope : Scope) : Engine → Engine → Prop
  /-- Signals go from node to node, or something else happens to neither graph nor registry. -/
  | feed {e e' : Engine} (running : scope.running ∨ e'.graph = e.graph)
      (alike : Graph.Alike e.graph e'.graph) (registry : e'.registry = e.registry) :
      Change scope e e'
  /-- A logic is filed under its key. -/
  | file {e e' : Engine} {l : Logic} (fresh : e.registry.contains l.key = false)
      (graph : e'.graph = e.graph)
      (registry : e'.registry =
        { e.registry with catalog := e.registry.catalog.insert l.key l }) : Change scope e e'
  /-- A reference is bound. -/
  | bind {e e' : Engine} {id : NodeId} {n : Node} {k : Key} (running : scope.running)
      (get : e.graph.get? id = some n) (body : n.body = .reference k none) (free : ¬ e.Pooled id)
      (engaged : e.engage id = .ok e') : Change scope e e'
  /-- Instances are taken apart or given back. -/
  | tear {e e' : Engine} {S : NodeId → Prop} (moves : Moves S (.rest e) (.rest e'))
      (restores : Restores e e') : Change scope e e'
  /-- A node is placed. -/
  | place {e e' : Engine} {n : Node} (placing : scope.placing)
      (fresh : n.Fresh e.registry.prototypes) (graph : e'.graph = (e.graph.add n).2)
      (registry : e'.registry = e.registry) : Change scope e e'
  /-- An output of a visible node is led elsewhere, to inputs of visible nodes. -/
  | relead {e e' : Engine} {source : Socket} {n : Node} {change : Fan → Fan} (wiring : scope.wiring)
      (get : e.graph.get? source.node = some n) (visible : n.internal = false)
      (targets : ∀ f, ∀ s ∈ change f, s ∈ f ∨
        Graph.Visible e.graph s.node ∧ Graph.HasInput e.graph s)
      (graph : e'.graph = e.releaded source change) (registry : e'.registry = e.registry) :
      Change scope e e'
  /-- A visible node that is not bound is erased. -/
  | erase {e e' : Engine} {id : NodeId} (erasing : scope.erasing)
      (visible : ¬ Graph.Internal e.graph id)
      (unbound : e.instance? id = none) (graph : e'.graph = Graph.erase e.graph id)
      (registry : e'.registry = e.registry) : Change scope e e'
  /-- A prototype is declared. -/
  | declare {e e' : Engine} {key : Key} {inputs outputs : Nat}
      (fresh : e.registry.contains key = false) (graph : e'.graph = e.graph)
      (registry : e'.registry =
        (e.putPrototype (Prototype.declare key inputs outputs)).registry) : Change scope e e'
  /-- A prototype loses its pool, its template being edited or not, and what was pooled is
  discarded. -/
  | replace {e e' : Engine} {k : Key} {p q : Prototype} {w : World}
      (get : e.prototype? k = some p) (key : q.key = k)
      (template : q = p.bare ∨ ∃ heap d, Draft.Steps scope.drawing e.registry ⟨p, heap⟩ d ∧
        q = { d.prototype with revision := p.revision + 1, pool := [] })
      (start : Sound ⟨{ e.putPrototype q with world := w }, p.pool.reverse ++ [], [], []⟩)
      (moves : Moves (fun _ => True)
        ⟨{ e.putPrototype q with world := w }, p.pool.reverse ++ [], [], []⟩ (.rest e'))
      (registry : e'.registry = (e.putPrototype q).registry) : Change scope e e'

/-- A change from a sound engine to a sound engine, made by operations of the store of nodes. -/
structure Changed (scope : Scope) (e e' : Engine) : Prop where
  before : Sound (.rest e)
  after : Sound (.rest e')
  evolves : Slots.Evolves e.graph e'.graph
  change : Change scope e e'

/-- Any number of changes. -/
abbrev Changes (scope : Scope) : Engine → Engine → Prop := Relation.ReflTransGen (Changed scope)

variable {scope : Scope}

/-- What each change keeps is kept by all. -/
theorem Changes.induct {P : Engine → Prop}
    (hP : ∀ {e e'}, Sound (.rest e) → Sound (.rest e') → Change scope e e' → P e → P e')
    (h : Changes scope e e') (he : P e) : P e' := by
  induction h with
  | refl => exact he
  | tail _ hstep ih => exact hP hstep.before hstep.after hstep.change ih

/-! ## Waves -/

theorem changes_of_eq (h : Sound (.rest e)) (h' : Sound (.rest e')) (hg : e'.graph = e.graph)
    (hr : e'.registry = e.registry) : Changes scope e e' :=
  .single ⟨h, h', hg ▸ .refl, .feed (.inr hg) (hg ▸ .refl e.graph) hr⟩

theorem Feeds.changes (hrun : scope.running) (h : Feeds e e') (hs : Sound (.rest e))
    (hevolves : Slots.Evolves e.graph e'.graph) : Changes scope e e' :=
  .single ⟨hs, h.sound, hevolves, .feed (.inl hrun) h.alike h.registry⟩

theorem forward_changes (hrun : scope.running) (h : Sound (.rest e)) (id : NodeId)
    (inputs : List Signal) : Changes scope e (e.forward id inputs) :=
  (forward_feeds h id inputs).changes hrun h (e.forward_evolves id inputs)

theorem fire_changes (hrun : scope.running) (h : Sound (.rest e)) (hid : ¬ e.Pooled id)
    (inputs : List Signal) : Changes scope e (e.fire id inputs).2 := by
  unfold fire
  cases hn : e.graph.get? id with
  | none => exact .refl
  | some n =>
    have htrace := traceFiring_feeds h id n
    have hn' : (e.traceFiring id n).graph.get? id = some n := by
      rw [graph_traceFiring]
      exact hn
    have hid' : ¬ (e.traceFiring id n).Pooled id := fun hp => hid ((htrace.pooled_iff id).1 hp)
    refine (changes_of_eq h htrace.sound (graph_traceFiring e id n) htrace.registry).trans ?_
    dsimp only
    split
    · next l hb =>
      exact (fireLogic_feeds htrace.sound hn' hb hid' inputs).changes hrun htrace.sound
        (fireLogic_evolves _ id l inputs)
    · exact forward_changes hrun htrace.sound id inputs
    · next k hb =>
      obtain ⟨e₁, hengage, hsound, -⟩ := engage_spec htrace.sound hn' hb hid'
      have hbind : Changes scope (e.traceFiring id n) e₁ :=
        .single ⟨htrace.sound, hsound, engage_evolves hengage, .bind hrun hn' hb hid' hengage⟩
      rw [hengage]
      exact hbind.trans (forward_changes hrun hsound id inputs)

theorem fireAll_changes (hrun : scope.running) (h : Sound (.rest e)) {shots : List Shot}
    (hshots : ∀ shot ∈ shots, ¬ e.Pooled shot.id) : Changes scope e (e.fireAll shots).2 := by
  induction shots generalizing e with
  | nil => exact .refl
  | cons shot shots ih =>
    have hid := hshots shot List.mem_cons_self
    obtain ⟨e₁, hfire, hsound, hflows⟩ := fire_spec h hid shot.inputs
    have hone : Changes scope e (e.fire shot.id shot.inputs).2 :=
      fire_changes hrun h hid shot.inputs
    rw [hfire] at hone
    rw [fireAll, hfire]
    exact hone.trans (ih hsound fun x hx hp =>
      hshots x (List.mem_cons_of_mem shot hx) (hflows.pooled hp))

/-- The engines in the middle of a wave. -/
theorem midwave_changes (hrun : scope.running) (h : Sound (.rest e)) {shots : List Shot}
    (hshots : shots <+: (collect e.graph e.pending).1) :
    Changes scope e (e.collected.fireAll shots).2 := by
  have hcollect := (collected_spec h).1
  have hfeed : Changes scope e e.collected :=
    .single ⟨h, hcollect, collect_evolves e.graph e.pending,
      .feed (.inl hrun) e.alike_collected rfl⟩
  exact hfeed.trans (fireAll_changes hrun hcollect fun shot hshot =>
    not_pooled_of_mem_collect h (hshots.subset hshot))

theorem swept_changes (hrun : scope.running) (h : Sound (.rest e)) : Changes scope e e.swept := by
  have hwave := (wave_spec h).2.1
  have hsweep := (sweep_moves hwave).1
  have hevolves : Slots.Evolves e.wave.graph e.wave.sweep.graph := hsweep.evolves
  have htear : Changes scope e.wave e.wave.sweep :=
    .single ⟨hwave, hsweep.sound hwave, hevolves, .tear hsweep (sweep_restores hwave)⟩
  have hcount : Changes scope e.wave.sweep e.swept :=
    changes_of_eq (hsweep.sound hwave) (swept_sound h) rfl rfl
  exact ((midwave_changes hrun h (List.prefix_refl _)).trans htear).trans hcount

theorem runFrom_changes (hrun : scope.running) {taken budget : Nat} (h : Sound (.rest e)) :
    Changes scope e (runFrom taken budget e).2 :=
  (runFrom_induct (P := Changes scope e) (fun _ hs hc => hc.trans (swept_changes hrun hs)) h
    .refl).2

/-! ## Calls -/

theorem registerLogic_changes (h : e.Settled) (l : Logic) :
    Changes scope e (e.registerLogic l).2 := by
  have hserves := registerLogic_serves h l
  unfold registerLogic at hserves ⊢
  split
  · exact .refl
  · next hproto =>
    rw [if_neg hproto] at hserves
    unfold Catalog.register at hserves ⊢
    by_cases hcat : e.registry.catalog.contains l.key = true
    · rw [if_pos hcat]
    · rw [if_neg hcat] at hserves ⊢
      refine .single ⟨h.sound, hserves.settled.sound, .refl, .file (l := l) ?_ rfl rfl⟩
      simp only [Registry.contains, Bool.or_eq_false_iff]
      exact ⟨Bool.eq_false_iff.2 hcat, Bool.eq_false_iff.2 hproto⟩

theorem declare_changes (h : e.Settled) (key : Key) (inputs outputs : Nat) :
    Changes scope e (e.declare key inputs outputs).2 := by
  have hserves := declare_serves h key inputs outputs
  unfold declare at hserves ⊢
  by_cases hc : e.registry.contains key = true
  · rw [if_pos hc]
  · rw [if_neg hc] at hserves ⊢
    exact .single ⟨h.sound, hserves.settled.sound, .refl,
      .declare (Bool.eq_false_iff.2 hc) rfl rfl⟩

theorem Replaced.changes {p q : Prototype} {w : World} (h : Replaced e p q w e')
    (hs : Sound (.rest e)) (hp : e.prototype? k = some p) (hkey : q.key = k)
    (htemplate : q = p.bare ∨ ∃ heap d, Draft.Steps scope.drawing e.registry ⟨p, heap⟩ d ∧
      q = { d.prototype with revision := p.revision + 1, pool := [] }) : Changes scope e e' := by
  have hevolves : Slots.Evolves e.graph e'.graph := h.moves.evolves
  exact .single ⟨hs, h.moves.sound h.start, hevolves,
    .replace hp hkey htemplate h.start h.moves h.registry⟩

theorem editBy_changes {α : Type} (h : e.Settled) (key : Key) {change : Draft → α × Draft}
    (hchange : ∀ p, e.prototype? key = some p →
      Draft.Steps scope.drawing e.registry ⟨p, e.world.heap⟩ (change ⟨p, e.world.heap⟩).2) :
    Changes scope e (e.editBy key change).2 := by
  have hredraws : ∀ p, e.prototype? key = some p →
      p.Redraws e.registry.prototypes (change ⟨p, e.world.heap⟩).2.prototype :=
    fun p hp => (hchange p hp).redraws (h.sound.templates key p hp)
  refine editBy_induct h key hredraws .refl fun p w e' hp hr => hr.changes h.sound hp ?_ ?_
  · exact (hredraws p hp).key.trans (h.sound.named key p hp)
  · exact .inr ⟨e.world.heap, _, hchange p hp, rfl⟩

theorem clearPool_changes (h : e.Settled) (key : Key) : Changes scope e (e.clearPool key).2 :=
  clearPool_induct h key .refl fun p _ _ hp hr =>
    hr.changes h.sound hp (h.sound.named key p hp) (.inl rfl)

theorem addNode_changes (hplace : scope.placing) (h : e.Settled) {n : Node}
    (hn : n.Fresh e.registry.prototypes) : Changes scope e (e.addNode n).2 :=
  .single ⟨h.sound, (addNode_serves h hn).settled.sound, .single (.add _ _),
    .place hplace hn rfl rfl⟩

theorem create_changes (hplace : scope.placing) (h : e.Settled) (key : Key) :
    Changes scope e (e.create key).2 := by
  refine create_induct (P := Changes scope e) .refl (fun n hn w => ?_) key
  have hworld := serves_world h w
  exact (changes_of_eq h.sound hworld.settled.sound rfl rfl).trans
    (addNode_changes hplace hworld.settled hn)

theorem connect_changes (hw : scope.wiring) (h : e.Settled) (source target : Socket) :
    Changes scope e (e.connect source target).2 := by
  have hserves := connect_serves h source target
  rcases e.connect_cases source target with ⟨err, he⟩ | ⟨⟨n, hn, hv⟩, ht, hinput, he⟩
  · rw [he]
  · rw [he] at hserves ⊢
    refine .single ⟨h.sound, hserves.settled.sound, releaded_evolves e source _,
      .relead hw hn hv (fun f s hs => ?_) rfl rfl⟩
    rcases SortedSet.mem_insert.1 hs with rfl | hs
    · exact .inr ⟨ht, hinput⟩
    · exact .inl hs

theorem disconnect_changes (hw : scope.wiring) (h : e.Settled) (source : Socket) :
    Changes scope e (e.disconnect source).2 := by
  have hserves := disconnect_serves h source
  rcases e.disconnect_cases source with ⟨err, he⟩ | ⟨⟨n, hn, hv⟩, he⟩
  · rw [he]
  · rw [he] at hserves ⊢
    exact .single ⟨h.sound, hserves.settled.sound, releaded_evolves e source _,
      .relead hw hn hv (fun f s hs => absurd hs (SortedSet.not_mem_empty s)) rfl rfl⟩

theorem remove_changes (herase : scope.erasing) (h : e.Settled) (id : NodeId) :
    Changes scope e (e.remove id).2 := by
  have hserves := remove_serves h id
  unfold remove at hserves ⊢
  cases hv : e.visible id with
  | error err => exact .refl
  | ok n =>
    rw [hv] at hserves
    have hvis : Graph.Visible e.graph id := ⟨n, get?_of_visible hv⟩
    have hwithdraw : Moves (fun _ => True) (.rest e) (.rest (e.withdraw id)) ∧
        (e.withdraw id).instance? id = none :=
      withdraw_moves h.sound trivial fun _ _ _ _ _ _ => trivial
    obtain ⟨hmoves, hun⟩ := hwithdraw
    have hsound := hmoves.sound h.sound
    have hfades : Graph.Fades e.graph (e.withdraw id).graph := hmoves.fades
    have hreg := (withdraw_busy h.sound h.busy hvis).2
    have hevolves : Slots.Evolves e.graph (e.withdraw id).graph := hmoves.evolves
    have htear : Changes scope e (e.withdraw id) := .single ⟨h.sound, hsound, hevolves,
      .tear hmoves (.of_fades h.sound.named hfades (congrArg Registry.prototypes hreg))⟩
    have hint : ¬ Graph.Internal (e.withdraw id).graph id := fun hi =>
      Graph.not_visible_of_internal (hfades.internal hi) hvis
    exact htear.tail ⟨hsound, hserves.settled.sound, erase_evolves _ id,
      .erase herase hint hun rfl rfl⟩

/-! ## Loading -/

theorem declareAll_changes (h : e.Settled) (ts : List Document.Template) :
    Changes scope e (e.declareAll ts).2.2 := by
  induction ts generalizing e with
  | nil => exact .refl
  | cons t ts ih =>
    have hserves := declare_serves h t.key t.inputs.length t.outputs.length
    have hone : Changes scope e (e.declare t.key t.inputs.length t.outputs.length).2 :=
      declare_changes h t.key t.inputs.length t.outputs.length
    rw [declareAll]
    generalize e.declare t.key t.inputs.length t.outputs.length = declared at hserves hone ⊢
    obtain ⟨result, e₁⟩ := declared
    cases result with
    | error err => exact hone
    | ok u => exact hone.trans (ih hserves.settled)

theorem loadTemplate_changes (hok : ∀ a : Draft.Action, a.ByName → scope.drawing a) (h : e.Settled)
    (t : Document.Template) : Changes scope e (e.loadTemplate t).2 := by
  rw [loadTemplate_snd]
  exact editBy_changes h t.key fun p _ => fill_steps hok t e.registry _

theorem loadAll_changes (hok : ∀ a : Draft.Action, a.ByName → scope.drawing a) (h : e.Settled)
    (ts : List Document.Template) : Changes scope e (e.loadAll ts).2 := by
  have hall : Changes scope e (e.loadAll ts).2 ∧ (e.loadAll ts).2.Settled := by
    refine loadAll_induct (P := fun e' => Changes scope e e' ∧ e'.Settled) ?_ ⟨.refl, h⟩
    rintro t - e' ⟨hchanges, hs⟩
    exact ⟨hchanges.trans (loadTemplate_changes hok hs t), (loadTemplate_serves hs t).settled⟩
  exact hall.1

/-- A load that failed has changed neither graph nor registry. -/
theorem Drafting.changes_drop {keys : List Key} (h : Drafting keys e e') (hs : e.Settled)
    (v : Event) : Changes scope e ((e'.report v).dropPrototypes keys) := by
  refine changes_of_eq hs.sound (h.serves_drop hs v).settled.sound h.graph ?_
  have hprototypes : (e'.dropPrototypes keys).registry.prototypes = e.registry.prototypes := h.drop
  have hcatalog : e'.registry.catalog = e.registry.catalog := h.catalog
  show (⟨e'.registry.catalog, (e'.dropPrototypes keys).registry.prototypes⟩ : Registry) = e.registry
  rw [hprototypes, hcatalog]

theorem importProject_changes (hok : ∀ a : Draft.Action, a.ByName → scope.drawing a) (h : e.Settled)
    (project : Document.Project) : Changes scope e (e.importProject project).2 := by
  obtain ⟨keys, e₁, hload, ⟨v, he₁, hdone⟩ | ⟨err, v, hfail⟩⟩ := importProject_cases h project
  · have hdeclare : Changes scope e (e.declareAll project.prototypes).2.2 :=
      declareAll_changes h project.prototypes
    have hs := (declareAll_spec h project.prototypes).1.settled
    have hfill := hdeclare.trans (loadAll_changes hok hs project.prototypes)
    have hsettled := hload.serves.settled
    rw [← he₁] at hfill
    rw [hdone]
    exact hfill.trans (changes_of_eq hsettled.sound (serves_world hsettled _).settled.sound rfl rfl)
  · rw [hfail]
    exact hload.drafting.changes_drop h v

/-! ## Sessions -/

/-- What a call that does not edit must be allowed to do. -/
def Call.Needs (scope : Scope) : Call → Prop
  | .create _ | .addLogic _ => scope.placing
  | .connect .. | .disconnect _ => scope.wiring
  | .remove _ => scope.erasing
  | .pulse .. => scope.running
  | _ => True

/-- A call does nothing but what is allowed. -/
def Call.Within (scope : Scope) (e : Engine) : Call → Prop
  | .register key inputs outputs course =>
    ∀ p, (e.declare key inputs outputs).2.prototype? key = some p →
      course.Only scope.drawing (e.declare key inputs outputs).2.registry
        ⟨p, (e.declare key inputs outputs).2.world.heap⟩
  | .edit key course =>
    ∀ p, e.prototype? key = some p → course.Only scope.drawing e.registry ⟨p, e.world.heap⟩
  | c => c.Needs scope

/-- The same of all calls of a session. -/
def Within (scope : Scope) (e : Engine) : List Command → Prop
  | [] => True
  | .call c :: commands => c.Within scope e ∧ (e.answer c).Within scope commands
  | command :: commands => (e.perform command).Within scope commands

theorem answer_changes (hok : ∀ a : Draft.Action, a.ByName → scope.drawing a) (h : e.Settled)
    (c : Call) (hc : c.Within scope e) : Changes scope e (e.answer c) := by
  cases c with
  | outside world => exact changes_of_eq h.sound (serves_world h world).settled.sound rfl rfl
  | registerLogic l => exact registerLogic_changes h l
  | declare key inputs outputs => exact declare_changes h key inputs outputs
  | register key inputs outputs course =>
    have hserves := declare_serves h key inputs outputs
    have hone : Changes scope e (e.declare key inputs outputs).2 :=
      declare_changes h key inputs outputs
    show Changes scope e (e.register key inputs outputs course).2
    dsimp only [Call.Within] at hc
    unfold register
    generalize e.declare key inputs outputs = declared at hserves hone hc ⊢
    obtain ⟨result, e₁⟩ := declared
    cases result with
    | error err => exact hone
    | ok u =>
      exact hone.trans (editBy_changes hserves.settled key fun p hp => course.run_steps (hc p hp))
  | edit key course => exact editBy_changes h key fun p hp => course.run_steps (hc p hp)
  | clearPool key => exact clearPool_changes h key
  | create key => exact create_changes hc h key
  | addLogic l => exact addNode_changes hc h (Node.fresh_native _ l)
  | connect source target => exact connect_changes hc h source target
  | disconnect source => exact disconnect_changes hc h source
  | remove id => exact remove_changes hc h id
  | pulse target signal =>
    exact (pulse_feeds h.sound target signal).changes hc h.sound (e.pulse_evolves target signal)
  | importProject project => exact importProject_changes hok h project

/-- Where every action on templates is allowed, a call is allowed if what else it needs is. -/
theorem Call.within_of (hdraw : ∀ a, scope.drawing a) (e : Engine) {c : Call}
    (hc : c.Needs scope) : c.Within scope e := by
  cases c with
  | register key inputs outputs course => exact fun p _ => course.only_of_all hdraw _
  | edit key course => exact fun p _ => course.only_of_all hdraw _
  | _ => exact hc

theorem answer_changes_of_needs (hdraw : ∀ a, scope.drawing a) (h : e.Settled) {c : Call}
    (hc : c.Needs scope) : Changes scope e (e.answer c) :=
  answer_changes (fun a _ => hdraw a) h c (Call.within_of hdraw e hc)

theorem perform_changes (hok : ∀ a : Draft.Action, a.ByName → scope.drawing a)
    (hrun : scope.running) (h : e.Settled) {command : Command} {commands : List Command}
    (hc : e.Within scope (command :: commands)) :
    Changes scope e (e.perform command) ∧ (e.perform command).Within scope commands := by
  cases command with
  | call c => exact ⟨answer_changes hok h c hc.1, hc.2⟩
  | step =>
    refine ⟨?_, hc⟩
    show Changes scope e e.step.2
    rw [step_eq h.sound]
    exact swept_changes hrun h.sound
  | run budget => exact ⟨runFrom_changes hrun h.sound, hc⟩

theorem after_changes (hok : ∀ a : Draft.Action, a.ByName → scope.drawing a)
    (hrun : scope.running) (h : e.Settled) {commands : List Command}
    (hc : e.Within scope commands) : Changes scope e (e.after commands) := by
  induction commands generalizing e with
  | nil => exact .refl
  | cons command commands ih =>
    obtain ⟨hone, hrest⟩ := perform_changes hok hrun h hc
    exact hone.trans (ih (perform_settled h command) hrest)

theorem within_all (e : Engine) (commands : List Command) : e.Within .all commands := by
  induction commands generalizing e with
  | nil => trivial
  | cons command commands ih =>
    cases command with
    | call c => exact ⟨Call.within_of (fun _ => trivial) e (by cases c <;> trivial), ih _⟩
    | step => exact ih _
    | run budget => exact ih _

theorem runWaves_changes (hrun : scope.running) {taken budget : Nat} {w : Engine} (h : e.Settled)
    (hw : w ∈ runWaves taken budget e) : Changes scope e w :=
  runWaves_induct (P := fun w => Changes scope e w)
    (fun hs hc => hc.trans (swept_changes hrun hs.sound)) h .refl hw

/-- The engines with which the waves of a session begin. -/
theorem waves_changes (hok : ∀ a : Draft.Action, a.ByName → scope.drawing a)
    (hrun : scope.running) (h : e.Settled) {commands : List Command}
    (hc : e.Within scope commands) {w : Engine} (hw : w ∈ e.waves commands) :
    Changes scope e w := by
  induction commands generalizing e with
  | nil => cases hw
  | cons command commands ih =>
    obtain ⟨hone, hrest⟩ := perform_changes hok hrun h hc
    have hlater : w ∈ (e.perform command).waves commands → Changes scope e w := fun hw =>
      hone.trans (ih (perform_settled h command) hrest hw)
    cases command with
    | call c => exact hlater hw
    | step =>
      rcases List.mem_cons.1 hw with rfl | hw
      · exact .refl
      · exact hlater hw
    | run budget =>
      rcases List.mem_append.1 hw with hw | hw
      · exact runWaves_changes hrun h hw
      · exact hlater hw

/-- What holds of fresh engines and is kept by every change holds after every session. -/
theorem after_induct {P : Engine → Prop}
    (hP : ∀ {e e'}, Sound (.rest e) → Sound (.rest e') → Change .all e e' → P e → P e')
    {settings : Settings} {console : Console} (h : P (fresh settings console))
    (commands : List Command) : P ((fresh settings console).after commands) :=
  (after_changes (fun _ _ => trivial) trivial (fresh_settled settings console)
    (within_all _ commands)).induct hP h

/-- It holds all through the waves of a session as well. -/
theorem midwave_induct {P : Engine → Prop}
    (hP : ∀ {e e'}, Sound (.rest e) → Sound (.rest e') → Change .all e e' → P e → P e')
    {settings : Settings} {console : Console} (h : P (fresh settings console))
    {commands : List Command} {w : Engine} (hw : w ∈ (fresh settings console).waves commands)
    {shots : List Shot} (hshots : shots <+: (collect w.graph w.pending).1) :
    P (w.collected.fireAll shots).2 := by
  have hfresh := fresh_settled settings console
  have hbegin : Changes .all (fresh settings console) w :=
    waves_changes (fun _ _ => trivial) trivial hfresh (within_all _ commands) hw
  have hmid : Changes .all w (w.collected.fireAll shots).2 :=
    midwave_changes trivial (settled_of_mem_waves hfresh hw).sound hshots
  exact Changes.induct hP (hbegin.trans hmid) h

end Engine

end PulseFlow
