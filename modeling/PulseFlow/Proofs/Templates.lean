import PulseFlow.Proofs.Placing

/-!
# Templates that stay well made

A declared prototype has its placeholders in place, and no change of a draft takes one away or adds a
reference that is not registered (`Redraws`).  So a template can be copied whatever was done to it.
Replacing a prototype discards the instances of the old template and leaves the rest of the engine
as it was (`Replaced`).

    p.WellMade r.prototypes → p.Redraws (course.run r ⟨p, heap⟩)                 (run_redraws)
    e.Settled → Serves e (e.edit key course).2                                  (edit_serves)
-/

namespace PulseFlow

/-! ## Declaring -/

/-- A graph to which placeholders were added. -/
structure Prototype.Placed (g : Graph) (ids : List NodeId) (g' : Graph) : Prop where
  tidy : g'.Tidy
  nodup : ids.Nodup
  fresh : ∀ id ∈ ids, g.get? id = none
  placed : ∀ id ∈ ids, g'.get? id = some (Node.native .socket)
  keep : ∀ id n, g.get? id = some n → g'.get? id = some n
  row : ∀ id n, g'.get? id = some n → g.get? id = some n ∨ id ∈ ids ∧ n = Node.native .socket

theorem Prototype.addPlaceholders_placed {g : Graph} (h : g.Tidy) (n : Nat) :
    Placed g (addPlaceholders g n).1 (addPlaceholders g n).2 := by
  induction n generalizing g with
  | zero =>
    exact ⟨h, List.nodup_nil, by simp [addPlaceholders], by simp [addPlaceholders],
      fun _ _ hn => hn, fun _ _ hn => .inl hn⟩
  | succ n ih =>
    have hfresh := Slots.get?_add_fst h (Node.native .socket)
    have hself := Slots.get?_add_self h (Node.native .socket)
    have hget := Slots.get?_add h (Node.native .socket)
    have hrest := ih (Slots.tidy_add h (Node.native .socket))
    rw [addPlaceholders]
    generalize g.add (Node.native .socket) = added at hfresh hself hget hrest ⊢
    obtain ⟨id, g₁⟩ := added
    dsimp only at hfresh hself hget hrest ⊢
    generalize addPlaceholders g₁ n = r at hrest ⊢
    obtain ⟨ids, g₂⟩ := r
    dsimp only at hrest ⊢
    -- the first number is taken when the others are given
    have hold : ∀ k, g₁.get? k = none → g.get? k = none := by
      intro k hk
      rw [hget] at hk
      split at hk
      · cases hk
      · exact hk
    constructor
    · exact hrest.tidy
    · refine List.nodup_cons.2 ⟨fun hid => ?_, hrest.nodup⟩
      rw [hrest.fresh id hid] at hself
      cases hself
    · intro k hk
      rcases List.mem_cons.1 hk with rfl | hk
      · exact hfresh
      · exact hold k (hrest.fresh k hk)
    · intro k hk
      rcases List.mem_cons.1 hk with rfl | hk
      · exact hrest.keep k _ hself
      · exact hrest.placed k hk
    · intro k m hm
      refine hrest.keep k m ?_
      rw [hget, if_neg, hm]
      rintro rfl
      rw [hfresh] at hm
      cases hm
    · intro k m hm
      rcases hrest.row k m hm with hm | ⟨hk, hm⟩
      · rw [hget] at hm
        split at hm
        · next hk => exact .inr ⟨hk ▸ List.mem_cons_self, (Option.some.inj hm).symm⟩
        · exact .inl hm
      · exact .inr ⟨List.mem_cons_of_mem id hk, hm⟩

theorem Prototype.wellMade_declare (t : Prototypes) (key : Key) (inputs outputs : Nat) :
    (Prototype.declare key inputs outputs).WellMade t := by
  have hins := addPlaceholders_placed (g := Graph.empty) Slots.tidy_empty inputs
  have houts := addPlaceholders_placed hins.tidy outputs
  unfold declare
  dsimp only
  generalize addPlaceholders Graph.empty inputs = r at hins houts ⊢
  generalize addPlaceholders r.2 outputs = r' at houts ⊢
  have hnode : ∀ id n, r'.2.get? id = some n → n = Node.native .socket := by
    intro id n hn
    rcases houts.row id n hn with hn | ⟨-, hn⟩
    · rcases hins.row id n hn with hn | ⟨-, hn⟩
      · rw [Graph.empty, Slots.get?_empty] at hn
        cases hn
      · exact hn
    · exact hn
  constructor
  · exact houts.tidy
  · exact fun b hb => ⟨_, houts.keep b _ (hins.placed b hb)⟩
  · exact fun b hb => ⟨_, houts.placed b hb, ⟨_, rfl⟩, rfl⟩
  · exact houts.nodup
  · intro id n hn
    rw [hnode id n hn]
    exact Node.registered_native rfl
  · intro id n hn
    rw [hnode id n hn]
    rfl

/-! ## Drafts -/

/-- A prototype whose template was changed and which still has its placeholders. -/
structure Prototype.Redraws (t : Prototypes) (p p' : Prototype) : Prop where
  key : p'.key = p.key
  inputs : p'.inputs = p.inputs
  outputs : p'.outputs = p.outputs
  made : p'.WellMade t

namespace Prototype.Redraws

variable {t : Prototypes} {p p' p'' : Prototype}

theorem refl (h : p.WellMade t) : p.Redraws t p := ⟨rfl, rfl, rfl, h⟩

theorem trans (h : p.Redraws t p') (h' : p'.Redraws t p'') : p.Redraws t p'' :=
  ⟨h'.key.trans h.key, h'.inputs.trans h.inputs, h'.outputs.trans h.outputs, h'.made⟩

/-- Where nodes lose connections only, and placeholders stay. -/
theorem of_fades (h : p.WellMade t) (hkey : p'.key = p.key) (hi : p'.inputs = p.inputs)
    (ho : p'.outputs = p.outputs) (htidy : p'.graph.Tidy) (hf : Graph.Fades p.graph p'.graph)
    (hlive : ∀ b n, b ∈ p.inputs ∨ b ∈ p.outputs → p.graph.get? b = some n →
      ∃ n', p'.graph.get? b = some n') : p.Redraws t p' where
  key := hkey
  inputs := hi
  outputs := ho
  made := by
    constructor
    · exact htidy
    · rw [hi]
      intro b hb
      obtain ⟨n, hn⟩ := h.inputs b hb
      exact hlive b n (.inl hb) hn
    · rw [ho]
      intro b hb
      obtain ⟨n, hn, hpl⟩ := h.outputs b hb
      obtain ⟨n', hn'⟩ := hlive b n (.inr hb) hn
      exact ⟨n', hn', (hf.node hn hn').placeholder hpl⟩
    · rw [ho]
      exact h.single
    · exact registered_of_fades hf h.registered
    · intro id n' hn'
      obtain ⟨n, hn, hfade⟩ := hf id n' hn'
      cases hi : n'.instance? with
      | none => rfl
      | some i => exact absurd (h.unbound id n hn) (by rw [hfade.instance? hi]; simp)

end Prototype.Redraws

namespace Draft

variable {r : Registry} {d d' : Draft}

theorem addNode_redraws (h : d.prototype.WellMade r.prototypes) {n : Node}
    (hn : n.Registered r.prototypes) (hun : n.instance? = none) :
    d.prototype.Redraws r.prototypes (d.addNode n).2.prototype := by
  have hget := Slots.get?_add h.tidy n
  have hfresh := Slots.get?_add_fst h.tidy n
  have hkeep : ∀ k m, d.prototype.graph.get? k = some m →
      (d.prototype.graph.add n).2.get? k = some m := by
    intro k m hm
    rw [hget, if_neg, hm]
    rintro rfl
    rw [hfresh] at hm
    cases hm
  have hrow : ∀ k m, (d.prototype.graph.add n).2.get? k = some m →
      m = n ∨ d.prototype.graph.get? k = some m := by
    intro k m hm
    rw [hget] at hm
    split at hm
    · exact .inl (Option.some.inj hm).symm
    · exact .inr hm
  refine ⟨rfl, rfl, rfl, Slots.tidy_add h.tidy n, fun b hb => ?_, fun b hb => ?_, h.single,
    fun k m hm => ?_, fun k m hm => ?_⟩
  · obtain ⟨m, hm⟩ := h.inputs b hb
    exact ⟨m, hkeep b m hm⟩
  · obtain ⟨m, hm, hpl⟩ := h.outputs b hb
    exact ⟨m, hkeep b m hm, hpl⟩
  · rcases hrow k m hm with rfl | hm
    · exact hn
    · exact h.registered k m hm
  · rcases hrow k m hm with rfl | hm
    · exact hun
    · exact h.unbound k m hm

theorem add_redraws (h : d.prototype.WellMade r.prototypes) {key : Key} {id : NodeId}
    (ha : d.add r key = .ok (id, d')) : d.prototype.Redraws r.prototypes d'.prototype := by
  unfold add at ha
  obtain ⟨made, hm, ha⟩ := ok_of_bind ha
  cases ha
  have hnew : made.1.Fresh r.prototypes := Registry.fresh_makeNode hm
  exact addNode_redraws (d := { d with heap := made.2 }) h hnew.registered hnew.blank.instance?

/-- A change of what one node leads to. -/
theorem modifyFan_redraws (h : d.prototype.WellMade r.prototypes) (source : Socket) (f : Fan → Fan) :
    d.prototype.Redraws r.prototypes { d.prototype with
      graph := d.prototype.graph.modify source.node fun n => n.modifyFan source.port f } := by
  have hr := Graph.Rewires.modifyFan d.prototype.graph source.node source.port f
  exact .of_fades h rfl rfl rfl (Slots.tidy_modify h.tidy _ _) hr.fades fun b n _ hn => hr.live b n hn

theorem connect_redraws (h : d.prototype.WellMade r.prototypes) {source target : Socket}
    (hc : d.connect source target = .ok d') :
    d.prototype.Redraws r.prototypes d'.prototype := by
  unfold connect at hc
  split at hc
  · cases hc
  · obtain ⟨g, hg, hc⟩ := ok_of_bind hc
    cases hc
    rw [Engine.graph_connect_ok hg]
    exact modifyFan_redraws h source _

theorem disconnect_redraws (h : d.prototype.WellMade r.prototypes) {source : Socket}
    (hc : d.disconnect source = .ok d') : d.prototype.Redraws r.prototypes d'.prototype := by
  unfold disconnect at hc
  obtain ⟨g, hg, hc⟩ := ok_of_bind hc
  cases hc
  rw [Engine.graph_disconnect_ok hg]
  exact modifyFan_redraws h source _

theorem remove_redraws (h : d.prototype.WellMade r.prototypes) {id : NodeId}
    (hc : d.remove id = .ok d') : d.prototype.Redraws r.prototypes d'.prototype := by
  unfold remove at hc
  by_cases hb : d.prototype.isBoundary id = true
  · rw [if_pos hb] at hc
    cases hc
  · rw [if_neg hb] at hc
    have hinner : id ∉ d.prototype.inputs ∧ id ∉ d.prototype.outputs := by
      simpa [Prototype.isBoundary] using hb
    obtain ⟨g, hg, hc⟩ := ok_of_bind hc
    obtain ⟨n, -, hg⟩ := ok_of_bind hg
    cases hc
    cases hg
    -- first the connections into the node are led on, then it is erased
    generalize Graph.leadOn id _ = lead
    have hmap : Graph.Fades d.prototype.graph
        (d.prototype.graph.map fun m => m.mapFans lead) := by
      intro k n' hn'
      rw [Slots.get?_map, Option.map_eq_some_iff] at hn'
      obtain ⟨m, hm, rfl⟩ := hn'
      exact ⟨m, hm, rfl, rfl, rfl, List.length_map _, .inl rfl⟩
    refine .of_fades h rfl rfl rfl ?_ (hmap.trans (.erase _ id)) fun b m hbd hm => ?_
    · exact Slots.tidy_map (Slots.tidy_close (Slots.tidy_map h.tidy _) id) _
    · have hne : b ≠ id := by
        rintro rfl
        rcases hbd with hbd | hbd
        · exact hinner.1 hbd
        · exact hinner.2 hbd
      refine ⟨_, Graph.live_erase (n := m.mapFans lead) hne ?_⟩
      rw [Slots.get?_map, hm, Option.map_some]

theorem place_redraws (h : d.prototype.WellMade r.prototypes) {id : NodeId} {spot : Placement}
    (hc : d.place id spot = .ok d') : d.prototype.Redraws r.prototypes d'.prototype := by
  unfold place at hc
  obtain ⟨_, -, hc⟩ := ok_of_bind hc
  cases hc
  exact ⟨rfl, rfl, rfl, h.of_eq rfl rfl rfl⟩

theorem setCanvas_redraws (h : d.prototype.WellMade r.prototypes) (canvas : Canvas) :
    d.prototype.Redraws r.prototypes (d.setCanvas canvas).prototype :=
  ⟨rfl, rfl, rfl, h.of_eq rfl rfl rfl⟩

/-- An action that gives a new draft, or fails and leaves the old one. -/
theorem settle_induct (P : Draft → Prop) (h : P d) (result : Except Error Draft)
    (hok : ∀ d', result = .ok d' → P d') : P (perform.settle d result).2 := by
  cases result with
  | error err => exact h
  | ok d' => exact hok d' rfl

theorem perform_redraws (h : d.prototype.WellMade r.prototypes) (a : Action) :
    d.prototype.Redraws r.prototypes (d.perform r a).2.prototype := by
  have hsettle := settle_induct (fun d' => d.prototype.Redraws r.prototypes d'.prototype) (.refl h)
  cases a with
  | input port | output port | allocate items | targets source => exact .refl h
  | add key =>
    rw [perform]
    cases ha : d.add r key with
    | error err => exact .refl h
    | ok made => exact add_redraws h ha
  | addLogic l => exact addNode_redraws h (Node.registered_native rfl) rfl
  | connect source target => exact hsettle _ fun _ => connect_redraws h
  | disconnect source => exact hsettle _ fun _ => disconnect_redraws h
  | remove id => exact hsettle _ fun _ => remove_redraws h
  | place id spot => exact hsettle _ fun _ => place_redraws h
  | setCanvas canvas => exact setCanvas_redraws h canvas

end Draft

/-! ## Courses of actions -/

namespace Draft

/-- Nodes get into a template by their names, constants by their values. -/
def Action.ByName : Action → Prop
  | .addLogic l => ∃ value, l = .constant value
  | _ => True

/-- One action, of a kind that is allowed. -/
def Step (ok : Action → Prop) (r : Registry) (d d' : Draft) : Prop :=
  ∃ a, ok a ∧ d' = (d.perform r a).2

/-- Any number of actions. -/
abbrev Steps (ok : Action → Prop) (r : Registry) : Draft → Draft → Prop :=
  Relation.ReflTransGen (Step ok r)

namespace Steps

variable {ok : Action → Prop} {r : Registry} {d d' : Draft}

/-- What each action keeps is kept by all. -/
theorem induct {P : Draft → Prop} (hP : ∀ d a, ok a → P d → P (d.perform r a).2)
    (h : Steps ok r d d') (hd : P d) : P d' := by
  induction h with
  | refl => exact hd
  | tail _ hstep ih =>
    obtain ⟨a, ha, rfl⟩ := hstep
    exact hP _ a ha ih

theorem redraws (hs : Steps ok r d d') (h : d.prototype.WellMade r.prototypes) :
    d.prototype.Redraws r.prototypes d'.prototype :=
  hs.induct (P := fun d' => d.prototype.Redraws r.prototypes d'.prototype)
    (fun _ a _ hd => hd.trans (perform_redraws hd.made a)) (.refl h)

end Steps

end Draft

namespace Edit

variable {α : Type} {ok : Draft.Action → Prop} {r : Registry} {d : Draft}

/-- All actions that a course takes, begun with a draft, are of a kind that is allowed. -/
def Only (ok : Draft.Action → Prop) (r : Registry) : Edit α → Draft → Prop
  | finish _, _ => True
  | act action next, d =>
    ok action ∧ Only ok r (next (d.perform r action).1) (d.perform r action).2

theorem only_of_all (hok : ∀ a, ok a) (course : Edit α) (d : Draft) : course.Only ok r d := by
  induction course generalizing d with
  | finish a => trivial
  | act action next ih => exact ⟨hok action, ih _ _⟩

theorem run_steps (course : Edit α) (h : course.Only ok r d) :
    Draft.Steps ok r d (course.run r d).2 := by
  induction course generalizing d with
  | finish a => exact .refl
  | act action next ih => exact (ih _ h.2).head ⟨action, h.1, rfl⟩

theorem run_redraws (course : Edit α) (h : d.prototype.WellMade r.prototypes) :
    d.prototype.Redraws r.prototypes (course.run r d).2.prototype := by
  have hall : course.Only (fun _ => True) r d := course.only_of_all (fun _ => trivial) d
  exact (course.run_steps hall).redraws h

end Edit

/-! ## Prototypes of an engine -/

namespace Engine

variable {e e' : Engine} {k : Key} {p q : Prototype}

theorem registerLogic_serves (h : e.Settled) (l : Logic) : Serves e (e.registerLogic l).2 := by
  unfold registerLogic
  split
  · exact .refl h
  · split
    · next catalog _ =>
      exact ⟨h.of_eq rfl rfl rfl rfl rfl rfl, rfl, fun _ p _ hp hi => ⟨p, hp, hi⟩,
        fun _ _ => rfl⟩
    · exact .refl h

theorem prototype?_of_not_contains (h : ¬ e.registry.contains k = true) :
    e.registry.prototypes.get? k = none := by
  have hnot : e.registry.prototypes.contains k = false := by
    simp only [Registry.contains, Bool.or_eq_true, not_or, Bool.not_eq_true] at h
    exact h.2
  simpa [Table.contains] using hnot

theorem declare_serves (h : e.Settled) (key : Key) (inputs outputs : Nat) :
    Serves e (e.declare key inputs outputs).2 := by
  unfold declare
  by_cases hc : e.registry.contains key = true
  · rw [if_pos hc]
    exact .refl h
  · rw [if_neg hc]
    have hnone := prototype?_of_not_contains hc
    have hreport := serves_world h (e.world.report (.declared key inputs outputs))
    refine hreport.trans ?_
    generalize hq : Prototype.declare key inputs outputs = q
    have hkey : q.key = key := by rw [← hq]; rfl
    have hpool : q.pool = [] := by rw [← hq]; rfl
    have hget : ∀ k, ((e.report (.declared key inputs outputs)).putPrototype q).prototype? k =
        if k = q.key then some q else e.prototype? k := fun k => Table.get?_insert _ _ _ _
    refine ⟨⟨hreport.settled.sound.putPrototype ?_ ?_ ?_ ?_ ?_, h.busy⟩, rfl, ?_, fun _ _ => rfl⟩
    · exact fun k a => Prototypes.arity?_insert_of_some (hkey ▸ hnone)
    · show ([] ++ Prototypes.poolOf e.registry.prototypes q.key).Perm ([] ++ q.pool)
      rw [hpool, hkey, Prototypes.poolOf, hnone]
      rfl
    · rw [hpool]
      exact fun i hi => absurd hi List.not_mem_nil
    · rw [hpool]
      exact fun c _ => Nat.zero_le c
    · exact hq ▸ Prototype.wellMade_declare _ key inputs outputs
    · intro k p' i hp' hi
      rw [show (_ : Engine).prototype? k = _ from hget k] at hp'
      split at hp'
      · cases hp'
        rw [hpool] at hi
        cases hi
      · exact ⟨p', hp', hi⟩

/-- Putting a prototype with an empty pool in the place of one with the same placeholders takes the
instances that were pooled into the hand. -/
theorem sound_replace (h : Sound (.rest e)) (hp : e.prototype? k = some p)
    (hr : p.Redraws e.registry.prototypes q) (hpool : q.pool = []) (w : World) :
    Sound ⟨{ e.putPrototype q with world := w }, p.pool.reverse ++ [], [], []⟩ := by
  have hqk : q.key = k := hr.key.trans (h.named k p hp)
  have hput : Sound ⟨e.putPrototype q, p.pool.reverse ++ [], [], []⟩ := by
    refine h.putPrototype (fun j a ha => ?_) ?_ ?_ ?_ hr.made
    · rw [hqk, Prototypes.arity?_insert_same hp (congrArg _ hr.inputs) (congrArg _ hr.outputs)]
      exact ha
    · show ([] ++ Prototypes.poolOf e.registry.prototypes q.key).Perm _
      rw [hqk, Prototypes.poolOf_of_get? hp, hpool, List.append_nil, List.append_nil,
        List.nil_append]
      exact p.pool.reverse_perm.symm
    · rw [hpool]
      exact fun i hi => absurd hi List.not_mem_nil
    · rw [hpool]
      exact fun c _ => Nat.zero_le c
  exact hput.of_eq rfl rfl rfl rfl rfl rfl

/-- Prototype `q` was put in the place of `p`, and the instances that were pooled were discarded. -/
structure Replaced (e : Engine) (p q : Prototype) (w : World) (e' : Engine) : Prop where
  start : Sound ⟨{ e.putPrototype q with world := w }, p.pool.reverse ++ [], [], []⟩
  moves : Moves (fun _ => True)
    ⟨{ e.putPrototype q with world := w }, p.pool.reverse ++ [], [], []⟩ (.rest e')
  busy : Graph.Busy e'.graph
  registry : e'.registry = (e.putPrototype q).registry

theorem replaced (h : e.Settled) (hp : e.prototype? k = some p)
    (hr : p.Redraws e.registry.prototypes q) (hpool : q.pool = []) (w : World) :
    Replaced e p q w (p.pool.reverse.foldl scrap { e.putPrototype q with world := w }) := by
  have hstart := sound_replace h.sound hp hr hpool w
  obtain ⟨hbusy, hreg⟩ := foldl_scrap_busy hstart h.busy
  exact ⟨hstart, foldl_scrap_moves hstart (fun _ _ _ _ => trivial) fun _ _ _ _ _ _ => trivial,
    hbusy, hreg⟩

theorem Replaced.serves {w : World} (h : Replaced e p q w e') (hpool : q.pool = []) :
    Serves e e' := by
  have hsettled : e'.Settled := ⟨h.moves.sound h.start, h.busy⟩
  refine ⟨hsettled, h.moves.settings, fun j p' i hp' hi => ?_, fun id hid => ?_⟩
  · have hget : e'.prototype? j = if j = q.key then some q else e.prototype? j := by
      rw [prototype?, h.registry]
      exact Table.get?_insert _ _ _ _
    rw [hget] at hp'
    split at hp'
    · cases hp'
      rw [hpool] at hi
      cases hi
    · exact ⟨p', hp', hi⟩
  · obtain ⟨n', hn'⟩ := hid.live hsettled.sound
    exact h.moves.fades.held? hn'

/-- What holds of an engine and of it with a prototype replaced holds after an edit. -/
theorem editBy_induct {α : Type} {P : Engine → Prop} (h : e.Settled) (key : Key)
    {change : Draft → α × Draft}
    (hchange : ∀ p, e.prototype? key = some p →
      p.Redraws e.registry.prototypes (change ⟨p, e.world.heap⟩).2.prototype) (he : P e)
    (hP : ∀ p w e', e.prototype? key = some p → Replaced e p
      { (change ⟨p, e.world.heap⟩).2.prototype with revision := p.revision + 1, pool := [] } w e' →
        P e') : P (e.editBy key change).2 := by
  unfold editBy
  cases hp : e.prototype? key with
  | none => exact he
  | some p =>
    have hr := hchange p hp
    have hreplace := hP p
    dsimp only
    generalize change ⟨p, e.world.heap⟩ = changed at hr hreplace ⊢
    obtain ⟨a, d⟩ := changed
    have hmade := hr.made
    have hq : p.Redraws e.registry.prototypes
        { d.prototype with revision := p.revision + 1, pool := [] } :=
      ⟨hr.key, hr.inputs, hr.outputs, hmade.of_eq rfl rfl rfl⟩
    exact hreplace _ _ hp (replaced h hp hq rfl _)

/-- The same when a pool is cleared. -/
theorem clearPool_induct {P : Engine → Prop} (h : e.Settled) (key : Key) (he : P e)
    (hP : ∀ p w e', e.prototype? key = some p → Replaced e p { p with pool := [] } w e' → P e') :
    P (e.clearPool key).2 := by
  unfold clearPool
  cases hp : e.prototype? key with
  | none => exact he
  | some p =>
    have hmade := h.sound.templates key p hp
    have hq : p.Redraws e.registry.prototypes { p with pool := [] } :=
      ⟨rfl, rfl, rfl, hmade.of_eq rfl rfl rfl⟩
    exact hP p _ _ hp (replaced h hp hq rfl _)

theorem editBy_serves {α : Type} (h : e.Settled) (key : Key) {change : Draft → α × Draft}
    (hchange : ∀ d : Draft, d.prototype.WellMade e.registry.prototypes →
      d.prototype.Redraws e.registry.prototypes (change d).2.prototype) :
    Serves e (e.editBy key change).2 :=
  editBy_induct (P := Serves e) h key
    (fun p hp => hchange ⟨p, e.world.heap⟩ (h.sound.templates key p hp)) (.refl h)
    fun _ _ _ _ hr => hr.serves rfl

theorem edit_serves {α : Type} (h : e.Settled) (key : Key) (course : Edit α) :
    Serves e (e.edit key course).2 :=
  editBy_serves h key fun _ hd => course.run_redraws hd

theorem register_serves {α : Type} (h : e.Settled) (key : Key) (inputs outputs : Nat)
    (course : Edit α) : Serves e (e.register key inputs outputs course).2 := by
  have hd := declare_serves h key inputs outputs
  unfold register
  cases hdec : e.declare key inputs outputs with
  | mk result e₁ =>
    rw [hdec] at hd
    cases result with
    | error err => exact hd
    | ok _ => exact hd.trans (edit_serves hd.settled key course)

theorem clearPool_serves (h : e.Settled) (key : Key) : Serves e (e.clearPool key).2 :=
  clearPool_induct (P := Serves e) h key (.refl h) fun _ _ _ _ hr => hr.serves rfl

end Engine

end PulseFlow
