import PulseFlow.Proofs.Drawings
import PulseFlow.Proofs.Likeness

/-!
# Instances stay like their templates

Instances are made like their templates (`instantiate_copiedIn`).  No change touches the nodes of an
instance, but for their signals, their bindings and the way on from the outputs (`Change.kept`).  An
edit of the template puts the revision ahead of all instances there are.  So an instance whose
revision is that of its prototype is like the template as it is now.

    ((fresh settings console).after commands).Faithful                (faithful_after)
-/

namespace PulseFlow

theorem Node.Fades.sameForm {n n' : Node} (h : n.Fades n') : n.SameForm n' where
  body := by
    rcases h.body with hb | ⟨k, b, hb, hb'⟩
    · rw [hb]
      exact .refl n.body
    · rw [hb, hb']
      exact .reference k b none
  inputs := by rw [h.inputs]
  outputs := h.arity

/-- What leads to other nodes only does not miss a node that is forgotten. -/
theorem Node.outputs_forget {n : Node} {id : NodeId} (h : n.LeadsTo (· ≠ id)) :
    (n.forget id).outputs = n.outputs := by
  have hfan : ∀ f ∈ n.outputs, f.filter (fun s => s.node != id) = f := by
    intro f hf
    refine SortedSet.ext_mem fun s => ?_
    simp only [SortedSet.mem_filter, bne_iff_ne, ne_eq, and_iff_left_iff_imp]
    exact fun hs => h f hf s hs
  show n.outputs.map _ = n.outputs
  rw [List.map_congr_left hfan, List.map_id']

/-! ## Moves -/

/-- Only the outputs of instances in hand are led elsewhere. -/
theorem Move.outputs {S : NodeId → Prop} {w w' : Work} (m : Move S w w') {x : NodeId} {c c' : Node}
    (hx : ∀ j ∈ w.hand, x ∉ j.outputs) (hc : w.engine.graph.get? x = some c)
    (hc' : w'.engine.graph.get? x = some c') : c'.outputs = c.outputs := by
  have hsame : w'.engine.graph = w.engine.graph → c'.outputs = c.outputs := by
    intro hg
    rw [hg, hc] at hc'
    cases hc'
    rfl
  cases m with
  | report v => exact hsame rfl
  | take hi hS =>
    obtain ⟨n, hn, rfl | ⟨-, rfl⟩⟩ := Graph.row_unbind hc'
    · cases hc.symm.trans hn
      rfl
    · cases hc.symm.trans hn
      rw [Node.outputs_bind]
  | unroute hi hS =>
    have hget := Graph.get?_unroute _ _ x ▸ hc'
    rw [if_neg (hx _ hi), hc] at hget
    cases hget
    rfl
  | pool hp hfit hidle => exact hsame rfl
  | breakUp => exact hsame rfl
  | vacate hid hstale hS =>
    obtain ⟨-, hn⟩ := Graph.row_vacate hc'
    cases hc.symm.trans hn
    rfl
  | flush hgone => exact hsame rfl

theorem Move.kept {S : NodeId → Prop} {w w' : Work} (m : Move S w w') (h : Sound w) {i : Instance}
    (hi : i ∈ w'.instances) : i.Kept w.engine.graph w'.engine.graph := by
  intro x hx c hc
  obtain ⟨c', hc', -⟩ := (m.sound h).owning.internal_of_mem hi hx
  refine ⟨c', hc', (m.fades.node hc hc').sameForm, fun ho => m.outputs (fun j hj hxj => ?_) hc hc'⟩
  -- a node belongs to one instance only
  have hmem := Sound.mem_of_hand hj
  have hij := h.owning.eq_of_mem (m.instances hi) hmem hx (h.owning.outputs_subset hmem hxj)
  exact ho (hij ▸ hxj)

theorem Moves.kept {S : NodeId → Prop} {w w' : Work} (m : Moves S w w') (h : Sound w) {i : Instance}
    (hi : i ∈ w'.instances) : i.Kept w.engine.graph w'.engine.graph := by
  induction m with
  | refl => exact .refl _ i
  | tail hsteps hstep ih =>
    exact (ih (hstep.instances hi)).trans (hstep.kept (Moves.sound hsteps h) hi)

namespace Engine

variable {e e' : Engine} {scope : Scope} {i j : Instance} {id : NodeId} {k : Key}
  {p : Prototype} {n : Node}

/-! ## Binding -/

/-- An instance is got from the pool, or made. -/
theorem acquire_cases (e : Engine) (id : NodeId) (p : Prototype) :
    (∃ pool, p.pool = (e.acquire id p).1 :: pool ∧ (e.acquire id p).2.graph = e.graph ∧
        (e.acquire id p).2.registry = (e.putPrototype { p with pool }).registry) ∨
      (e.acquire id p).1 = (p.instantiate e.nextInstance e.graph e.world.heap).1 ∧
        (e.acquire id p).2.graph = (p.instantiate e.nextInstance e.graph e.world.heap).2.1 ∧
        (e.acquire id p).2.registry = e.registry := by
  unfold acquire
  cases hpool : p.pool with
  | cons i pool => exact .inl ⟨pool, rfl, rfl, rfl⟩
  | nil => exact .inr ⟨rfl, rfl, rfl⟩

/-- Getting an instance binds none and pools none. -/
theorem acquire_instanceOf (h : Sound (.rest e)) (hp : e.prototype? k = some p) {k' : Key}
    (hj : (e.acquire id p).2.InstanceOf k' j) : e.InstanceOf k' j := by
  have hkey := h.named k p hp
  have htidy : e.graph.Tidy := h.tidy
  rcases e.acquire_cases id p with ⟨pool, hpool, hg, hr⟩ | ⟨-, hg, hr⟩
  · rcases hj with ⟨x, m, hm, hb⟩ | ⟨q, hq, hj⟩
    · rw [hg] at hm
      exact .inl ⟨x, m, hm, hb⟩
    · have hget : (e.acquire id p).2.prototype? k' =
          if k' = p.key then some { p with pool } else e.prototype? k' := by
        rw [prototype?, hr]
        exact Table.get?_insert _ _ _ _
      rw [hget] at hq
      split at hq
      · next hk =>
        cases hq
        refine .inr ⟨p, hk ▸ hkey ▸ hp, ?_⟩
        rw [hpool]
        exact List.mem_cons_of_mem _ hj
      · exact .inr ⟨q, hq, hj⟩
  · rcases hj with ⟨x, m, hm, hb⟩ | ⟨q, hq, hj⟩
    · have hmade := Prototype.instantiate_made htidy (h.templates k p hp) e.nextInstance e.world.heap
      rw [hg] at hm
      by_cases hx : x ∈ (p.instantiate e.nextInstance e.graph e.world.heap).1.nodes
      · -- what is made is not bound
        obtain ⟨old, o, c, -, hc, hcopy, -⟩ := hmade.copy x hx
        cases hc.symm.trans hm
        have hnone := hcopy.instance?
        rw [Node.instance?_of_reference hb] at hnone
        cases hnone
      · rw [hmade.keep x hx] at hm
        exact .inl ⟨x, m, hm, hb⟩
    · rw [prototype?, hr] at hq
      exact .inr ⟨q, hq, hj⟩

/-- The engine `e'` comes from `e` by binding reference `id` to `i`, which was got with `e₁`. -/
structure Engaged (e e₁ e' : Engine) (id : NodeId) (n : Node) (k : Key) (p : Prototype)
    (i : Instance) : Prop where
  prototype : e.prototype? k = some p
  got : e.acquire id p = (i, e₁)
  graph : e'.graph = Graph.handOver (route e₁.graph i.outputs n.outputs) id i
  registry : e'.registry = e₁.registry
  world : e'.world = e₁.world

theorem engage_engaged (h : Sound (.rest e)) (hn : e.graph.get? id = some n)
    (hb : n.body = .reference k none) (he : e.engage id = .ok e') :
    ∃ p i e₁, Engaged e e₁ e' id n k p i := by
  obtain ⟨p, hp, -⟩ := prototype?_of_reference h hn hb
  rw [engage_eq hn hb hp] at he
  cases he
  exact ⟨p, _, _, hp, rfl, rfl, rfl, rfl⟩

/-- After a binding, a node differs from what it was when the instance was got in its way on, if it
is an output of the instance, and in its binding, if it is the reference. -/
theorem row_engaged {g : Graph} {x : NodeId} {c' : Node} {outputs : List NodeId} {fans : List Fan}
    (hc' : (Graph.handOver (route g outputs fans) id i).get? x = some c') :
    ∃ c, g.get? x = some c ∧ c.SameForm c' ∧ c'.internal = c.internal ∧
      (x ∉ outputs → c'.outputs = c.outputs) ∧
      c'.body = if x = id then (c.bind (some i)).body else c.body := by
  obtain ⟨m, hm, hrow⟩ := Graph.row_handOver hc'
  have hbody : ∀ c : Node, m.body = c.body → m.SameForm c' ∧ c'.internal = m.internal ∧
      c'.outputs = m.outputs ∧ c'.body = if x = id then (c.bind (some i)).body else c.body := by
    intro c hmc
    rcases hrow with ⟨hx, rfl⟩ | ⟨hx, rfl⟩
    · rw [if_neg hx]
      exact ⟨.refl c', rfl, rfl, hmc⟩
    · rw [if_pos hx]
      refine ⟨.bind m (some i), m.internal_bind (some i), m.outputs_bind (some i), ?_⟩
      cases hb : c.body with
      | native l => rw [Node.body_bind_native hb, Node.body_bind_native (hmc.trans hb)]
      | reference k b => rw [Node.body_bind_reference hb, Node.body_bind_reference (hmc.trans hb)]
  obtain ⟨c, hc, rfl | ⟨hx, f, rfl⟩⟩ := (Graph.refans_route g outputs fans).row hm
  · obtain ⟨hform, hint, hout, hb⟩ := hbody m rfl
    exact ⟨m, hc, hform, hint, fun _ => hout, hb⟩
  · obtain ⟨hform, hint, -, hb⟩ := hbody c rfl
    exact ⟨c, hc, (Node.Fades.modifyFan c 0 _).sameForm.trans hform, hint, fun ho => absurd hx ho,
      hb⟩

namespace Engaged

variable {e₁ : Engine}

theorem acquired (hE : Engaged e e₁ e' id n k p j) (h : Sound (.rest e)) : Acquired e e₁ p j := by
  have hspec : Acquired e (e.acquire id p).2 p (e.acquire id p).1 := acquire_spec h hE.prototype
  rw [hE.got] at hspec
  exact hspec

/-- Nodes stay when a reference is bound. -/
theorem live (hE : Engaged e e₁ e' id n k p j) {x : NodeId} {c : Node}
    (hc : e₁.graph.get? x = some c) : ∃ c', e'.graph.get? x = some c' := by
  obtain ⟨m, hm⟩ := (Graph.refans_route e₁.graph j.outputs n.outputs).live hc
  rw [hE.graph, Graph.handOver, Slots.get?_modify, hm]
  split
  · exact ⟨_, rfl⟩
  · exact ⟨m, rfl⟩

/-- The reference holds the instance. -/
theorem bound (hE : Engaged e e₁ e' id n k p j) (h : Sound (.rest e))
    (hn : e.graph.get? id = some n) (hb : n.body = .reference k none) :
    ∃ c', e'.graph.get? id = some c' ∧ c'.body = .reference k (some j) := by
  obtain ⟨c', hc'⟩ := hE.live ((hE.acquired h).keep id n hn)
  obtain ⟨c, hc, -, -, -, hbody⟩ := row_engaged (hE.graph ▸ hc')
  cases hc.symm.trans ((hE.acquired h).keep id n hn)
  rw [if_pos rfl, Node.body_bind_reference hb] at hbody
  exact ⟨c', hc', hbody⟩

/-- Binding touches nodes of instances only in the way on from the outputs. -/
theorem kept (hE : Engaged e e₁ e' id n k p j) (h : Sound (.rest e)) (h' : Sound (.rest e'))
    (hn : e.graph.get? id = some n) (hb : n.body = .reference k none)
    (hi : i ∈ Work.instances (.rest e')) : i.Kept e₁.graph e'.graph := by
  intro x hx c hc
  obtain ⟨c', hc', -⟩ := h'.owning.internal_of_mem hi hx
  have hrow : e'.graph.get? x = some c' := hc'
  rw [hE.graph] at hrow
  obtain ⟨m, hm, hform, -, hout, -⟩ := row_engaged hrow
  cases hc.symm.trans hm
  refine ⟨c', hc', hform, fun ho => hout fun hxj => ho ?_⟩
  obtain ⟨d, hd, hdb⟩ := hE.bound h hn hb
  have hmem : j ∈ Work.instances (.rest e') := InstanceOf.mem (.inl ⟨id, d, hd, hdb⟩)
  rwa [h'.owning.eq_of_mem hi hmem hx (h'.owning.outputs_subset hmem hxj)]

end Engaged

/-! ## Instances before and after a change -/

/-- An instance of which there is a prototype, as there always is. -/
theorem prototype?_of_instanceOf (h : Sound (.rest e)) (hi : e.InstanceOf k i) :
    ∃ p, e.prototype? k = some p := by
  rcases hi with ⟨x, m, hm, hb⟩ | ⟨p, hp, -⟩
  · obtain ⟨p, hp, -⟩ := prototype?_of_reference h hm hb
    exact ⟨p, hp⟩
  · exact ⟨p, hp⟩

theorem Restores.of_alike (h : Sound (.rest e)) (ha : Graph.Alike e.graph e'.graph)
    (hr : e'.registry = e.registry) : Restores e e' where
  named := by
    intro k p hp
    rw [prototype?, hr] at hp
    exact h.named k p hp
  instanceOf := by
    rintro k i (⟨x, m', hm', hb'⟩ | ⟨p, hp, hi⟩)
    · obtain ⟨m, hm, hal⟩ := ha.row hm'
      rcases hal.body with hb | ⟨l, l', -, hb, -⟩
      · exact .inl ⟨x, m, hm, hb.symm.trans hb'⟩
      · rw [hb] at hb'
        cases hb'
    · rw [prototype?, hr] at hp
      exact .inr ⟨p, hp, hi⟩

/-- A copy of the template of `k`, made in the course of a change. -/
def FreshlyMade (e e' : Engine) (k : Key) (i : Instance) : Prop :=
  ∃ p f, e.prototype? k = some p ∧ i.revision = p.revision ∧ p.CopiedIn e'.graph i f

/-- Besides the instances there were, a binding may have made one. -/
theorem bind_instanceOf (h : Sound (.rest e)) (h' : Sound (.rest e')) (hd : e.Drawn)
    (hn : e.graph.get? id = some n) (hb : n.body = .reference k none)
    (he : e.engage id = .ok e') {k' : Key} (hi : e'.InstanceOf k' i) :
    e.InstanceOf k' i ∨ FreshlyMade e e' k' i := by
  obtain ⟨p, j, e₁, hE⟩ := engage_engaged h hn hb he
  have hacq := hE.acquired h
  have hold : e₁.InstanceOf k' i → e.InstanceOf k' i := by
    intro hi
    have hgot : (e.acquire id p).2.InstanceOf k' i := by
      rw [hE.got]
      exact hi
    exact acquire_instanceOf h hE.prototype hgot
  rcases hi with ⟨x, c', hc', hb'⟩ | ⟨q, hq, hi⟩
  · obtain ⟨c, hc, -, -, -, hbody⟩ := row_engaged (hE.graph ▸ hc')
    by_cases hx : x = id
    · -- the reference itself, with the instance that was got for it
      subst hx
      cases hc.symm.trans (hacq.keep x n hn)
      rw [if_pos rfl, Node.body_bind_reference hb, hb'] at hbody
      cases hbody
      have hcases := e.acquire_cases x p
      rw [hE.got] at hcases
      rcases hcases with ⟨pool, hpool, -, -⟩ | ⟨hmade, hg, -⟩
      · refine .inl (.inr ⟨p, hE.prototype, ?_⟩)
        rw [hpool]
        exact List.mem_cons_self
      · have htidy : e.graph.Tidy := h.tidy
        have hwell := h.templates k p hE.prototype
        obtain ⟨f, hf, -⟩ := Prototype.instantiate_copiedIn htidy hwell
          (hd k p hE.prototype).plugged e.nextInstance e.world.heap
        rw [← hmade, ← hg] at hf
        have hkept := hE.kept h h' hn hb (InstanceOf.mem (.inl ⟨x, c', hc', hb'⟩))
        have hrev : i = (p.instantiate e.nextInstance e.graph e.world.heap).1 := hmade
        refine .inr ⟨p, f, hE.prototype, ?_, hf.of_kept hwell hkept⟩
        rw [hrev]
        rfl
    · rw [if_neg hx] at hbody
      exact .inl (hold (.inl ⟨x, c, hc, hbody.symm.trans hb'⟩))
  · rw [prototype?, hE.registry] at hq
    exact .inl (hold (.inr ⟨q, hq, hi⟩))

/-- An instance there is after a change was an instance before of the same prototype, or is a new
copy of the template. -/
theorem Change.instanceOf (h : Sound (.rest e)) (h' : Sound (.rest e')) (hd : e.Drawn)
    (hc : Change scope e e') (hi : e'.InstanceOf k i) : e.InstanceOf k i ∨ FreshlyMade e e' k i := by
  have hfades : Graph.Fades e.graph e'.graph → e'.registry = e.registry → e.InstanceOf k i :=
    fun hf hr => (Restores.of_fades h.named hf (congrArg _ hr)).instanceOf k i hi
  cases hc with
  | feed _ alike registry => exact .inl ((Restores.of_alike h alike registry).instanceOf k i hi)
  | file _ graph registry =>
    exact .inl ((Restores.of_fades h.named (graph ▸ .refl _) (registry ▸ rfl)).instanceOf k i hi)
  | bind _ get body _ engaged => exact bind_instanceOf h h' hd get body engaged hi
  | tear _ restores => exact .inl (restores.instanceOf k i hi)
  | @place n _ fresh graph registry =>
    have htidy : e.graph.Tidy := h.tidy
    rcases hi with ⟨x, m, hm, hb⟩ | ⟨p, hp, hi⟩
    · rw [graph, Slots.get?_add htidy] at hm
      split at hm
      · cases hm
        have hnone := fresh.blank.instance?
        rw [Node.instance?_of_reference hb] at hnone
        cases hnone
      · exact .inl (.inl ⟨x, m, hm, hb⟩)
    · rw [prototype?, registry] at hp
      exact .inl (.inr ⟨p, hp, hi⟩)
  | relead _ _ _ _ graph registry =>
    exact .inl (hfades (graph ▸ (rewires_releaded e _ _).fades) registry)
  | erase _ _ _ graph registry => exact .inl (hfades (graph ▸ Graph.Fades.erase e.graph _) registry)
  | @declare key inputs outputs fresh graph registry =>
    rcases hi with ⟨x, m, hm, hb⟩ | ⟨p, hp, hi⟩
    · exact .inl (.inl ⟨x, m, graph ▸ hm, hb⟩)
    · have hget : e'.prototype? k =
          if k = key then some (Prototype.declare key inputs outputs) else e.prototype? k := by
        rw [prototype?, registry]
        exact Table.get?_insert _ _ _ _
      rw [hget] at hp
      split at hp
      · cases hp
        cases hi
      · exact .inl (.inr ⟨p, hp, hi⟩)
  | @replace key p q w get keyed template start moves registry =>
    have hrestore : Restores (e.putPrototype q) e' :=
      .of_fades start.named moves.fades (congrArg _ registry)
    rcases hrestore.instanceOf k i hi with hi | ⟨r, hr, hi⟩
    · exact .inl (.inl hi)
    · have hget : (e.putPrototype q).prototype? k = if k = q.key then some q else e.prototype? k :=
        Table.get?_insert _ _ _ _
      have hpool : q.pool = [] := by
        rcases template with rfl | ⟨heap, d, -, rfl⟩
        · rfl
        · rfl
      rw [hget] at hr
      split at hr
      · cases hr
        rw [hpool] at hi
        cases hi
      · exact .inl (.inr ⟨r, hr, hi⟩)

/-- No change touches more of an instance than its signals, its bindings and the way on from its
outputs. -/
theorem Change.kept (h : Sound (.rest e)) (h' : Sound (.rest e')) (hc : Change scope e e')
    (hi : i ∈ Work.instances (.rest e)) (hi' : i ∈ Work.instances (.rest e')) :
    i.Kept e.graph e'.graph := by
  cases hc with
  | feed _ alike _ =>
    intro x _ c hc
    obtain ⟨c', hc', ha⟩ := alike.live hc
    exact ⟨c', hc', ha.sameForm, fun _ => ha.outputs⟩
  | file _ graph _ => exact .of_eq fun _ _ => by rw [graph]
  | bind _ get body _ engaged =>
    obtain ⟨p, j, e₁, hE⟩ := engage_engaged h get body engaged
    have hgot : i.Kept e.graph e₁.graph := fun x _ c hc =>
      ⟨c, (hE.acquired h).keep x c hc, .refl c, fun _ => rfl⟩
    exact hgot.trans (hE.kept h h' get body hi')
  | tear moves _ => exact moves.kept h hi'
  | @place n _ _ graph _ =>
    have htidy : e.graph.Tidy := h.tidy
    intro x _ c hc
    refine ⟨c, ?_, .refl c, fun _ => rfl⟩
    rw [graph]
    exact Slots.get?_add_of_some htidy n hc
  | @relead source n change _ get visible _ graph _ =>
    intro x hx c hc
    have hrewires := rewires_releaded e source change
    rw [← graph] at hrewires
    obtain ⟨c', hc'⟩ := hrewires.live x c hc
    refine ⟨c', hc', (hrewires.fades.node hc hc').sameForm, fun ho => ?_⟩
    have hne : e.boundOutput? source ≠ some x := fun hb =>
      ho (owner_of_boundOutput? h hi hx hb).2
    have hsame : (e.releaded source change).get? x = e.graph.get? x :=
      get?_releaded_inner h ⟨n, get, visible⟩ hi hx hne
    rw [← graph, hc', hc] at hsame
    cases hsame
    rfl
  | @erase id _ visible _ graph _ =>
    intro x hx c hc
    have hne : x ≠ id := by
      rintro rfl
      exact visible (h.owning.internal_of_mem hi hx)
    refine ⟨c.forget id, ?_, (Node.Fades.forget id c).sameForm, fun ho => ?_⟩
    · rw [graph]
      exact Graph.live_erase hne hc
    · -- inside an instance nothing leads to a visible node
      refine Node.outputs_forget ((h.wired.inner i hi x hx ho c hc).imp fun y hy => ?_)
      rintro rfl
      exact visible (h.owning.internal_of_mem hi hy)
  | declare _ graph _ => exact .of_eq fun _ _ => by rw [graph]
  | replace _ _ _ start moves _ => exact moves.kept start hi'

/-! ## All instances of an engine -/

/-- Every instance was copied from a revision that its prototype has or had, and where that is the
present one, it is like the template. -/
def Faithful (e : Engine) : Prop :=
  ∀ k p i, e.prototype? k = some p → e.InstanceOf k i →
    i.revision ≤ p.revision ∧ (i.revision = p.revision → ∃ f, p.CopiedIn e.graph i f)

theorem Change.faithful (h : Sound (.rest e)) (h' : Sound (.rest e')) (hc : Change scope e e')
    (hd : e.Drawn) (hf : e.Faithful) : e'.Faithful := by
  intro k q i hq hi
  have horigin := hc.instanceOf h h' hd hi
  -- the prototype as it was before the change
  have hbefore : ∀ p, e.prototype? k = some p → i.revision ≤ p.revision ∧
      (i.revision = p.revision → ∃ f, p.CopiedIn e'.graph i f) := by
    intro p hp
    rcases horigin with hold | ⟨p', f, hp', hrev, hcopy⟩
    · obtain ⟨hle, hlike⟩ := hf k p i hp hold
      refine ⟨hle, fun hrev => ?_⟩
      obtain ⟨f, hcopy⟩ := hlike hrev
      exact ⟨f, hcopy.of_kept (h.templates k p hp) (hc.kept h h' hold.mem hi.mem)⟩
    · cases hp.symm.trans hp'
      exact ⟨hrev.le, fun _ => ⟨f, hcopy⟩⟩
  rcases hc.template h hq with ⟨p, hp, hb⟩ | ⟨inputs, outputs, hfresh, -⟩ | ⟨p, heap, d, hp, -, rfl⟩
  · obtain ⟨hle, hlike⟩ := hbefore p hp
    have hr : q.bare.revision = p.bare.revision := by rw [hb]
    have hg : q.bare.graph = p.bare.graph := by rw [hb]
    have hin : q.bare.inputs = p.bare.inputs := by rw [hb]
    have hout : q.bare.outputs = p.bare.outputs := by rw [hb]
    refine ⟨hle.trans hr.ge, fun hrev => ?_⟩
    obtain ⟨f, hcopy⟩ := hlike (hrev.trans hr)
    exact ⟨f, hcopy.congr hg hin hout⟩
  · -- nothing is an instance of what was not registered
    have hnone : e.prototype? k = none := prototype?_of_not_contains (by rw [hfresh]; decide)
    obtain ⟨p, hp⟩ : ∃ p, e.prototype? k = some p := by
      rcases horigin with hold | ⟨p, f, hp, -⟩
      · exact prototype?_of_instanceOf h hold
      · exact ⟨p, hp⟩
    rw [hnone] at hp
    cases hp
  · have hle := (hbefore p hp).1
    refine ⟨Nat.le_succ_of_le hle, fun hrev => ?_⟩
    have hlt : i.revision = p.revision + 1 := hrev
    omega

theorem faithful_after (settings : Settings) (console : Console) (commands : List Command) :
    ((fresh settings console).after commands).Faithful := by
  have hboth : ((fresh settings console).after commands).Drawn ∧
      ((fresh settings console).after commands).Faithful := by
    refine after_induct (P := fun e => e.Drawn ∧ e.Faithful) (fun h h' hc he => ?_) ⟨?_, ?_⟩ commands
    · exact ⟨hc.drawn h he.1, hc.faithful h h' he.1 he.2⟩
    · exact drawn_fresh settings console
    · intro k p i hp
      cases hp
  exact hboth.2

end Engine

end PulseFlow
