import PulseFlow.Proofs.Fidelity
import PulseFlow.Proofs.Ownership

/-!
# Connections stay where they belong

Whatever leads somewhere leads to an input that is there.  A visible node leads to visible nodes, a
node of an instance to nodes of the instance.  Only the outputs of an instance lead out of it, to
where the reference is that holds it, and nowhere while the instance waits in a pool (`Enclosed`).

So nothing that is sent on gets lost.  All that is reported as lost was reported so by the logic of
a node, not by the engine (`lost_fire`).

    ((fresh settings console).after commands).Enclosed                   (enclosed_after)
-/

namespace PulseFlow

namespace Graph

variable {g g' : Graph} {s t source : Socket} {change : Fan → Fan}

theorem HasInput.of_fades (h : HasInput g t) (hf : Fades g g')
    (hlive : ∃ n', g'.get? t.node = some n') : HasInput g' t := by
  obtain ⟨n, hn, hp⟩ := h
  obtain ⟨n', hn'⟩ := hlive
  refine ⟨n', hn', ?_⟩
  rw [(hf.node hn hn').inputs]
  exact hp

/-- An output led elsewhere leads where it led before, or to what is added. -/
theorem leads_of_modifyFan (source : Socket) {P : Socket → Prop}
    (hchange : ∀ f, ∀ t ∈ change f, t ∈ f ∨ P t)
    (hl : Leads (g.modify source.node fun n => n.modifyFan source.port change) s t) :
    Leads g s t ∨ P t := by
  by_cases hs : s = source
  · subst hs
    obtain ⟨n, f, hn, hf, ht⟩ := leads_modifyFan_self.1 hl
    exact (hchange f t ht).imp_left fun ht => ⟨n, f, hn, hf, ht⟩
  · exact .inl ((leads_modifyFan_of_ne hs).1 hl)

theorem Plugged.of_alike (h : Plugged g) (ha : Alike g g') : Plugged g' := by
  intro s t hl
  obtain ⟨m', hm'⟩ := hl.live
  obtain ⟨m, hm, hm''⟩ := ha.row hm'
  refine (h s t ((leads_congr hm hm' hm''.outputs).1 hl)).of_sameForm fun n hn => ?_
  obtain ⟨n', hn', hn''⟩ := ha.live hn
  exact ⟨n', hn', hn''.sameForm⟩

end Graph

/-- Taking instances apart makes nothing lead anywhere anew. -/
theorem Move.leads {S : NodeId → Prop} {w w' : Work} (m : Move S w w') {s t : Socket}
    (hl : Graph.Leads w'.engine.graph s t) : Graph.Leads w.engine.graph s t := by
  cases m with
  | report v => exact hl
  | take hi hS =>
    obtain ⟨n', hn'⟩ := hl.live
    obtain ⟨n, hn, rfl | ⟨-, rfl⟩⟩ := Graph.row_unbind hn'
    · exact (Graph.leads_congr hn hn' rfl).1 hl
    · exact (Graph.leads_congr hn hn' (Node.outputs_bind n none)).1 hl
  | unroute hi hS =>
    obtain ⟨n', f, hn', hf, ht⟩ := hl
    have hrow := Graph.get?_unroute _ _ s.node ▸ hn'
    split at hrow
    · obtain ⟨n, hn, rfl⟩ := Option.map_eq_some_iff.1 hrow
      rw [Node.fan?_modifyFan] at hf
      split at hf
      · obtain ⟨f', -, rfl⟩ := Option.map_eq_some_iff.1 hf
        exact absurd ht (SortedSet.not_mem_empty t)
      · exact ⟨n, f, hn, hf, ht⟩
    · exact ⟨n', f, hrow, hf, ht⟩
  | pool hp hfit hidle => exact hl
  | breakUp => exact hl
  | vacate hid hstale hS =>
    obtain ⟨n, f, hn, hf, ht⟩ := hl
    exact ⟨n, f, (Graph.row_vacate hn).2, hf, ht⟩
  | flush hgone => exact hl

theorem Moves.leads {S : NodeId → Prop} {w w' : Work} (m : Moves S w w') {s t : Socket}
    (hl : Graph.Leads w'.engine.graph s t) : Graph.Leads w.engine.graph s t := by
  induction m with
  | refl => exact hl
  | tail _ hstep ih => exact ih (hstep.leads hl)

namespace Engine

variable {e e' e₁ : Engine} {scope : Scope} {i j : Instance} {id r o : NodeId} {k : Key}
  {p : Prototype} {n : Node} {s t : Socket}

/-! ## Owners -/

/-- Two nodes that are both visible or both of one instance. -/
def SameOwner (e : Engine) (a b : NodeId) : Prop :=
  (Graph.Visible e.graph a ∧ Graph.Visible e.graph b) ∨
    ∃ place i, e.at? place = some i ∧ a ∈ i.nodes ∧ b ∈ i.nodes

theorem SameOwner.live (h : Sound (.rest e)) {a b : NodeId} (hab : e.SameOwner a b) :
    ∃ n, e.graph.get? b = some n := by
  rcases hab with ⟨-, n, hn, -⟩ | ⟨place, i, hi, -, hb⟩
  · exact ⟨n, hn⟩
  · obtain ⟨n, hn, -⟩ := h.owning.internal_of_mem (mem_instances_of_at? hi) hb
    exact ⟨n, hn⟩

/-- What is not an output of an instance leads to what has the same owner. -/
theorem sameOwner_of_leads (h : Sound (.rest e)) (hl : Graph.Leads e.graph s t)
    (hs : ∀ i ∈ Work.instances (.rest e), s.node ∉ i.outputs) : e.SameOwner s.node t.node := by
  obtain ⟨n, hn⟩ := hl.live
  cases hint : n.internal with
  | false => exact .inl ⟨⟨n, hn, hint⟩, hl.node hn (h.wired.visible s.node n hn hint)⟩
  | true =>
    obtain ⟨i, hi, hm⟩ :=
      (h.owning.mem_of_internal ⟨n, hn, hint⟩).resolve_left List.not_mem_nil
    obtain ⟨place, hplace⟩ := exists_at? hi
    exact .inr ⟨place, i, hplace, hm, hl.node hn (h.wired.inner i hi s.node hm (hs i hi) n hn)⟩

/-- A bound reference is no output of an instance. -/
theorem not_output_of_bound (h : Sound (.rest e)) (hr : e.instance? r = some i)
    (hj : j ∈ Work.instances (.rest e)) : r ∉ j.outputs := by
  intro ho
  obtain ⟨n, hn, hi⟩ := Graph.instance?_eq_some_iff.1 hr
  have hnone := (h.wired.placeholder j hj r ho n hn).instance?
  rw [hi] at hnone
  cases hnone

/-- The fan of the placeholder of an output is that of the output. -/
theorem fans?_placeholder (h : Sound (.rest e)) (hn : e.graph.get? r = some n)
    (hi : n.instance? = some i) {port : Nat} (ho : i.outputs[port]? = some o) :
    ∃ f, n.fan? port = some f ∧ Graph.fans? e.graph o = some [f] := by
  have hmirror : i.outputs.map (Graph.fans? e.graph) = n.outputs.map fun f => some [f] :=
    h.wired.mirror r n i hn hi
  have hport : (i.outputs.map (Graph.fans? e.graph))[port]? = some (Graph.fans? e.graph o) := by
    rw [List.getElem?_map, ho, Option.map_some]
  rw [hmirror, List.getElem?_map, Option.map_eq_some_iff] at hport
  obtain ⟨f, hf, hfan⟩ := hport
  exact ⟨f, hf, hfan.symm⟩

/-- What the output of an instance leads to, the reference leads to that holds it. -/
theorem leads_of_output (h : Sound (.rest e)) (hr : e.instance? r = some i)
    (hs : s.node ∈ i.outputs) (hl : Graph.Leads e.graph s t) :
    ∃ port, Graph.Leads e.graph ⟨r, port⟩ t := by
  obtain ⟨n, hn, hi⟩ := Graph.instance?_eq_some_iff.1 hr
  obtain ⟨port, hport⟩ := List.mem_iff_getElem?.1 hs
  obtain ⟨f, hf, hfans⟩ := fans?_placeholder h hn hi hport
  obtain ⟨m, f', hm, hf', ht⟩ := hl.mem_outputs
  rw [Graph.fans?_of_get? hm, Option.some.injEq] at hfans
  rw [hfans, List.mem_singleton] at hf'
  exact ⟨port, n, f, hn, hf, hf' ▸ ht⟩

/-- The outputs of a pooled instance lead nowhere. -/
theorem not_leads_of_pooled (h : Sound (.rest e)) (hp : e.prototype? k = some p) (hi : i ∈ p.pool)
    (hs : s.node ∈ i.outputs) : ¬ Graph.Leads e.graph s t := by
  intro hl
  obtain ⟨n, f, hn, hf, ht⟩ := hl.mem_outputs
  rw [(h.idle k p hp i hi).dry s.node hs n hn, List.mem_singleton] at hf
  rw [hf] at ht
  exact SortedSet.not_mem_empty t ht

/-- The outputs of an instance lead to what has the same owner as the reference that holds it. -/
theorem sameOwner_of_output (h : Sound (.rest e)) (hr : e.instance? r = some i)
    (hs : s.node ∈ i.outputs) (hl : Graph.Leads e.graph s t) : e.SameOwner r t.node := by
  obtain ⟨port, hport⟩ := leads_of_output h hr hs hl
  exact sameOwner_of_leads h hport fun j hj => not_output_of_bound h hr hj

/-- Nothing leads to a node that is not there. -/
theorem live_of_leads (h : Sound (.rest e)) (hl : Graph.Leads e.graph s t) :
    ∃ n, e.graph.get? t.node = some n := by
  by_cases hs : ∀ i ∈ Work.instances (.rest e), s.node ∉ i.outputs
  · exact (sameOwner_of_leads h hl hs).live h
  · push Not at hs
    obtain ⟨i, hi, hs⟩ := hs
    rcases Work.mem_instances.1 hi with hi | ⟨r, hr⟩ | ⟨k, p, hp, hi⟩
    · cases hi
    · exact (sameOwner_of_output h hr hs hl).live h
    · exact absurd hl (not_leads_of_pooled h hp hi hs)

/-! ## Inputs that are there -/

/-- An instance that is got brings its own connections only. -/
theorem plugged_acquire (h : Sound (.rest e)) (hd : e.Drawn) (hg : Graph.Plugged e.graph)
    (hp : e.prototype? k = some p) (id : NodeId) : Graph.Plugged (e.acquire id p).2.graph := by
  rcases e.acquire_cases id p with ⟨pool, -, hgraph, -⟩ | ⟨-, hgraph, -⟩
  · rw [hgraph]
    exact hg
  · rw [hgraph]
    have htidy : e.graph.Tidy := h.tidy
    have hmade := Prototype.instantiate_made htidy (h.templates k p hp) e.nextInstance e.world.heap
    obtain ⟨f, hcopied, hleads⟩ := Prototype.instantiate_copiedIn htidy (h.templates k p hp)
      (hd k p hp).plugged e.nextInstance e.world.heap
    revert hmade hcopied hleads
    generalize p.instantiate e.nextInstance e.graph e.world.heap = result
    intro hmade hcopied hleads s t hl
    by_cases hs : s.node ∈ result.1.nodes
    · obtain ⟨old, hold, hfold⟩ := hcopied.bijOn.surjOn hs
      obtain ⟨n, hn⟩ := Option.isSome_iff_exists.1 hold
      have hsource : s = ⟨f old, s.port⟩ := by rw [hfold]
      rw [hsource, hleads old n s.port t hn] at hl
      obtain ⟨t', ht', rfl⟩ := hl
      obtain ⟨m, hm, hport⟩ := (hd k p hp).plugged _ _ ht'
      obtain ⟨c, hc, -, hform⟩ := hcopied.form t'.node m hm
      exact ⟨c, hc, hform.inputs ▸ hport⟩
    · obtain ⟨n, fan, hn, hfan, ht⟩ := hl
      obtain ⟨m, hm, hport⟩ := hg s t ⟨n, fan, hmade.keep s.node hs ▸ hn, hfan, ht⟩
      have hnew : t.node ∉ result.1.nodes := fun hmem => by
        rw [hmade.fresh t.node hmem] at hm
        cases hm
      exact ⟨m, (hmade.keep t.node hnew).trans hm, hport⟩

theorem Engaged.plugged (hE : Engaged e e₁ e' id n k p j) (h : Sound (.rest e))
    (h' : Sound (.rest e')) (hn : e.graph.get? id = some n) (hb : n.body = .reference k none)
    (hg : Graph.Plugged e₁.graph) : Graph.Plugged e'.graph := by
  obtain ⟨d, hd, hdb⟩ := hE.bound h hn hb
  have hbound : e'.instance? id = some j :=
    Graph.instance?_eq_some_iff.2 ⟨d, hd, Node.instance?_of_reference hdb⟩
  have hown : id ∉ j.outputs :=
    not_output_of_bound h' hbound (Sound.mem_of_bound (w := .rest e') hbound)
  have hinput : ∀ {s t}, Graph.Leads e'.graph s t → s.node ∉ j.outputs →
      Graph.HasInput e'.graph t := by
    intro s t hl hs
    obtain ⟨c', hc'⟩ := hl.live
    obtain ⟨c, hc, -, -, hout, -⟩ := row_engaged (hE.graph ▸ hc')
    refine (hg s t ((Graph.leads_congr hc hc' (hout hs)).1 hl)).of_sameForm fun m hm => ?_
    obtain ⟨m', hm'⟩ := hE.live hm
    obtain ⟨x, hx, hform, -⟩ := row_engaged (hE.graph ▸ hm')
    cases hm.symm.trans hx
    exact ⟨m', hm', hform⟩
  intro s t hl
  by_cases hs : s.node ∈ j.outputs
  · -- the outputs lead where the reference leads
    obtain ⟨port, hport⟩ := leads_of_output h' hbound hs hl
    exact hinput hport hown
  · exact hinput hl hs

theorem plugged_releaded {source : Socket} {change : Fan → Fan} (hg : Graph.Plugged e.graph)
    (hchange : ∀ f, ∀ t ∈ change f, t ∈ f ∨ Graph.HasInput e.graph t) :
    Graph.Plugged (e.releaded source change) := by
  intro s t hl
  have hinput : Graph.Leads e.graph s t ∨ Graph.HasInput e.graph t := by
    unfold releaded at hl
    split at hl
    · next o ho =>
      rcases Graph.leads_of_modifyFan ⟨o, 0⟩ hchange hl with hl | ht
      · exact Graph.leads_of_modifyFan source hchange hl
      · exact .inr ht
    · exact Graph.leads_of_modifyFan source hchange hl
  have hrewires := rewires_releaded e source change
  have ht : Graph.HasInput e.graph t := hinput.elim (hg s t) id
  obtain ⟨n, hn⟩ := ht.live
  exact ht.of_fades hrewires.fades (hrewires.live t.node n hn)

/-- What leads somewhere leads to an input after every change, too.  Where instances are taken apart
it is the soundness of the engine afterwards by which the nodes are still there. -/
theorem Change.plugged (h : Sound (.rest e)) (h' : Sound (.rest e')) (hc : Change scope e e')
    (hd : e.Drawn) (hg : Graph.Plugged e.graph) : Graph.Plugged e'.graph := by
  cases hc with
  | feed _ alike _ => exact hg.of_alike alike
  | file _ graph _ => exact graph ▸ hg
  | @bind id n k _ get body _ engaged =>
    obtain ⟨p, j, e₁, hE⟩ := engage_engaged h get body engaged
    have hgot := plugged_acquire h hd hg hE.prototype id
    rw [hE.got] at hgot
    exact hE.plugged h h' get body hgot
  | tear moves _ =>
    exact fun s t hl => (hg s t (moves.leads hl)).of_fades moves.fades (live_of_leads h' hl)
  | @place n _ fresh graph _ =>
    have htidy : e.graph.Tidy := h.tidy
    rw [graph]
    exact fun s t hl => (hg s t ((Graph.leads_add htidy fresh.leads).1 hl)).add htidy n
  | relead _ _ _ targets graph _ =>
    rw [graph]
    exact plugged_releaded hg fun f t ht => (targets f t ht).imp_right And.right
  | erase _ _ _ graph _ =>
    rw [graph]
    intro s t hl
    obtain ⟨hl, -, ht⟩ := Graph.leads_erase.1 hl
    exact (hg s t hl).erase ht
  | declare _ graph _ => exact graph ▸ hg
  | replace _ _ _ _ moves _ =>
    exact fun s t hl => (hg s t (moves.leads hl)).of_fades moves.fades (live_of_leads h' hl)

/-! ## Enclosed engines -/

structure Enclosed (e : Engine) : Prop where
  /-- What leads somewhere leads to an input of a node that is there. -/
  plugged : Graph.Plugged e.graph
  visible : ∀ s t, Graph.Leads e.graph s t → Graph.Visible e.graph s.node →
    Graph.Visible e.graph t.node
  inner : ∀ place i s t, e.at? place = some i → Graph.Leads e.graph s t → s.node ∈ i.nodes →
    s.node ∉ i.outputs → t.node ∈ i.nodes
  /-- The outputs of a bound instance lead to where its reference is. -/
  exit : ∀ r i s t, e.at? (.reference r) = some i → Graph.Leads e.graph s t →
    s.node ∈ i.outputs → e.SameOwner r t.node
  /-- The outputs of a pooled instance lead nowhere. -/
  idle : ∀ key position i s t, e.at? (.pool key position) = some i → s.node ∈ i.outputs →
    ¬ Graph.Leads e.graph s t

theorem enclosed_of_sound (h : Sound (.rest e)) (hg : Graph.Plugged e.graph) : e.Enclosed where
  plugged := hg
  visible := by
    intro s t hl ⟨n, hn, hv⟩
    exact hl.node hn (h.wired.visible s.node n hn hv)
  inner := by
    intro place i s t hi hl hs ho
    obtain ⟨n, hn⟩ := hl.live
    exact hl.node hn (h.wired.inner i (mem_instances_of_at? hi) s.node hs ho n hn)
  exit := fun r i s t hi hl hs => sameOwner_of_output h hi hs hl
  idle := by
    intro key position i s t hi hs
    obtain ⟨p, hp, hi⟩ := Option.bind_eq_some_iff.1 hi
    exact not_leads_of_pooled h hp (List.mem_of_getElem? hi) hs

end Engine

/-! ## What gets lost -/

/-- Reports of signals that reached no input. -/
def Event.isLost : Event → Bool
  | .lostAtNode _ | .lostAtPort _ => true
  | _ => false

namespace World

/-- The signals that were reported as lost, oldest first. -/
def lost (w : World) : List Event := w.events.toList.filter Event.isLost

theorem lost_report {v : Event} (hv : v.isLost = false) (w : World) :
    (w.report v).lost = w.lost := by
  simp [lost, report, hv]

end World

namespace Engine

variable {e : Engine} {id : NodeId} {n : Node} {k : Key} {p : Prototype}

theorem alike_deliver (e : Engine) (target : Socket) (s : Signal) :
    Graph.Alike e.graph (e.deliver target s).graph := by
  unfold deliver
  split
  · exact .refl e.graph
  · next n hn =>
    have hput : ∀ m, n.Alike m → Graph.Alike e.graph (e.graph.modify target.node fun _ => m) := by
      intro m hm
      refine .modify fun n' hn' => ?_
      cases hn.symm.trans hn'
      exact hm
    have hstore := Node.Alike.store n target.port s
    dsimp only
    split
    · split
      · exact hput _ ⟨hstore.inputs, hstore.outputs, hstore.internal, hstore.body⟩
      · exact hput _ hstore
    · exact .refl e.graph

/-- A signal for an input that is there arrives. -/
theorem world_deliver {target : Socket} (h : Graph.HasInput e.graph target) (s : Signal) :
    (e.deliver target s).world = e.world := by
  obtain ⟨n, hn, hport⟩ := h
  unfold deliver
  rw [hn]
  dsimp only
  rw [if_pos hport]
  split
  · rfl
  · rfl

/-- The induction is on the targets; what is delivered changes neither nodes' ports nor where they
lead. -/
theorem emit_lost (h : Graph.Plugged e.graph) (source : Socket) (s : Signal) :
    Graph.Alike e.graph (e.emit source s).graph ∧ (e.emit source s).world.lost = e.world.lost := by
  have hfold : ∀ (targets : List Socket) (e₁ : Engine), Graph.Alike e.graph e₁.graph →
      (∀ t ∈ targets, Graph.HasInput e.graph t) →
      Graph.Alike e.graph (targets.foldl (fun e target => e.deliver target s) e₁).graph ∧
        (targets.foldl (fun e target => e.deliver target s) e₁).world = e₁.world := by
    intro targets
    induction targets with
    | nil => exact fun e₁ ha _ => ⟨ha, rfl⟩
    | cons t ts ih =>
      intro e₁ ha ht
      have hinput : Graph.HasInput e₁.graph t := by
        refine (ht t List.mem_cons_self).of_sameForm fun n hn => ?_
        obtain ⟨n', hn', halike⟩ := ha.live hn
        exact ⟨n', hn', halike.sameForm⟩
      obtain ⟨halike, hworld⟩ := ih (e₁.deliver t s) (ha.trans (e₁.alike_deliver t s))
        fun x hx => ht x (List.mem_cons_of_mem t hx)
      exact ⟨halike, hworld.trans (world_deliver hinput s)⟩
  unfold emit
  cases hfan : (e.graph.get? source.node).bind fun n => n.fan? source.port with
  | none => exact ⟨.refl e.graph, World.lost_report rfl e.world⟩
  | some fan =>
    obtain ⟨n, hn, hfan⟩ := Option.bind_eq_some_iff.1 hfan
    obtain ⟨halike, hworld⟩ := hfold fan.toList e (.refl e.graph) fun t ht =>
      h source t ⟨n, fan, hn, hfan, SortedSet.mem_toList.1 ht⟩
    exact ⟨halike, congrArg World.lost hworld⟩

/-- Sending out one signal after another. -/
theorem lost_foldl_emit {α : Type} (source : α → Socket) (signal : α → Signal) (xs : List α)
    (h : Graph.Plugged e.graph) :
    (xs.foldl (fun e x => e.emit (source x) (signal x)) e).world.lost = e.world.lost := by
  induction xs generalizing e with
  | nil => rfl
  | cons x xs ih =>
    obtain ⟨halike, hlost⟩ := emit_lost h (source x) (signal x)
    exact (ih (h.of_alike halike)).trans hlost

theorem lost_forward (h : Graph.Plugged e.graph) (id : NodeId) (inputs : List Signal) :
    (e.forward id inputs).world.lost = e.world.lost :=
  lost_foldl_emit (fun x : NodeId × Signal => ⟨x.1, 0⟩) (fun x => x.2) _ h

theorem lost_fireLogic (h : Graph.Plugged e.graph) {l : Logic} (hn : e.graph.get? id = some n)
    (hb : n.body = .native l) (inputs : List Signal) :
    (e.fireLogic id l inputs).world.lost = (l.fire inputs e.world).world.lost := by
  have halike : Graph.Alike e.graph
      (e.graph.modify id fun n => { n with body := .native (l.fire inputs e.world).logic }) := by
    refine .modify fun m hm => ?_
    cases hn.symm.trans hm
    exact ⟨rfl, rfl, rfl, .inr ⟨l, _, hb, rfl, l.sameKind_fire inputs e.world⟩⟩
  exact lost_foldl_emit (e := ⟨_, e.registry, e.pending, e.watch, e.settings, e.steps,
    e.nextInstance, (l.fire inputs e.world).world⟩) (fun m : Emission => ⟨id, m.port⟩)
    (fun m => m.signal) _ (h.of_alike halike)

theorem lost_traceFiring (e : Engine) (id : NodeId) (n : Node) :
    (e.traceFiring id n).world.lost = e.world.lost := by
  unfold traceFiring
  split
  · exact World.lost_report rfl e.world
  · rfl

theorem lost_acquire (e : Engine) (id : NodeId) (p : Prototype) :
    (e.acquire id p).2.world.lost = e.world.lost := by
  unfold acquire
  split
  · exact World.lost_report rfl e.world
  · exact World.lost_report rfl _

/-- The world as what a node does leaves it, before anything is sent on. -/
def reaction (e : Engine) (id : NodeId) (inputs : List Signal) : World :=
  match e.graph.get? id with
  | none => e.world
  | some n =>
    match n.body with
    | .native l => (l.fire inputs (e.traceFiring id n).world).world
    | .reference .. => e.world

/-- Firing a node loses nothing that is sent on. -/
theorem lost_fire (h : Sound (.rest e)) (hd : e.Drawn) (hg : Graph.Plugged e.graph)
    (hid : ¬ e.Pooled id) (inputs : List Signal) :
    (e.fire id inputs).2.world.lost = (e.reaction id inputs).lost := by
  unfold fire reaction
  cases hn : e.graph.get? id with
  | none => rfl
  | some n =>
    have htrace := traceFiring_feeds h id n
    have hgraph := graph_traceFiring e id n
    have hn' : (e.traceFiring id n).graph.get? id = some n := by rw [hgraph, hn]
    have hg' : Graph.Plugged (e.traceFiring id n).graph := by rwa [hgraph]
    have hid' : ¬ (e.traceFiring id n).Pooled id := fun hp => hid ((htrace.pooled_iff id).1 hp)
    have hlost := lost_traceFiring e id n
    dsimp only
    cases hb : n.body with
    | native l => exact lost_fireLogic hg' hn' hb inputs
    | reference k b =>
      cases b with
      | some i => exact (lost_forward hg' id inputs).trans hlost
      | none =>
        obtain ⟨e₁, hengage, hsound, -⟩ := engage_spec htrace.sound hn' hb hid'
        have hfeed : Change .all e (e.traceFiring id n) :=
          .feed (.inr hgraph) htrace.alike htrace.registry
        have hbind : Change .all (e.traceFiring id n) e₁ := .bind trivial hn' hb hid' hengage
        have hplugged := hbind.plugged htrace.sound hsound (hfeed.drawn h hd) hg'
        obtain ⟨p, j, e₂, hE⟩ := engage_engaged htrace.sound hn' hb hengage
        have hgot := lost_acquire (e.traceFiring id n) id p
        rw [hE.got, ← hE.world] at hgot
        dsimp only
        rw [hengage]
        exact (lost_forward hplugged id inputs).trans (hgot.trans hlost)

/-- A signal from outside arrives or is refused. -/
theorem world_pulse (e : Engine) (target : Socket) (s : Signal) :
    (e.pulse target s).2.world = e.world := by
  unfold pulse
  split
  · rfl
  · split
    · rfl
    · next u hcheck => exact world_deliver (Graph.hasInput_of_checkInput hcheck) s

/-- A node is in no pool when its turn in a wave comes. -/
theorem not_pooled_in_turn (h : Sound (.rest e)) {shots : List Shot} {shot : Shot}
    (hshots : shots ++ [shot] <+: (collect e.graph e.pending).1) :
    ¬ (e.collected.fireAll shots).2.Pooled shot.id := by
  obtain ⟨hsound, hflows⟩ := collected_spec h
  obtain ⟨e', hfire, -, hflows'⟩ := fireAll_spec hsound fun x hx =>
    not_pooled_of_mem_collect h (hshots.subset (List.mem_append_left [shot] hx))
  have hshot : shot ∈ (collect e.graph e.pending).1 :=
    hshots.subset (List.mem_append_right shots List.mem_cons_self)
  rw [hfire]
  exact fun hp => not_pooled_of_mem_collect h hshot
    (hflows.pooled (hflows'.pooled hp))

/-- All through the wave of an engine connections stay where they belong, and firing loses nothing
that is sent on. -/
def Lossless (e : Engine) : Prop :=
  ∀ shots shot, shots ++ [shot] <+: (collect e.graph e.pending).1 →
    let mid := (e.collected.fireAll shots).2
    mid.Enclosed ∧
      (mid.fire shot.id shot.inputs).2.world.lost = (mid.reaction shot.id shot.inputs).lost

theorem enclosed_after (settings : Settings) (console : Console) (commands : List Command) :
    let e := (fresh settings console).after commands
    e.Enclosed ∧ (∀ target s, (e.pulse target s).2.world = e.world) ∧
      ∀ w ∈ (fresh settings console).waves commands, w.Lossless := by
  have hkeep : ∀ {e e'}, Sound (.rest e) → Sound (.rest e') → Change .all e e' →
      Sound (.rest e) ∧ e.Drawn ∧ Graph.Plugged e.graph →
        Sound (.rest e') ∧ e'.Drawn ∧ Graph.Plugged e'.graph := fun h h' hc he =>
    ⟨h', hc.drawn h he.2.1, hc.plugged h h' he.2.1 he.2.2⟩
  have hstart : Sound (.rest (fresh settings console)) ∧ (fresh settings console).Drawn ∧
      Graph.Plugged (fresh settings console).graph := by
    refine ⟨(fresh_settled settings console).sound, drawn_fresh settings console, ?_⟩
    rintro s t ⟨n, f, hn, -⟩
    have hnone : (fresh settings console).graph.get? s.node = none := Slots.get?_empty s.node
    rw [hnone] at hn
    cases hn
  refine ⟨?_, world_pulse _, fun w hw shots shot hshots => ?_⟩
  · obtain ⟨hs, -, hg⟩ := after_induct hkeep hstart commands
    exact enclosed_of_sound hs hg
  · have hprefix := (List.prefix_append shots [shot]).trans hshots
    obtain ⟨hs, hd, hg⟩ := midwave_induct hkeep hstart hw hprefix
    exact ⟨enclosed_of_sound hs hg, lost_fire hs hd hg
      (not_pooled_in_turn (settled_of_mem_waves (fresh_settled settings console) hw).sound hshots)
      shot.inputs⟩

end Engine

end PulseFlow
