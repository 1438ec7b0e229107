import PulseFlow.Proofs.Enclosure

/-!
# Bound references lead where they seem to lead

What a bound reference leads to is stored twice, at the reference and at the outputs of its
instance.  The two agree port by port, so what leaves the instance goes where the reference leads
(`Transparent`).

Only three calls change where visible nodes lead, and they do so at the outputs of the instance as
well (`fan?_perform`, `fan?_placeholder_answer`).  As nothing else touches the connections of
visible nodes (`Change.steady`), the next instance that the reference is bound to gets them, too.

    ((fresh settings console).after commands).Transparent                (transparent_after)
-/

namespace PulseFlow

namespace Graph

/-- Where an output leads. -/
def fan? (g : Graph) (source : Socket) : Option Fan :=
  (g.get? source.node).bind fun n => n.fan? source.port

theorem fan?_of_get? {g : Graph} {s : Socket} {n : Node} (h : g.get? s.node = some n) :
    fan? g s = n.fan? s.port := by
  rw [fan?, h, Option.bind_some]

/-! ## Visible nodes -/

/-- Visible nodes stay where they are and lead where they led. -/
def Steady (g g' : Graph) : Prop :=
  ∀ x n, g.get? x = some n → n.internal = false →
    ∃ n', g'.get? x = some n' ∧ n'.internal = false ∧ n'.outputs = n.outputs

namespace Steady

variable {g g' g'' : Graph}

theorem refl (g : Graph) : Steady g g := fun _ n hn hv => ⟨n, hn, hv, rfl⟩

theorem trans (h : Steady g g') (h' : Steady g' g'') : Steady g g'' := by
  intro x n hn hv
  obtain ⟨n', hn', hv', ho⟩ := h x n hn hv
  obtain ⟨n'', hn'', hv'', ho'⟩ := h' x n' hn' hv'
  exact ⟨n'', hn'', hv'', ho'.trans ho⟩

theorem fan? (h : Steady g g') {source : Socket} (hv : Visible g source.node) :
    Graph.fan? g' source = Graph.fan? g source := by
  obtain ⟨n, hn, hv⟩ := hv
  obtain ⟨n', hn', -, ho⟩ := h source.node n hn hv
  rw [fan?_of_get? hn, fan?_of_get? hn', Node.fan?, ho, Node.fan?]

end Steady

end Graph

theorem Move.live_of_visible {S : NodeId → Prop} {w w' : Work} (m : Move S w w') (h : Sound w)
    {x : NodeId} (hx : Graph.Visible w.engine.graph x) : ∃ c', w'.engine.graph.get? x = some c' := by
  obtain ⟨c, hc, hv⟩ := hx
  cases m with
  | take hi hS =>
    obtain ⟨c', hc', -⟩ := Graph.live_unbind hc
    exact ⟨c', hc'⟩
  | unroute hi hS => exact (Graph.refans_unroute _ _).live hc
  | @vacate e _ _ _ id hid hstale hS =>
    -- only nodes of instances are freed
    have hne : x ≠ id := by
      rintro rfl
      exact Graph.not_visible_of_internal
        ((h.owning.internal x).1 (List.mem_append_left _ List.mem_cons_self)) ⟨c, hc, hv⟩
    exact ⟨c, (Graph.get?_vacate_of_ne hne).trans hc⟩
  | report _ | pool _ _ _ | breakUp | flush _ => exact ⟨c, hc⟩

theorem Move.steady {S : NodeId → Prop} {w w' : Work} (m : Move S w w') (h : Sound w) :
    Graph.Steady w.engine.graph w'.engine.graph := by
  intro x n hn hv
  obtain ⟨n', hn'⟩ := m.live_of_visible h ⟨n, hn, hv⟩
  refine ⟨n', hn', (m.fades.node hn hn').internal.trans hv, m.outputs (fun j hj hxj => ?_) hn hn'⟩
  have hmem := Sound.mem_of_hand hj
  exact Graph.not_visible_of_internal
    (h.owning.internal_of_mem hmem (h.owning.outputs_subset hmem hxj)) ⟨n, hn, hv⟩

theorem Moves.steady {S : NodeId → Prop} {w w' : Work} (m : Moves S w w') (h : Sound w) :
    Graph.Steady w.engine.graph w'.engine.graph := by
  induction m with
  | refl => exact .refl _
  | tail hsteps hstep ih => exact ih.trans (hstep.steady (Moves.sound hsteps h))

namespace Engine

variable {e e' : Engine} {scope : Scope} {i : Instance} {id r o : NodeId} {n : Node}

/-- A change that is not a change of connections leaves visible nodes their connections. -/
theorem Change.steady (h : Sound (.rest e)) (h' : Sound (.rest e')) (hc : Change scope e e')
    (hw : ¬ scope.wiring) (herase : ¬ scope.erasing) : Graph.Steady e.graph e'.graph := by
  cases hc with
  | feed _ alike _ =>
    intro x n hn hv
    obtain ⟨n', hn', ha⟩ := alike.live hn
    exact ⟨n', hn', ha.internal.trans hv, ha.outputs⟩
  | file _ graph _ => exact graph ▸ .refl e.graph
  | bind _ get body _ engaged =>
    obtain ⟨p, j, e₁, hE⟩ := engage_engaged h get body engaged
    intro x n hn hv
    have hn₁ := (hE.acquired h).keep x n hn
    obtain ⟨n', hn'⟩ := hE.live hn₁
    obtain ⟨c, hc, -, hint, hout, -⟩ := row_engaged (hE.graph ▸ hn')
    cases hn₁.symm.trans hc
    refine ⟨n', hn', hint.trans hv, hout fun hxj => ?_⟩
    obtain ⟨d, hd, hdb⟩ := hE.bound h get body
    have hmem : j ∈ Work.instances (.rest e') := InstanceOf.mem (.inl ⟨_, d, hd, hdb⟩)
    exact Graph.not_visible_of_internal
      (h'.owning.internal_of_mem hmem (h'.owning.outputs_subset hmem hxj)) ⟨n', hn', hint.trans hv⟩
  | tear moves _ => exact moves.steady h
  | @place n _ _ graph _ =>
    have htidy : e.graph.Tidy := h.tidy
    intro x m hm hv
    refine ⟨m, ?_, hv, rfl⟩
    rw [graph]
    exact Slots.get?_add_of_some htidy n hm
  | relead wiring _ _ _ _ _ => exact absurd wiring hw
  | erase erasing _ _ _ _ => exact absurd erasing herase
  | declare _ graph _ => exact graph ▸ .refl e.graph
  | replace _ _ _ start moves _ => exact moves.steady start

theorem Changes.steady (hc : Changes scope e e') (hw : ¬ scope.wiring)
    (herase : ¬ scope.erasing) : Graph.Steady e.graph e'.graph :=
  Changes.induct (P := fun e' => Graph.Steady e.graph e'.graph)
    (fun h h' hc hs => hs.trans (hc.steady h h' hw herase)) hc (.refl e.graph)

/-! ## Calls that change connections -/

/-- What a call makes of the fan of an output. -/
def Call.rewire (e : Engine) (source : Socket) (f : Fan) : Call → Fan
  | .connect s t => if s = source ∧ (e.connect s t).1.isOk then f.insert t else f
  | .disconnect s => if s = source ∧ (e.disconnect s).1.isOk then ∅ else f
  | .remove d => if (e.remove d).1.isOk then f.filter fun t => t.node != d else f
  | _ => f

/-- What a command makes of the fan of an output. -/
def Command.rewire (e : Engine) (source : Socket) (f : Fan) : Command → Fan
  | .call c => c.rewire e source f
  | _ => f

/-- A call that is about connections. -/
def Call.Rewires : Call → Prop
  | .connect .. | .disconnect _ | .remove _ => True
  | _ => False

theorem fan?_releaded (h : Sound (.rest e)) {source s : Socket} (hv : Graph.Visible e.graph s.node)
    (hv' : Graph.Visible e.graph source.node) (change : Fan → Fan) :
    Graph.fan? (e.releaded s change) source =
      (Graph.fan? e.graph source).map fun f => if s = source then change f else f := by
  by_cases hnode : source.node = s.node
  · obtain ⟨n, hn, hv⟩ := hv
    have hget : (e.releaded s change).get? s.node = some (n.modifyFan s.port change) :=
      get?_releaded_source h hn hv
    rw [← hnode] at hn hget
    rw [Graph.fan?_of_get? hn, Graph.fan?_of_get? hget, Node.fan?_modifyFan]
    by_cases hport : s.port = source.port
    · have hs : s = source := by
        cases s
        cases source
        simp_all
      simp only [if_pos hport, if_pos hs]
    · have hs : s ≠ source := fun he => hport (he ▸ rfl)
      simp only [if_neg hport, if_neg hs, Option.map_id']
  · have hs : s ≠ source := fun he => hnode (he ▸ rfl)
    have hbound : e.boundOutput? s ≠ some source.node := fun ho =>
      Graph.not_visible_of_internal (boundOutput?_internal h ho) hv'
    rw [Graph.fan?, get?_releaded_of_ne hnode hbound]
    simp only [if_neg hs, Option.map_id', Graph.fan?]

/-- A node that is removed takes its instance along, and the connections into it. -/
theorem remove_cases (h : Sound (.rest e)) (d : NodeId) :
    (∃ err, e.remove d = (.error err, e)) ∨
      (e.remove d).1 = .ok () ∧ ∀ x, Graph.Visible e.graph x → x ≠ d →
        (e.remove d).2.graph.get? x = (e.graph.get? x).map (Node.forget d) := by
  unfold remove
  cases hv : e.visible d with
  | error err => exact .inl ⟨err, rfl⟩
  | ok n =>
    refine .inr ⟨rfl, fun x hx hne => ?_⟩
    have hwithdraw : Moves (fun x => x = d ∨ Graph.Internal e.graph x) (.rest e)
          (.rest (e.withdraw d)) ∧ (e.withdraw d).instance? d = none :=
      withdraw_moves h (.inl rfl) fun _ i _ hi _ hm =>
        .inr (h.owning.internal_of_mem (Sound.mem_of_bound (w := .rest e) hi) hm)
    have hkeep : (e.withdraw d).graph.get? x = e.graph.get? x := by
      refine hwithdraw.1.keep ?_
      rintro (rfl | hint)
      · exact hne rfl
      · exact Graph.not_visible_of_internal hint hx
    show (Graph.erase (e.withdraw d).graph d).get? x = _
    rw [Graph.get?_erase, if_neg (Ne.symm hne), hkeep]

/-! ### Their effect -/

theorem Call.rewire_of_not {c : Call} (hc : ¬ c.Rewires) (source : Socket) (f : Fan) :
    c.rewire e source f = f := by
  cases c with
  | connect | disconnect | remove => exact absurd trivial hc
  | _ => rfl

/-- Anything but changes of connections. -/
def Scope.unwired : Scope := ⟨fun _ => True, True, True, False, False⟩

theorem Call.needs_unwired {c : Call} (hc : ¬ c.Rewires) : c.Needs .unwired := by
  cases c with
  | connect | disconnect | remove => exact absurd trivial hc
  | _ => trivial

/-- Where a visible node leads after a call. -/
theorem fan?_answer (h : e.Settled) (c : Call) {source : Socket}
    (hv : Graph.Visible e.graph source.node) (hne : c ≠ .remove source.node) :
    Graph.fan? (e.answer c).graph source =
      (Graph.fan? e.graph source).map fun f => c.rewire e source f := by
  by_cases hc : c.Rewires
  · cases c with
    | connect s t =>
      show Graph.fan? (e.connect s t).2.graph source = _
      rcases e.connect_cases s t with ⟨err, he⟩ | ⟨hs, -, -, he⟩
      · simp [Call.rewire, he, Except.isOk, Except.toBool]
      · simp [Call.rewire, he, Except.isOk, Except.toBool, fan?_releaded h.sound hs hv]
    | disconnect s =>
      show Graph.fan? (e.disconnect s).2.graph source = _
      rcases e.disconnect_cases s with ⟨err, he⟩ | ⟨hs, he⟩
      · simp [Call.rewire, he, Except.isOk, Except.toBool]
      · simp [Call.rewire, he, Except.isOk, Except.toBool, fan?_releaded h.sound hs hv]
    | remove d =>
      show Graph.fan? (e.remove d).2.graph source = _
      have hd : source.node ≠ d := fun he => hne (he ▸ rfl)
      rcases remove_cases h.sound d with ⟨err, he⟩ | ⟨hok, hget⟩
      · simp [Call.rewire, he, Except.isOk, Except.toBool]
      · have hget := hget source.node hv hd
        obtain ⟨n, hn, -⟩ := hv
        rw [hn, Option.map_some] at hget
        rw [Graph.fan?_of_get? hn, Graph.fan?_of_get? hget, Node.forget, Node.fan?_mapFans]
        simp [Call.rewire, hok, Except.isOk, Except.toBool]
    | _ => cases hc
  · have hsteady : Changes .unwired e (e.answer c) :=
      answer_changes_of_needs (fun _ => trivial) h (Call.needs_unwired hc)
    rw [(hsteady.steady id id).fan? hv]
    simp only [Call.rewire_of_not hc, Option.map_id']

theorem fan?_perform (h : e.Settled) (c : Command) {source : Socket}
    (hv : Graph.Visible e.graph source.node) (hne : c ≠ .call (.remove source.node)) :
    Graph.fan? (e.perform c).graph source =
      (Graph.fan? e.graph source).map fun f => c.rewire e source f := by
  have hquiet : Changes .unwired e (e.perform c) →
      Graph.fan? (e.perform c).graph source = (Graph.fan? e.graph source).map fun f => f := by
    intro hsteady
    rw [(hsteady.steady id id).fan? hv, Option.map_id']
  cases c with
  | call c => exact fan?_answer h c hv fun he => hne (he ▸ rfl)
  | step =>
    refine hquiet ?_
    show Changes .unwired e e.step.2
    rw [step_eq h.sound]
    exact swept_changes trivial h.sound
  | run budget => exact hquiet (runFrom_changes trivial h.sound)

/-- References stay bound while connections are changed. -/
theorem instance?_answer (h : e.Settled) {c : Call} (hc : c.Rewires)
    (hv : Graph.Visible e.graph r) (hne : c ≠ .remove r) :
    (e.answer c).instance? r = e.instance? r := by
  cases c with
  | connect s t =>
    show (e.connect s t).2.instance? r = _
    rcases e.connect_cases s t with ⟨err, he⟩ | ⟨-, -, -, he⟩
    · rw [he]
    · rw [he]
      exact (rewires_releaded e s _).bound r
  | disconnect s =>
    show (e.disconnect s).2.instance? r = _
    rcases e.disconnect_cases s with ⟨err, he⟩ | ⟨-, he⟩
    · rw [he]
    · rw [he]
      exact (rewires_releaded e s _).bound r
  | remove d =>
    show (e.remove d).2.instance? r = _
    rcases remove_cases h.sound d with ⟨err, he⟩ | ⟨-, hget⟩
    · rw [he]
    · rw [instance?, hget r hv fun he => hne (he ▸ rfl), instance?]
      cases e.graph.get? r <;> rfl
  | _ => cases hc

/-! ## Transparent engines -/

/-- Each bound reference is fully wired to its instance. -/
structure Transparent (e : Engine) : Prop where
  inputs : ∀ r n i, e.graph.get? r = some n → e.instance? r = some i →
    i.inputs.length = n.inputs.length
  outputs : ∀ r n i, e.graph.get? r = some n → e.instance? r = some i →
    i.outputs.length = n.outputs.length
  fans : ∀ r i port o, e.instance? r = some i → i.outputs[port]? = some o →
    ∃ f, Graph.fan? e.graph ⟨r, port⟩ = some f ∧ Graph.fan? e.graph ⟨o, 0⟩ = some f
  /-- What leaves the instance goes where the reference leads. -/
  leaving : ∀ r i port o s, e.instance? r = some i → i.outputs[port]? = some o →
    e.emit ⟨o, 0⟩ s = e.emit ⟨r, port⟩ s

theorem fan?_placeholder (h : Sound (.rest e)) (hr : e.instance? r = some i) {port : Nat}
    (ho : i.outputs[port]? = some o) :
    ∃ f, Graph.fan? e.graph ⟨r, port⟩ = some f ∧ Graph.fan? e.graph ⟨o, 0⟩ = some f := by
  obtain ⟨n, hn, hi⟩ := Graph.instance?_eq_some_iff.1 hr
  obtain ⟨f, hf, hfans⟩ := fans?_placeholder h hn hi ho
  obtain ⟨c, hc, hout⟩ := Option.map_eq_some_iff.1 hfans
  refine ⟨f, ?_, ?_⟩
  · rw [Graph.fan?_of_get? (s := ⟨r, port⟩) hn, hf]
  · rw [Graph.fan?_of_get? (s := ⟨o, 0⟩) hc, Node.fan?, hout]
    rfl

theorem transparent_of_sound (h : Sound (.rest e)) : e.Transparent where
  inputs := by
    intro r n i hn hr
    obtain ⟨m, hm, hi⟩ := Graph.instance?_eq_some_iff.1 hr
    cases hn.symm.trans hm
    exact h.fitting r n i hn hi
  outputs := by
    intro r n i hn hr
    obtain ⟨m, hm, hi⟩ := Graph.instance?_eq_some_iff.1 hr
    cases hn.symm.trans hm
    have hmirror := congrArg List.length (h.wired.mirror r n i hn hi)
    rwa [List.length_map, List.length_map] at hmirror
  fans := fun r i port o hr ho => fan?_placeholder h hr ho
  leaving := by
    intro r i port o s hr ho
    obtain ⟨f, hf, hfo⟩ := fan?_placeholder h hr ho
    unfold emit
    rw [show (e.graph.get? r).bind (fun n => n.fan? port) = some f from hf,
      show (e.graph.get? o).bind (fun n => n.fan? 0) = some f from hfo]

/-- A change of connections at a bound reference is one at the outputs of its instance. -/
theorem fan?_placeholder_answer (h : e.Settled) {c : Call} (hc : c.Rewires)
    (hv : Graph.Visible e.graph r) (hne : c ≠ .remove r) (hr : e.instance? r = some i) {port : Nat}
    (ho : i.outputs[port]? = some o) :
    (e.answer c).instance? r = some i ∧
      Graph.fan? (e.answer c).graph ⟨o, 0⟩ =
        (Graph.fan? e.graph ⟨o, 0⟩).map fun f => c.rewire e ⟨r, port⟩ f := by
  have hbound := (instance?_answer h hc hv hne).trans hr
  obtain ⟨f, hf, hfo⟩ := fan?_placeholder h.sound hr ho
  obtain ⟨f', hf', hfo'⟩ := fan?_placeholder (answer_serves h c).settled.sound hbound ho
  have hrewire : Graph.fan? (e.answer c).graph ⟨r, port⟩ = _ := fan?_answer h c hv hne
  rw [hf', hf] at hrewire
  exact ⟨hbound, by rw [hfo', hrewire, hfo]⟩

theorem transparent_after (settings : Settings) (console : Console) (commands : List Command) :
    let e := (fresh settings console).after commands
    e.Transparent ∧
      -- what changes the connections of a bound reference changes those of its instance at once
      (∀ c r i port o, Call.Rewires c → c ≠ .remove r → Graph.Visible e.graph r →
        e.instance? r = some i → i.outputs[port]? = some o →
          (e.answer c).instance? r = some i ∧
            Graph.fan? (e.answer c).graph ⟨o, 0⟩ =
              (Graph.fan? e.graph ⟨o, 0⟩).map fun f => c.rewire e ⟨r, port⟩ f) ∧
      -- the connections last, whatever else is done
      (∀ c source, c ≠ .call (.remove source.node) → Graph.Visible e.graph source.node →
        Graph.fan? (e.perform c).graph source =
          (Graph.fan? e.graph source).map fun f => c.rewire e source f) ∧
      -- and all instances that are bound in a wave get them
      ∀ w ∈ (fresh settings console).waves commands,
        ∀ shots, shots <+: (collect w.graph w.pending).1 →
          (w.collected.fireAll shots).2.Transparent ∧
            ∀ source, Graph.Visible w.graph source.node →
              Graph.fan? (w.collected.fireAll shots).2.graph source = Graph.fan? w.graph source := by
  have hsettled := settled_after settings console commands
  refine ⟨transparent_of_sound hsettled.sound, ?_, ?_, ?_⟩
  · intro c r i port o hc hne hv hr ho
    exact fan?_placeholder_answer hsettled hc hv hne hr ho
  · intro c source hne hv
    exact fan?_perform hsettled c hv hne
  · intro w hw shots hshots
    have hsound := (settled_of_mem_waves (fresh_settled settings console) hw).sound
    have hmid : Changes .unwired w (w.collected.fireAll shots).2 :=
      midwave_changes trivial hsound hshots
    have hsound' : Sound (.rest (w.collected.fireAll shots).2) :=
      Changes.induct (P := fun e => Sound (.rest e)) (fun _ h' _ _ => h') hmid hsound
    exact ⟨transparent_of_sound hsound', fun source hv => (hmid.steady id id).fan? hv⟩

/-- A signal goes into node 0, which is bound to an instance and leads nowhere.  Node 1 prints. -/
def boundSession : List Command :=
  [.call (.register pairKey 1 1 pairCourse), .call (.create pairKey),
    .call (.create ⟨"IO", "Print"⟩), .call (.pulse ⟨0, 0⟩ (.int 1)), .step]

/-- A connection that is made now leads out of the instance as well. -/
theorem transparent_after_boundSession :
    let e := (fresh {} (.script {})).after boundSession
    let e' := e.answer (.connect ⟨0, 0⟩ ⟨1, 0⟩)
    e.Transparent ∧ ∃ i, e.instance? 0 = some i ∧ e'.instance? 0 = some i ∧ i.outputs = [3] ∧
      (Graph.fan? e.graph ⟨3, 0⟩).map SortedSet.toList = some [] ∧
      (Graph.fan? e'.graph ⟨3, 0⟩).map SortedSet.toList = some [⟨1, 0⟩] := by
  intro e e'
  obtain ⟨hvisible, hbound, hfan, hrewired⟩ :
      (e.graph.get? 0).map Node.internal = some false ∧
      (e.instance? 0).map Instance.outputs = some [3] ∧
      (Graph.fan? e.graph ⟨3, 0⟩).map SortedSet.toList = some [] ∧
      ((Graph.fan? e.graph ⟨3, 0⟩).map fun f =>
        Call.rewire e ⟨0, 0⟩ f (.connect ⟨0, 0⟩ ⟨1, 0⟩)).map SortedSet.toList = some [⟨1, 0⟩] := by
    decide +kernel
  have hv : Graph.Visible e.graph 0 := Option.map_eq_some_iff.1 hvisible
  obtain ⟨i, hi, hout⟩ := Option.map_eq_some_iff.1 hbound
  have hport : i.outputs[0]? = some 3 := by
    rw [hout]
    rfl
  have htransparent := transparent_after {} (.script {}) boundSession
  obtain ⟨hi', hfan'⟩ := htransparent.2.1 (.connect ⟨0, 0⟩ ⟨1, 0⟩) 0 i 0 3 trivial
    (fun he => by cases he) hv hi hport
  refine ⟨htransparent.1, i, hi, hi', hout, hfan, ?_⟩
  rw [hfan']
  exact hrewired

end Engine

end PulseFlow
