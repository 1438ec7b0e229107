import PulseFlow.Proofs.Identity

/-!
# What is not taken away

Signals get into the inputs of nodes by being delivered, and out of them when a wave begins.  All
else that happens to a graph leaves the inputs of the nodes that stay as they are, and new nodes
hold nothing (`Graph.Retains`): calls other than those that send a signal, the firing of a node up
to the point where it sends, and the sweep at the end of a wave.  None of these puts in nodes and
takes out others, so no number changes hands unseen.

    e.Settled → Retains e.graph (e.answer c).graph, if `c` sends nothing       (answer_retains)
-/

namespace PulseFlow

/-! ## Inputs -/

/-- Nodes are put in or taken out, not both, so a number that is in use before and after stands for
the same node. -/
def Graph.OneWay (g g' : Graph) : Prop :=
  (∀ id n', g'.get? id = some n' → ∃ n, g.get? id = some n) ∨
    ∀ id n, g.get? id = some n → ∃ n', g'.get? id = some n'

/-- Nodes that stay hold what they held, and new ones hold nothing. -/
structure Graph.Retains (g g' : Graph) : Prop where
  oneWay : OneWay g g'
  row : ∀ id n', g'.get? id = some n' →
    (∃ n, g.get? id = some n ∧ n'.inputs = n.inputs) ∨
      g.get? id = none ∧ ∀ s ∈ n'.inputs, s = none

namespace Graph

variable {g g' : Graph}

theorem OneWay.of_alike (h : Alike g g') : OneWay g g' := by
  refine .inr fun id n hn => ?_
  obtain ⟨n', hn', -⟩ := h.live hn
  exact ⟨n', hn'⟩

namespace Retains

theorem of_fades (h : Fades g g') : Retains g g' where
  oneWay := by
    refine .inl fun id n' hn' => ?_
    obtain ⟨n, hn, -⟩ := h id n' hn'
    exact ⟨n, hn⟩
  row := by
    intro id n' hn'
    obtain ⟨n, hn, hfade⟩ := h id n' hn'
    exact .inl ⟨n, hn, hfade.inputs⟩

theorem refl (g : Graph) : Retains g g := of_fades (.refl g)

theorem of_eq (h : g' = g) : Retains g g' := h ▸ refl g

theorem add {n : Node} (ht : g.Tidy) (hempty : ∀ s ∈ n.inputs, s = none) :
    Retains g (g.add n).2 where
  oneWay := .inr fun _ m hm => ⟨m, Slots.get?_add_of_some ht n hm⟩
  row := by
    intro id n' hn'
    rw [Slots.get?_add ht] at hn'
    split at hn'
    · next hid =>
      cases hn'
      rw [← hid]
      exact .inr ⟨Slots.get?_add_fst ht n, hempty⟩
    · exact .inl ⟨n', hn', rfl⟩

end Retains

end Graph

namespace Engine

variable {e e' e'' : Engine} {id : NodeId} {n : Node}

open PulseFlow.Graph (Retains)

/-! ## Calls -/

/-- Where nothing is sent, bound or placed, nodes only lose bindings and connections. -/
theorem Change.fades {scope : Scope} (hc : Change scope e e') (hrun : ¬ scope.running)
    (hplace : ¬ scope.placing) : Graph.Fades e.graph e'.graph := by
  cases hc with
  | feed running _ _ => exact running.resolve_left hrun ▸ .refl e.graph
  | file _ graph _ => exact graph ▸ .refl e.graph
  | bind running _ _ _ _ => exact absurd running hrun
  | tear moves _ => exact moves.fades
  | place placing _ _ _ => exact absurd placing hplace
  | relead _ _ _ _ graph _ => exact graph ▸ (rewires_releaded e _ _).fades
  | erase _ _ _ graph _ => exact graph ▸ .erase e.graph _
  | declare _ graph _ => exact graph ▸ .refl e.graph
  | replace _ _ _ _ moves _ => exact moves.fades

/-- Anything but running and placing. -/
def Scope.fading : Scope := ⟨fun _ => True, False, False, True, True⟩

theorem Changes.fades (h : Changes .fading e e') : Graph.Fades e.graph e'.graph :=
  Changes.induct (P := fun e' => Graph.Fades e.graph e'.graph)
    (fun _ _ hc hf => hf.trans (hc.fades id id)) h (.refl e.graph)

/-- A call that sends a signal. -/
def Call.Sends : Call → Prop
  | .pulse _ _ => True
  | _ => False

theorem answer_retains (h : e.Settled) {c : Call} (hc : ¬ c.Sends) :
    Retains e.graph (e.answer c).graph := by
  have htidy : e.graph.Tidy := h.sound.tidy
  have hfades : c.Needs .fading → Retains e.graph (e.answer c).graph := by
    intro hneeds
    have hchanges : Changes .fading e (e.answer c) :=
      answer_changes_of_needs (fun _ => trivial) h hneeds
    exact .of_fades hchanges.fades
  cases c with
  | pulse => exact absurd trivial hc
  | create key =>
    exact create_induct (P := fun e' => Retains e.graph e'.graph) (.refl e.graph)
      (fun _ hn _ => .add htidy hn.empty) key
  | addLogic l => exact .add htidy (Node.fresh_native e.registry.prototypes l).empty
  | _ => exact hfades trivial

/-! ## Firing -/

/-- The copy of a template holds nothing. -/
theorem acquire_held {k : Key} {p : Prototype} (h : Sound (.rest e)) (hp : e.prototype? k = some p)
    {x : NodeId} {c : Node} (hc : (e.acquire id p).2.graph.get? x = some c) :
    (∃ n, e.graph.get? x = some n ∧ c.inputs = n.inputs) ∨
      e.graph.get? x = none ∧ ∀ s ∈ c.inputs, s = none := by
  rcases e.acquire_cases id p with ⟨-, -, hg, -⟩ | ⟨-, hg, -⟩
  · exact .inl ⟨c, hg ▸ hc, rfl⟩
  · have htidy : e.graph.Tidy := h.tidy
    have hmade := Prototype.instantiate_made htidy (h.templates k p hp) e.nextInstance e.world.heap
    rw [hg] at hc
    by_cases hx : x ∈ (p.instantiate e.nextInstance e.graph e.world.heap).1.nodes
    · obtain ⟨_, m, c', -, hc', hcopy, -⟩ := hmade.copy x hx
      cases hc'.symm.trans hc
      exact .inr ⟨hmade.fresh x hx, hcopy.empty⟩
    · rw [hmade.keep x hx] at hc
      exact .inl ⟨c, hc, rfl⟩

theorem engage_retains {k : Key} (h : Sound (.rest e)) (hn : e.graph.get? id = some n)
    (hb : n.body = .reference k none) (hengage : e.engage id = .ok e') :
    Retains e.graph e'.graph := by
  obtain ⟨p, i, e₁, hE⟩ := engage_engaged h hn hb hengage
  refine ⟨.inr fun x m hm => hE.live ((hE.acquired h).keep x m hm), fun x c' hc' => ?_⟩
  rw [hE.graph] at hc'
  obtain ⟨m, hm, hrow⟩ := Graph.row_handOver hc'
  have hinputs : c'.inputs = m.inputs := by
    rcases hrow with ⟨-, rfl⟩ | ⟨-, rfl⟩
    · rfl
    · exact m.inputs_bind (some i)
  have hacquire : ∀ c, e₁.graph.get? x = some c → c'.inputs = c.inputs →
      (∃ n, e.graph.get? x = some n ∧ c'.inputs = n.inputs) ∨
        e.graph.get? x = none ∧ ∀ s ∈ c'.inputs, s = none := by
    intro c hc hsame
    have hgot : (e.acquire id p).2.graph.get? x = some c := by
      rw [hE.got]
      exact hc
    rw [hsame]
    exact acquire_held h hE.prototype hgot
  obtain ⟨c, hc, rfl | ⟨-, f, rfl⟩⟩ := (Graph.refans_route e₁.graph i.outputs n.outputs).row hm
  · exact hacquire m hc hinputs
  · exact hacquire c hc hinputs

/-- Firing alone delivers nothing and takes nothing. -/
theorem discharge_retains {shot : Shot} {out : List (Socket × Signal)} (h : Sound (.rest e))
    (hd : e.discharge shot = some (e', out)) : Retains e.graph e'.graph := by
  unfold discharge at hd
  cases hn : e.graph.get? shot.id with
  | none =>
    rw [hn] at hd
    cases hd
  | some n =>
    have htrace := traceFiring_feeds h shot.id n
    have hgraph := e.graph_traceFiring shot.id n
    have hn' : (e.traceFiring shot.id n).graph.get? shot.id = some n := by
      rw [hgraph]
      exact hn
    rw [hn] at hd
    dsimp only at hd
    cases hb : n.body with
    | native l =>
      rw [hb] at hd
      cases hd
      refine ⟨.inr fun x c hc => ?_, fun x c' hc' => ?_⟩
      · show ∃ c', (Slots.modify _ shot.id _).get? x = some c'
        rw [hgraph, Slots.get?_modify, hc]
        split
        · exact ⟨_, rfl⟩
        · exact ⟨c, rfl⟩
      · have hrow : (Slots.modify _ shot.id _).get? x = some c' := hc'
        rw [hgraph, Slots.get?_modify] at hrow
        split at hrow
        · obtain ⟨c, hc, rfl⟩ := Option.map_eq_some_iff.1 hrow
          exact .inl ⟨c, hc, rfl⟩
        · exact .inl ⟨c', hrow, rfl⟩
    | reference key b =>
      rw [hb] at hd
      cases b with
      | some i =>
        cases hd
        exact .of_eq hgraph
      | none =>
        dsimp only at hd
        cases hengage : (e.traceFiring shot.id n).engage shot.id with
        | error err =>
          rw [hengage] at hd
          cases hd
        | ok e₁ =>
          rw [hengage] at hd
          cases hd
          rw [← hgraph]
          exact engage_retains htrace.sound hn' hb hengage

/-- The sweep takes nodes away at most. -/
theorem sweep_retains (h : Sound (.rest e)) : Retains e.graph e.sweep.graph :=
  .of_fades (sweep_moves h).1.fades

end Engine

end PulseFlow
