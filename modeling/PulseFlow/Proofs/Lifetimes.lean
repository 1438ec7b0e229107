import PulseFlow.Proofs.Drawings
import PulseFlow.Proofs.Editing
import PulseFlow.Proofs.Retaining

/-!
# Templates over their lifetimes

A prototype is declared, and then its template is edited any number of times, by any actions, some
of which fail.  In between its revision is counted and its pool changes.  All of this is one sequence
of turns (`Turn`), and what one turn keeps, the template has for life: its placeholders are where
they were declared, its connections end at inputs that are there, and its nodes are as they were made
but for their connections (`InOrder`).  A node that is removed is closed, so its number stays out of
use.

An action does one of five things to a template (`Stroke`), and all but the connections can be read
off these.

    d.prototype.Stroke (d.perform r a).2.prototype                            (perform_stroke)
    ((Prototype.declare key inputs outputs).turned turns).InOrder inputs outputs
                                                                              (inOrder_turned)
    e.prototype? k = some p →
      ∃ turns, (e.after commands).prototype? k = some (p.turned turns)          (turned_after)
-/

namespace PulseFlow

/-! ## Nodes that nothing has reached -/

/-- A node to which nothing was sent or bound. -/
structure Node.Untouched (n : Node) : Prop where
  unscheduled : n.scheduled = false
  unbound : n.instance? = none
  empty : ∀ s ∈ n.inputs, s = none

/-- Connections do not matter. -/
theorem Node.Untouched.relead {n : Node} (h : n.Untouched) (outputs : List Fan) :
    { n with outputs }.Untouched := ⟨h.unscheduled, h.unbound, h.empty⟩

theorem Node.Fresh.untouched {t : Prototypes} {n : Node} (h : n.Fresh t) : n.Untouched :=
  ⟨h.blank.scheduled, h.blank.instance?, h.empty⟩

/-! ## Bypassing closes a number -/

namespace Graph

variable {g g' : Graph} {id : NodeId}

theorem bypass_evolves (h : bypass g id = .ok g') : Slots.Evolves g g' := by
  obtain ⟨n, f, -, rfl⟩ := bypass_eq h
  exact ((Relation.ReflTransGen.single (.map g f)).tail (.close _ id)).tail (.map _ _)

theorem retired_bypass (ht : g.Tidy) (h : bypass g id = .ok g') : g'.Retired id := by
  obtain ⟨n, f, hn, rfl⟩ := bypass_eq h
  have hn' : (g.map f).get? id = some (f n) := by rw [Slots.get?_map, hn, Option.map_some]
  exact (Slots.retired_close (Slots.tidy_map ht f) hn').op (.map _ _)

end Graph

/-! ## What an action does to a template -/

inductive Prototype.Stroke : Prototype → Prototype → Prop
  /-- Nodes, connections and placements stay. -/
  | keep (p : Prototype) (canvas : Canvas) : Stroke p { p with canvas }
  /-- A node is put in. -/
  | add (p : Prototype) {n : Node} (untouched : n.Untouched) :
      Stroke p { p with graph := (p.graph.add n).2 }
  /-- An output is led elsewhere. -/
  | lead (p : Prototype) (source : Socket) (change : Fan → Fan) :
      Stroke p { p with
        graph := p.graph.modify source.node fun n => n.modifyFan source.port change }
  /-- A node is taken out, with its placement. -/
  | remove (p : Prototype) {id : NodeId} {g : Graph} (bypassed : Graph.bypass p.graph id = .ok g) :
      Stroke p { p with graph := g, placements := p.placements.erase id }
  /-- A node is placed. -/
  | place (p : Prototype) {id : NodeId} {n : Node} (spot : Placement)
      (live : p.graph.get? id = some n) :
      Stroke p { p with placements := p.placements.insert id spot }

theorem Draft.perform_stroke (r : Registry) (d : Draft) (a : Action) :
    d.prototype.Stroke (d.perform r a).2.prototype := by
  have hsame : d.prototype.Stroke d.prototype := .keep d.prototype d.prototype.canvas
  have hsettle := settle_induct (fun d' => d.prototype.Stroke d'.prototype) hsame
  cases a with
  | input port | output port | allocate items | targets source => exact hsame
  | add key =>
    rw [perform]
    cases ha : d.add r key with
    | error err => exact hsame
    | ok made =>
      obtain ⟨⟨n, heap⟩, hn, ha⟩ := ok_of_bind ha
      cases ha
      exact .add d.prototype (Registry.fresh_makeNode hn).untouched
  | addLogic l => exact .add d.prototype (Node.fresh_native r.prototypes l).untouched
  | connect source target =>
    refine hsettle _ fun d' hd' => ?_
    unfold connect at hd'
    split at hd'
    · cases hd'
    · obtain ⟨g, hg, hd'⟩ := ok_of_bind hd'
      cases hd'
      rw [Engine.graph_connect_ok hg]
      exact .lead d.prototype source _
  | disconnect source =>
    refine hsettle _ fun d' hd' => ?_
    obtain ⟨g, hg, hd'⟩ := ok_of_bind hd'
    cases hd'
    rw [Engine.graph_disconnect_ok hg]
    exact .lead d.prototype source _
  | remove id =>
    refine hsettle _ fun d' hd' => ?_
    unfold remove at hd'
    split at hd'
    · cases hd'
    · obtain ⟨g, hg, hd'⟩ := ok_of_bind hd'
      cases hd'
      exact .remove d.prototype hg
  | place id spot =>
    refine hsettle _ fun d' hd' => ?_
    obtain ⟨n, hn, hd'⟩ := ok_of_bind hd'
    cases hd'
    exact .place d.prototype spot (Graph.find_ok hn)
  | setCanvas canvas => exact .keep d.prototype canvas

namespace Prototype

variable {p q : Prototype}

namespace Stroke

theorem boundary (h : Stroke p q) : q.inputs = p.inputs ∧ q.outputs = p.outputs := by
  cases h <;> exact ⟨rfl, rfl⟩

theorem evolves (h : Stroke p q) : Slots.Evolves p.graph q.graph := by
  cases h with
  | keep canvas | place spot live => exact .refl
  | add untouched => exact .single (.add _ _)
  | lead source change => exact .single (.modify _ _ _)
  | remove bypassed => exact Graph.bypass_evolves bypassed

theorem untouched (h : Stroke p q) (ht : p.graph.Tidy)
    (hp : ∀ id n, p.graph.get? id = some n → n.Untouched) :
    ∀ id n, q.graph.get? id = some n → n.Untouched := by
  intro id n hn
  cases h with
  | keep canvas | place spot live => exact hp id n hn
  | add untouched =>
    rw [Slots.get?_add ht] at hn
    split at hn
    · cases hn
      exact untouched
    · exact hp id n hn
  | lead source change =>
    rw [Slots.get?_modify] at hn
    split at hn
    · obtain ⟨m, hm, rfl⟩ := Option.map_eq_some_iff.1 hn
      exact (hp id m hm).relead _
    · exact hp id n hn
  | remove bypassed =>
    obtain ⟨_, -, hget⟩ := Graph.get?_bypass bypassed
    rw [hget] at hn
    split at hn
    · cases hn
    · obtain ⟨m, hm, rfl⟩ := Option.map_eq_some_iff.1 hn
      exact (hp id m hm).relead _

theorem placed (h : Stroke p q) (ht : p.graph.Tidy)
    (hp : ∀ id spot, p.placements.get? id = some spot → ∃ n, p.graph.get? id = some n) :
    ∀ id spot, q.placements.get? id = some spot → ∃ n, q.graph.get? id = some n := by
  intro id spot hspot
  cases h with
  | keep canvas => exact hp id spot hspot
  | @add n _ =>
    obtain ⟨m, hm⟩ := hp id spot hspot
    exact ⟨m, Slots.get?_add_of_some ht n hm⟩
  | lead source change =>
    obtain ⟨m, hm⟩ := hp id spot hspot
    exact (Draft.row_modifyFan hm).imp fun _ hrow => hrow.1
  | remove bypassed =>
    rw [Table.get?_erase] at hspot
    split at hspot
    · cases hspot
    · next hne =>
      obtain ⟨m, hm⟩ := hp id spot hspot
      obtain ⟨m', hm', -⟩ := Graph.live_bypass bypassed hne hm
      exact ⟨m', hm'⟩
  | @place _ n _ live =>
    rw [Table.get?_insert] at hspot
    split at hspot
    · next hid => exact ⟨n, hid ▸ live⟩
    · exact hp id spot hspot

end Stroke

/-! ## Templates in order -/

/-- A template that was declared with so many inputs and outputs, and drawn. -/
structure InOrder (p : Prototype) (ins outs : Nat) : Prop where
  /-- The placeholders have the numbers they were declared with. -/
  inputs : p.inputs = List.range ins
  outputs : p.outputs = List.range' ins outs
  /-- They are distinct sockets, every connection ends at an input that is there, and none leaves
  the placeholder of an output. -/
  drawn : p.Drawn
  /-- Placements are those of nodes that are there. -/
  placed : ∀ id spot, p.placements.get? id = some spot → ∃ n, p.graph.get? id = some n
  /-- Nothing waits, nothing is held and nothing is bound. -/
  untouched : ∀ id n, p.graph.get? id = some n → n.Untouched
  tidy : p.graph.Tidy

theorem inOrder_declare (key : Key) (inputs outputs : Nat) :
    (declare key inputs outputs).InOrder inputs outputs := by
  have hdeclared : (declare key inputs outputs).Declared := declared_declare key inputs outputs
  obtain ⟨hins, hvacant, hsize⟩ := addPlaceholders_packed (g := Graph.empty) rfl inputs
  obtain ⟨houts, -, -⟩ := addPlaceholders_packed hvacant outputs
  have hempty : Graph.empty.cells.size = 0 := rfl
  rw [hempty] at hins hsize
  rw [hsize, Nat.zero_add] at houts
  refine ⟨?_, houts, hdeclared.drawn, fun id spot hspot => ?_, fun id n hn => ?_, hdeclared.tidy⟩
  · rw [List.range_eq_range']
    exact hins
  · cases hspot
  · rw [((hdeclared.node id n).1 hn).2]
    exact (Node.fresh_native {} .socket).untouched

theorem InOrder.perform {inputs outputs : Nat} (h : p.InOrder inputs outputs) (r : Registry)
    (heap : Heap) (a : Draft.Action) :
    (Draft.perform r ⟨p, heap⟩ a).2.prototype.InOrder inputs outputs := by
  have hstroke : p.Stroke (Draft.perform r ⟨p, heap⟩ a).2.prototype :=
    Draft.perform_stroke r ⟨p, heap⟩ a
  obtain ⟨hins, houts⟩ := hstroke.boundary
  exact ⟨hins.trans h.inputs, houts.trans h.outputs, Draft.perform_drawn r h.tidy h.drawn a,
    hstroke.placed h.tidy h.placed, hstroke.untouched h.tidy h.untouched,
    hstroke.evolves.tidy h.tidy⟩

/-! ## Turn after turn -/

/-- What happens to a prototype that was declared. -/
inductive Turn where
  /-- An action on its template, which may fail. -/
  | act (registry : Registry) (heap : Heap) (action : Draft.Action)
  /-- Another count of its edits, or other idle instances. -/
  | count (revision : Nat) (pool : List Instance)

def turn (p : Prototype) : Turn → Prototype
  | .act registry heap action => (Draft.perform registry ⟨p, heap⟩ action).2.prototype
  | .count revision pool => { p with revision, pool }

def turned (p : Prototype) (turns : List Turn) : Prototype := turns.foldl turn p

theorem turned_append (p : Prototype) (turns turns' : List Turn) :
    p.turned (turns ++ turns') = (p.turned turns).turned turns' := List.foldl_append

theorem InOrder.turned {inputs outputs : Nat} (h : p.InOrder inputs outputs) (turns : List Turn) :
    (p.turned turns).InOrder inputs outputs := by
  induction turns generalizing p with
  | nil => exact h
  | cons turn turns ih =>
    refine ih ?_
    cases turn with
    | act registry heap action => exact h.perform registry heap action
    | count revision pool =>
      exact { h with drawn := h.drawn.congr rfl rfl rfl }

theorem inOrder_turned (key : Key) (inputs outputs : Nat) (turns : List Turn) :
    ((declare key inputs outputs).turned turns).InOrder inputs outputs :=
  (inOrder_declare key inputs outputs).turned turns

theorem turned_evolves (p : Prototype) (turns : List Turn) :
    Slots.Evolves p.graph (p.turned turns).graph := by
  refine Slots.evolves_foldl Prototype.graph (fun p turn => ?_) p turns
  cases turn with
  | act registry heap action => exact (Draft.perform_stroke registry ⟨p, heap⟩ action).evolves
  | count revision pool => exact .refl

/-- The number of a node that was removed is out of use from then on. -/
theorem retired_turned {r : Registry} {heap : Heap} {id : NodeId} {d : Draft}
    (ht : p.graph.Tidy) (h : Draft.remove ⟨p, heap⟩ id = .ok d) (turns : List Turn) :
    (p.turned (.act r heap (.remove id) :: turns)).graph.Retired id := by
  have hd : p.turn (.act r heap (.remove id)) = d.prototype := by
    show (Draft.perform.settle ⟨p, heap⟩ (Draft.remove ⟨p, heap⟩ id)).2.prototype = d.prototype
    rw [h]
    rfl
  have hgone : d.prototype.graph.Retired id := by
    unfold Draft.remove at h
    split at h
    · cases h
    · obtain ⟨g, hg, h⟩ := ok_of_bind h
      cases h
      exact Graph.retired_bypass ht hg
  rw [turned, List.foldl_cons, hd]
  exact (turned_evolves d.prototype turns).retired hgone

theorem turned_of_bare (h : q.bare = p.bare) : q = p.turned [.count q.revision q.pool] := by
  obtain ⟨key, graph, inputs, outputs, revision, pool, canvas, placements⟩ := q
  simp only [bare, Prototype.mk.injEq] at h
  obtain ⟨rfl, rfl, rfl, rfl, rfl, -, rfl, rfl⟩ := h
  rfl

end Prototype

/-! ## Edits -/

theorem Draft.Steps.turned {ok : Draft.Action → Prop} {r : Registry} {d d' : Draft}
    (h : Draft.Steps ok r d d') : ∃ turns, d'.prototype = d.prototype.turned turns := by
  refine h.induct (P := fun d' => ∃ turns, d'.prototype = d.prototype.turned turns) ?_ ⟨[], rfl⟩
  rintro ⟨p, heap⟩ a - ⟨turns, rfl⟩
  refine ⟨turns ++ [.act r heap a], ?_⟩
  rw [Prototype.turned_append]
  rfl

/-- The actions that a course takes, one after another. -/
def Edit.turns {α : Type} (r : Registry) : Edit α → Draft → List Prototype.Turn
  | finish _, _ => []
  | act action next, d =>
    .act r d.heap action :: turns r (next (d.perform r action).1) (d.perform r action).2

theorem Edit.run_eq_turned {α : Type} (r : Registry) (course : Edit α) (d : Draft) :
    (course.run r d).2.prototype = d.prototype.turned (course.turns r d) := by
  induction course generalizing d with
  | finish a => rfl
  | act action next ih => exact ih (d.perform r action).1 (d.perform r action).2

namespace Engine

variable {e e' : Engine} {scope : Scope} {k : Key} {p : Prototype}

/-- An edit is the actions of its course in turn, and the count of it. -/
theorem edit_turned {α : Type} (h : Sound (.rest e)) (hp : e.prototype? k = some p)
    (course : Edit α) :
    (e.edit k course).2.prototype? k = some (p.turned
      (course.turns e.registry ⟨p, e.world.heap⟩ ++ [.count (p.revision + 1) []])) := by
  obtain ⟨-, hreplaces⟩ := edit_replaces h hp course
  rw [hreplaces.prototypes, if_pos (h.named k p hp).symm, Prototype.turned_append,
    ← course.run_eq_turned e.registry ⟨p, e.world.heap⟩]
  rfl

/-! ## Sessions -/

/-- A prototype that is there stays there, and changes by turns only. -/
theorem Change.turned (h : Sound (.rest e)) (hc : Change scope e e')
    (hp : e.prototype? k = some p) : ∃ turns, e'.prototype? k = some (p.turned turns) := by
  have hsame : e'.registry.prototypes = e.registry.prototypes →
      ∃ turns, e'.prototype? k = some (p.turned turns) := by
    intro hr
    refine ⟨[], ?_⟩
    rw [prototype?, hr]
    exact hp
  have hbare : (e'.prototype? k).map Prototype.bare = (e.prototype? k).map Prototype.bare →
      ∃ turns, e'.prototype? k = some (p.turned turns) := by
    intro hb
    rw [hp, Option.map_some, Option.map_eq_some_iff] at hb
    obtain ⟨q, hq, hb⟩ := hb
    exact ⟨_, hq.trans (congrArg some (Prototype.turned_of_bare hb))⟩
  have hput : ∀ r, e'.registry = (e.putPrototype r).registry →
      e'.prototype? k = if k = r.key then some r else e.prototype? k := by
    intro r hr
    rw [prototype?, hr]
    exact Table.get?_insert _ _ _ _
  cases hc with
  | feed _ _ registry => exact hsame (registry ▸ rfl)
  | file _ _ registry => exact hsame (registry ▸ rfl)
  | bind _ get body _ engaged =>
    obtain ⟨r, hr, -⟩ := prototype?_of_reference h get body
    rw [engage_eq get body hr] at engaged
    cases engaged
    exact hbare (bare_acquire (h.named _ r hr) hr k)
  | tear moves _ => exact hbare (moves.bare k)
  | place _ _ _ registry => exact hsame (registry ▸ rfl)
  | relead _ _ _ _ _ registry => exact hsame (registry ▸ rfl)
  | erase _ _ _ _ registry => exact hsame (registry ▸ rfl)
  | @declare key inputs outputs fresh _ registry =>
    have hne : k ≠ key := by
      rintro rfl
      have hnone : e.prototype? k = none :=
        prototype?_of_not_contains (Bool.eq_false_iff.1 fresh)
      rw [hp] at hnone
      cases hnone
    exact ⟨[], (hput _ registry).trans ((if_neg hne).trans hp)⟩
  | @replace key r q _ get keyed template _ _ registry =>
    by_cases hk : k = q.key
    · have hr : r = p := by
        rw [← keyed, ← hk, hp] at get
        exact (Option.some.inj get).symm
      subst hr
      have hq : e'.prototype? k = some q := (hput q registry).trans (if_pos hk)
      rcases template with rfl | ⟨heap, d, steps, rfl⟩
      · exact ⟨_, hq.trans (congrArg some (Prototype.turned_of_bare (p := r) rfl))⟩
      · obtain ⟨turns, hturns⟩ := steps.turned
        refine ⟨turns ++ [.count (r.revision + 1) []], hq.trans ?_⟩
        rw [Prototype.turned_append, ← hturns]
        rfl
    · exact ⟨[], (hput q registry).trans ((if_neg hk).trans hp)⟩

theorem turned_after (h : e.Settled) (hp : e.prototype? k = some p) (commands : List Command) :
    ∃ turns, (e.after commands).prototype? k = some (p.turned turns) := by
  have hchanges : Changes .all e (e.after commands) :=
    after_changes (fun _ _ => trivial) trivial h (within_all e commands)
  refine hchanges.induct (P := fun e' => ∃ turns, e'.prototype? k = some (p.turned turns)) ?_
    ⟨[], hp⟩
  rintro e₁ e₂ hs - hc ⟨turns, hturns⟩
  obtain ⟨more, hmore⟩ := hc.turned hs hturns
  exact ⟨turns ++ more, by rw [hmore, Prototype.turned_append]⟩

/-- Every template was declared at some time. -/
theorem declared_after (settings : Settings) (console : Console) (commands : List Command)
    (hp : ((fresh settings console).after commands).prototype? k = some p) :
    ∃ inputs outputs turns, p = (Prototype.declare k inputs outputs).turned turns := by
  refine after_induct (P := fun e => ∀ k p, e.prototype? k = some p →
    ∃ inputs outputs turns, p = (Prototype.declare k inputs outputs).turned turns) ?_ ?_ commands
    k p hp
  · intro e e' hs _ hc hold k q hq
    rcases hc.template hs hq with
      ⟨p, hp, hb⟩ | ⟨inputs, outputs, -, rfl⟩ | ⟨p, heap, d, hp, steps, rfl⟩
    · obtain ⟨inputs, outputs, turns, rfl⟩ := hold k p hp
      exact ⟨inputs, outputs, turns ++ [.count q.revision q.pool],
        (Prototype.turned_of_bare hb).trans (Prototype.turned_append _ _ _).symm⟩
    · exact ⟨inputs, outputs, [], rfl⟩
    · obtain ⟨inputs, outputs, turns, hturns⟩ := hold k p hp
      obtain ⟨more, hmore⟩ := steps.turned
      refine ⟨inputs, outputs, turns ++ (more ++ [.count (p.revision + 1) []]), ?_⟩
      rw [Prototype.turned_append, ← hturns, Prototype.turned_append, ← hmore]
      rfl
  · intro k p hp
    cases hp

/-- Whatever is done to a prototype that was declared, its template is in order, and the number of
a node that was removed stands for nothing from then on.  In every session that is all that happens
to prototypes: each was declared, an edit is the actions of its course and the count of it, and
whatever follows are turns again. -/
theorem templates_inOrder :
    (∀ key inputs outputs turns,
      ((Prototype.declare key inputs outputs).turned turns).InOrder inputs outputs) ∧
    (∀ key inputs outputs before after r heap id d,
      Draft.remove ⟨(Prototype.declare key inputs outputs).turned before, heap⟩ id = .ok d →
      ((Prototype.declare key inputs outputs).turned
        (before ++ .act r heap (.remove id) :: after)).graph.get? id = none) ∧
    ∀ settings console commands key p,
      let e := (fresh settings console).after commands
      e.prototype? key = some p →
      (∃ inputs outputs turns, p = (Prototype.declare key inputs outputs).turned turns) ∧
      (∀ {α : Type} (course : Edit α), (e.edit key course).2.prototype? key = some (p.turned
        (course.turns e.registry ⟨p, e.world.heap⟩ ++ [.count (p.revision + 1) []]))) ∧
      ∀ later, ∃ turns, (e.after later).prototype? key = some (p.turned turns) := by
  refine ⟨Prototype.inOrder_turned, ?_, ?_⟩
  · intro key inputs outputs before after r heap id d hd
    rw [Prototype.turned_append]
    exact (Prototype.retired_turned
      (Prototype.inOrder_turned key inputs outputs before).tidy hd after).empty
  · intro settings console commands key p e hp
    have h : e.Settled := settled_after settings console commands
    exact ⟨declared_after settings console commands hp, fun course => edit_turned h.sound hp course,
      fun later => turned_after h hp later⟩

/-- A node is put in and taken out again, and then another one is put in; a placeholder is not taken
out. -/
def reworkTurns : List Prototype.Turn :=
  [.act {} {} (.addLogic .socket), .act {} {} (.remove 2), .count 1 [],
    .act {} {} (.addLogic .socket), .act {} {} (.remove 0)]

theorem templates_inOrder_rework :
    (((Prototype.declare doubleKey 1 1).turned reworkTurns).graph.ids = [0, 1, 3] ∧
      ((Prototype.declare doubleKey 1 1).turned reworkTurns).InOrder 1 1 ∧
      ((Prototype.declare doubleKey 1 1).turned reworkTurns).graph.get? 2 = none) ∧
    ∃ p, ((fresh {} (.script {})).after mixedSession).prototype? doubleKey = some p ∧
      ∃ turns, (((fresh {} (.script {})).after mixedSession).edit
        doubleKey emptyingCourse).2.prototype? doubleKey = some (p.turned turns) := by
  obtain ⟨hordered, hremoved, hsession⟩ := templates_inOrder
  refine ⟨⟨by decide +kernel, hordered doubleKey 1 1 reworkTurns, ?_⟩, ?_⟩
  · exact hremoved doubleKey 1 1 [.act {} {} (.addLogic .socket)]
      [.count 1 [], .act {} {} (.addLogic .socket), .act {} {} (.remove 0)] {} {} 2 _ rfl
  · have hregistered : (((fresh {} (.script {})).after mixedSession).prototype?
        doubleKey).isSome := by decide +kernel
    obtain ⟨p, hp⟩ := Option.isSome_iff_exists.1 hregistered
    obtain ⟨-, hedit, -⟩ := hsession {} (.script {}) mixedSession doubleKey p hp
    exact ⟨p, hp, _, hedit emptyingCourse⟩

end Engine

end PulseFlow
