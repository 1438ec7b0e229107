import PulseFlow.Proofs.Identity
import PulseFlow.Proofs.Rewiring

/-!
# Calls that fail

Some calls are made of several changes, and a change that comes late could fail when those before it
are made.  A connection at a bound reference is made at the reference and then at the placeholder of
its instance; a node that is removed gives up its instance before it leaves the graph.  Here calls
are carried out change by change, so that what was changed before a failure stays changed
(`InPlace`).

In a sound engine no change but the first can fail: the placeholder that stands for an output is
there and has an output itself, and giving up an instance does not take the reference along.  So a
call that fails has changed nothing.

    Sound (.rest e) → c.inPlace.run e = c.outcome e                          (inPlace_run)
    (c.outcome e).1 = .error err → (c.outcome e).2 = e                       (outcome_error)
-/

namespace PulseFlow

/-- Changes made one after the other: when one fails, those before it stay made. -/
def InPlace (σ α : Type) : Type := σ → Except Error α × σ

namespace InPlace

variable {σ α β : Type}

def run (x : InPlace σ α) (s : σ) : Except Error α × σ := x s

/-- One course of changes and then another. -/
def andThen (x : InPlace σ α) (y : InPlace σ β) : InPlace σ β := fun s =>
  match x s with
  | (.ok _, s) => y s
  | (.error err, s) => (.error err, s)

/-- Asks something and changes nothing. -/
def ask (f : σ → Except Error α) : InPlace σ Unit := fun s => ((f s).map fun _ => (), s)

/-- A single change, made in full or not at all. -/
def change (f : σ → Except Error σ) : InPlace σ Unit := fun s =>
  match f s with
  | .ok s => (.ok (), s)
  | .error err => (.error err, s)

/-- A change that cannot fail. -/
def alter (f : σ → σ) : InPlace σ Unit := fun s => (.ok (), f s)

/-- A call as it is, without what it answers when it succeeds. -/
def whole (f : σ → Except Error α × σ) : InPlace σ Unit := fun s =>
  ((f s).1.map fun _ => (), (f s).2)

theorem run_ask_ok {f : σ → Except Error α} {s : σ} {a : α} (h : f s = .ok a)
    (y : InPlace σ β) : ((ask f).andThen y).run s = y.run s := by
  simp [run, andThen, ask, h, Except.map]

theorem run_ask_error {f : σ → Except Error α} {s : σ} {err : Error} (h : f s = .error err)
    (y : InPlace σ β) : ((ask f).andThen y).run s = (.error err, s) := by
  simp [run, andThen, ask, h, Except.map]

end InPlace

/-! ## Connections -/

theorem Graph.disconnect_ok {g : Graph} {s : Socket} {n : Node} (hn : g.get? s.node = some n)
    (hs : s.port < n.outputs.length) : ∃ g', disconnect g s = .ok g' := by
  have hout : checkOutput g s = .ok () := by
    simp only [checkOutput, find, hn]
    exact if_pos hs
  rw [disconnect, hout]
  exact ⟨_, rfl⟩

namespace Engine

variable {e : Engine} {source target : Socket} {g : Graph} {o id : NodeId}

/-- A change of the graph. -/
def onGraph (change : Graph → Except Error Graph) : InPlace Engine Unit :=
  .change fun e => (change e.graph).map fun graph => { e with graph }

/-- A change of an output, at the reference first and then at the placeholder that stands for it. -/
def onOutputInPlace (source : Socket) (change : Graph → Socket → Except Error Graph) :
    InPlace Engine Unit :=
  (onGraph fun g => change g source).andThen fun e =>
    match e.boundOutput? source with
    | some placeholder => onGraph (fun g => change g ⟨placeholder, 0⟩) e
    | none => (.ok (), e)

def connectInPlace (source target : Socket) : InPlace Engine Unit :=
  (InPlace.ask fun e => e.visible source.node).andThen <|
  (InPlace.ask fun e => e.visible target.node).andThen <|
  onOutputInPlace source fun g s => Graph.connect g s target

def disconnectInPlace (source : Socket) : InPlace Engine Unit :=
  (InPlace.ask fun e => e.visible source.node).andThen <|
  onOutputInPlace source fun g s => Graph.disconnect g s

/-- The placeholder for an output of a bound reference is a node of the graph and has an output. -/
theorem placeholder_output (h : Sound (.rest e)) (ho : e.boundOutput? source = some o) :
    ∃ n, e.graph.get? o = some n ∧ 0 < n.outputs.length := by
  obtain ⟨i, hi, hio⟩ := boundOutput?_eq_some ho
  obtain ⟨n, hn, -⟩ := boundOutput?_internal h ho
  have hplaceholder := h.wired.placeholder i (Sound.mem_of_bound (w := .rest e) hi) o
    (List.mem_of_getElem? hio) n hn
  exact ⟨n, hn, by rw [hplaceholder.2]; exact Nat.one_pos⟩

/-- What could be connected at a reference can be connected at the placeholder. -/
theorem connect_placeholder (h : Sound (.rest e)) (hc : Graph.connect e.graph source target = .ok g)
    (ho : e.boundOutput? source = some o) : ∃ g', Graph.connect g ⟨o, 0⟩ target = .ok g' := by
  obtain ⟨n, hn, hport⟩ := placeholder_output h ho
  obtain ⟨m, hm, htarget⟩ := (Graph.connect_spec hc).2
  rw [graph_connect_ok hc]
  -- the first change touched nothing but a fan
  obtain ⟨n', hn', -, -, hlen⟩ := @Draft.row_modifyFan _ source (fun f => f.insert target) _ _ hn
  obtain ⟨m', hm', -, hin, -⟩ := @Draft.row_modifyFan _ source (fun f => f.insert target) _ _ hm
  exact Graph.connect_ok (s := ⟨o, 0⟩) hn' (hlen ▸ hport) ⟨m', hm', hin ▸ htarget⟩

theorem disconnect_placeholder (h : Sound (.rest e)) (hc : Graph.disconnect e.graph source = .ok g)
    (ho : e.boundOutput? source = some o) : ∃ g', Graph.disconnect g ⟨o, 0⟩ = .ok g' := by
  obtain ⟨n, hn, hport⟩ := placeholder_output h ho
  rw [graph_disconnect_ok hc]
  obtain ⟨n', hn', -, -, hlen⟩ := @Draft.row_modifyFan _ source (fun _ => ∅) _ _ hn
  exact Graph.disconnect_ok (s := ⟨o, 0⟩) hn' (hlen ▸ hport)

/-- A change of fans leaves references bound. -/
theorem boundOutput?_modifyFan (source s : Socket) (f : Fan → Fan) :
    boundOutput? { e with graph := e.graph.modify s.node fun n => n.modifyFan s.port f } source =
      e.boundOutput? source := by
  have hbound : instance? { e with graph := e.graph.modify s.node fun n => n.modifyFan s.port f }
      source.node = e.instance? source.node :=
    (Graph.Rewires.modifyFan e.graph s.node s.port f).bound source.node
  rw [boundOutput?, hbound, boundOutput?]

/-- Where the second change cannot fail, both are made or none. -/
theorem onOutputInPlace_run {change : Graph → Socket → Except Error Graph} {f : Fan → Fan}
    (hfan : ∀ g s g', change g s = .ok g' → g' = g.modify s.node fun n => n.modifyFan s.port f)
    (hlate : ∀ g o, change e.graph source = .ok g → e.boundOutput? source = some o →
      ∃ g', change g ⟨o, 0⟩ = .ok g') :
    (onOutputInPlace source change).run e =
      match e.onOutput source change with
      | .ok graph => (.ok (), { e with graph })
      | .error err => (.error err, e) := by
  unfold onOutputInPlace onOutput InPlace.run InPlace.andThen onGraph InPlace.change
  cases hc : change e.graph source with
  | error err => simp [Except.map, bind, Except.bind, hc]
  | ok g =>
    have hbound : boundOutput? { e with graph := g } source = e.boundOutput? source := by
      rw [hfan _ _ _ hc]
      exact boundOutput?_modifyFan source source f
    cases ho : e.boundOutput? source with
    | none => simp [Except.map, bind, Except.bind, hc, hbound, ho, pure, Except.pure]
    | some o =>
      obtain ⟨g', hg'⟩ := hlate g o hc ho
      simp [Except.map, bind, Except.bind, hc, hbound, ho, hg']

theorem connectInPlace_run (h : Sound (.rest e)) (source target : Socket) :
    (connectInPlace source target).run e = e.connect source target := by
  unfold connectInPlace connect
  cases hs : e.visible source.node with
  | error err =>
    rw [InPlace.run_ask_error (s := e) hs]
    rfl
  | ok n =>
    rw [InPlace.run_ask_ok (s := e) hs]
    cases ht : e.visible target.node with
    | error err =>
      rw [InPlace.run_ask_error (s := e) ht]
      rfl
    | ok m =>
      rw [InPlace.run_ask_ok (s := e) ht, onOutputInPlace_run (fun _ _ _ => graph_connect_ok)
        fun g o hc ho => connect_placeholder h hc ho]
      rfl

theorem disconnectInPlace_run (h : Sound (.rest e)) (source : Socket) :
    (disconnectInPlace source).run e = e.disconnect source := by
  unfold disconnectInPlace disconnect
  cases hs : e.visible source.node with
  | error err =>
    rw [InPlace.run_ask_error (s := e) hs]
    rfl
  | ok n =>
    rw [InPlace.run_ask_ok (s := e) hs, onOutputInPlace_run (fun _ _ _ => graph_disconnect_ok)
      fun g o hc ho => disconnect_placeholder h hc ho]
    rfl

/-- A connection that can be made at a visible node is made, whether the node is bound or not. -/
theorem connect_of_graph (h : Sound (.rest e)) (hs : Graph.Visible e.graph source.node)
    (ht : Graph.Visible e.graph target.node) (hc : Graph.connect e.graph source target = .ok g) :
    (e.connect source target).1 = .ok () := by
  obtain ⟨n, hn, hv⟩ := hs
  obtain ⟨m, hm, hw⟩ := ht
  have hsource : e.visible source.node = .ok n := by simp [visible, hn, hv]
  have htarget : e.visible target.node = .ok m := by simp [visible, hm, hw]
  simp only [connect, hsource, htarget, onOutput, hc, bind, Except.bind]
  cases ho : e.boundOutput? source with
  | none => rfl
  | some o =>
    obtain ⟨g', hg'⟩ := connect_placeholder h hc ho
    simp only [hg']

theorem disconnect_of_graph (h : Sound (.rest e)) (hs : Graph.Visible e.graph source.node)
    (hc : Graph.disconnect e.graph source = .ok g) : (e.disconnect source).1 = .ok () := by
  obtain ⟨n, hn, hv⟩ := hs
  have hsource : e.visible source.node = .ok n := by simp [visible, hn, hv]
  simp only [disconnect, hsource, onOutput, hc, bind, Except.bind]
  cases ho : e.boundOutput? source with
  | none => rfl
  | some o =>
    obtain ⟨g', hg'⟩ := disconnect_placeholder h hc ho
    simp only [hg']

end Engine

/-! ## Removals -/

/-- Takes a node out for good, if it is there. -/
def Graph.detach (g : Graph) (id : NodeId) : Except Error Graph :=
  match g.get? id with
  | some _ => .ok (erase g id)
  | none => .error (.missingNode id)

namespace Engine

variable {e : Engine}

/-- The instance is given up first, then the pending entry, and then the node leaves the graph. -/
def removeInPlace (id : NodeId) : InPlace Engine Unit :=
  (InPlace.ask fun e => e.visible id).andThen <|
  (InPlace.alter fun e => e.withdraw id).andThen <|
  (InPlace.alter fun e => { e with pending := e.pending.filter fun p => p != id }).andThen <|
  onGraph fun g => g.detach id

/-- A node that gives up its instance is still there. -/
theorem live_withdraw (h : Sound (.rest e)) {id : NodeId} (hv : Graph.Visible e.graph id) :
    ∃ n, (e.withdraw id).graph.get? id = some n := by
  have hmoves : Moves (fun _ => True) (.rest e) (.rest (e.withdraw id)) :=
    (withdraw_moves h trivial fun _ _ _ _ _ _ => trivial).1
  have hsame : Graph.SameNodes e.graph (e.withdraw id).graph := hmoves.sameNodes h
  obtain ⟨n, hn, -⟩ := (hsame.visible_iff id).2 hv
  exact ⟨n, hn⟩

theorem removeInPlace_run (h : Sound (.rest e)) (id : NodeId) :
    (removeInPlace id).run e = e.remove id := by
  unfold removeInPlace remove
  cases hv : e.visible id with
  | error err => rw [InPlace.run_ask_error (s := e) hv]
  | ok n =>
    rw [InPlace.run_ask_ok (s := e) hv]
    obtain ⟨m, hm⟩ := live_withdraw h ⟨n, get?_of_visible hv⟩
    simp [InPlace.run, InPlace.andThen, InPlace.alter, onGraph, InPlace.change, Graph.detach, hm,
      Except.map]

end Engine

/-! ## Actions on a draft -/

namespace Draft

/-- What led into the node is led on, then the node leaves the template, and then the record of
where it was drawn is dropped. -/
def removeInPlace (id : NodeId) : InPlace Draft Unit :=
  (InPlace.ask fun d =>
    if d.prototype.isBoundary id then .error (.boundaryNode id) else .ok ()).andThen <|
  (InPlace.ask fun d => Graph.find d.prototype.graph id).andThen <|
  (InPlace.alter fun d =>
    let exits := ((d.prototype.graph.get? id).map Node.outputs).getD []
    let others := exits.map fun f => f.filter fun s => s.node != id
    { d with prototype := { d.prototype with
      graph := d.prototype.graph.map fun m => m.mapFans (Graph.leadOn id others) } }).andThen <|
  (InPlace.change fun d => (Graph.detach d.prototype.graph id).map fun graph =>
    { d with prototype := { d.prototype with graph } }).andThen <|
  InPlace.alter fun d =>
    { d with prototype := { d.prototype with placements := d.prototype.placements.erase id } }

/-- An action, its changes made one by one. -/
def Action.inPlace (r : Registry) : Action → InPlace Draft Unit
  | .remove id => removeInPlace id
  | a => .whole fun d => d.perform r a

variable {r : Registry} {d : Draft}

theorem removeInPlace_run (d : Draft) (id : NodeId) :
    (removeInPlace id).run d = InPlace.whole (fun d => d.perform r (.remove id)) d := by
  have hsettle : InPlace.whole (fun d => d.perform r (.remove id)) d =
      ((perform.settle d (d.remove id)).1.map fun _ => (),
        (perform.settle d (d.remove id)).2) := rfl
  rw [removeInPlace, hsettle]
  cases hb : d.prototype.isBoundary id with
  | true =>
    have hask : (if d.prototype.isBoundary id then Except.error (.boundaryNode id) else .ok ()) =
        Except.error (α := Unit) (Error.boundaryNode id) := if_pos hb
    rw [InPlace.run_ask_error (s := d) hask, remove, hb, if_pos rfl]
    rfl
  | false =>
    rw [InPlace.run_ask_ok (a := ()) (by rw [hb]; rfl), remove, hb, if_neg Bool.false_ne_true]
    cases hn : d.prototype.graph.get? id with
    | none =>
      have hfind : Graph.find d.prototype.graph id = .error (.missingNode id) := by
        rw [Graph.find, hn]
      rw [InPlace.run_ask_error (s := d) hfind, Graph.bypass, hfind]
      rfl
    | some n =>
      have hfind : Graph.find d.prototype.graph id = .ok n := by rw [Graph.find, hn]
      rw [InPlace.run_ask_ok (s := d) hfind, Graph.bypass, hfind]
      simp [InPlace.run, InPlace.andThen, InPlace.alter, InPlace.change, Graph.detach,
        Slots.get?_map, hn, Except.map, bind, Except.bind, pure, Except.pure, perform.settle]

theorem settle_error {x : Except Error Draft} {err : Error}
    (h : (perform.settle d x).1 = .error err) : (perform.settle d x).2 = d := by
  cases x with
  | error _ => rfl
  | ok d' => cases h

theorem perform_error {a : Action} {err : Error} (h : (d.perform r a).1 = .error err) :
    (d.perform r a).2 = d := by
  cases a with
  | input port => rfl
  | output port => rfl
  | targets source => rfl
  | addLogic l => cases h
  | allocate items => cases h
  | setCanvas canvas => cases h
  | add key =>
    rw [perform] at h ⊢
    cases hadd : d.add r key with
    | error _ => rfl
    | ok made =>
      rw [hadd] at h
      cases h
  | connect source target => exact settle_error h
  | disconnect source => exact settle_error h
  | remove id => exact settle_error h
  | place id placement => exact settle_error h

/-- An action is carried out in full or not at all. -/
theorem inPlace_run (r : Registry) (d : Draft) (a : Action) :
    (a.inPlace r).run d = InPlace.whole (fun d => d.perform r a) d := by
  cases a with
  | remove id => exact removeInPlace_run d id
  | _ => rfl

end Draft

/-! ## Calls -/

namespace Engine

variable {e : Engine} {err : Error}

/-- What a call answers, without the node or the value it may give, and the engine it leaves. -/
def Call.outcome (e : Engine) : Call → Except Error Unit × Engine
  | .outside world => (.ok (), { e with world })
  | .registerLogic l => e.registerLogic l
  | .declare key inputs outputs => e.declare key inputs outputs
  | .register key inputs outputs course =>
    InPlace.whole (fun e => e.register key inputs outputs course) e
  | .edit key course => InPlace.whole (fun e => e.edit key course) e
  | .clearPool key => InPlace.whole (fun e => e.clearPool key) e
  | .create key => InPlace.whole (fun e => e.create key) e
  | .addLogic l => (.ok (), (e.addLogic l).2)
  | .connect source target => e.connect source target
  | .disconnect source => e.disconnect source
  | .remove id => e.remove id
  | .pulse target signal => e.pulse target signal
  | .importProject project => InPlace.whole (fun e => e.importProject project) e

/-- A call, its changes made one by one. -/
def Call.inPlace : Call → InPlace Engine Unit
  | .connect source target => connectInPlace source target
  | .disconnect source => disconnectInPlace source
  | .remove id => removeInPlace id
  | c => fun e => c.outcome e

/-- A call that loads a document. -/
def Call.Imports : Call → Prop
  | .importProject _ => True
  | _ => False

theorem outcome_answer (e : Engine) (c : Call) : (c.outcome e).2 = e.answer c := by
  cases c <;> rfl

/-- In a sound engine a call made change by change comes to the same as the call. -/
theorem inPlace_run (h : Sound (.rest e)) (c : Call) : c.inPlace.run e = c.outcome e := by
  cases c with
  | connect source target => exact connectInPlace_run h source target
  | disconnect source => exact disconnectInPlace_run h source
  | remove id => exact removeInPlace_run h id
  | _ => rfl

theorem registerLogic_error {l : Logic} (h : (e.registerLogic l).1 = .error err) :
    (e.registerLogic l).2 = e := by
  unfold registerLogic at h ⊢
  split at h
  · next hp => rw [if_pos hp]
  · next hp =>
    rw [if_neg hp]
    cases hr : e.registry.catalog.register l.key l with
    | error _ => rfl
    | ok catalog =>
      rw [hr] at h
      cases h

theorem declare_error {key : Key} {inputs outputs : Nat}
    (h : (e.declare key inputs outputs).1 = .error err) : (e.declare key inputs outputs).2 = e := by
  unfold declare at h ⊢
  split at h
  · next hc => rw [if_pos hc]
  · cases h

theorem editBy_error {α : Type} {key : Key} {change : Draft → α × Draft}
    (h : (e.editBy key change).1 = .error err) : (e.editBy key change).2 = e := by
  unfold editBy at h ⊢
  cases hp : e.prototype? key with
  | none => rfl
  | some p =>
    rw [hp] at h
    cases h

/-- An edit of a prototype that was just declared does not fail. -/
theorem register_error {α : Type} {key : Key} {inputs outputs : Nat} {course : Edit α}
    (h : (e.register key inputs outputs course).1 = .error err) :
    (e.register key inputs outputs course).2 = e := by
  unfold register at h ⊢
  cases hc : e.registry.contains key with
  | true =>
    rw [declare, hc]
    rfl
  | false =>
    have hget : ((e.report (.declared key inputs outputs)).putPrototype
        (Prototype.declare key inputs outputs)).prototype? key =
          some (Prototype.declare key inputs outputs) := Table.get?_insert_self _ _ _
    rw [declare, hc] at h
    simp only [Bool.false_eq_true, if_false, edit, editBy, hget] at h
    cases h

theorem map_eq_error {α : Type} {x : Except Error α} (h : (x.map fun _ => ()) = .error err) :
    x = .error err := by
  cases x with
  | error _ =>
    cases h
    rfl
  | ok a => cases h

theorem clearPool_error {key : Key} (h : (e.clearPool key).1 = .error err) :
    (e.clearPool key).2 = e := by
  unfold clearPool at h ⊢
  cases hp : e.prototype? key with
  | none => rfl
  | some p =>
    rw [hp] at h
    cases h

theorem pulse_error {target : Socket} {signal : Signal}
    (h : (e.pulse target signal).1 = .error err) : (e.pulse target signal).2 = e := by
  unfold pulse at h ⊢
  cases hv : e.visible target.node with
  | error _ => rfl
  | ok n =>
    rw [hv] at h
    cases hi : Graph.checkInput e.graph target with
    | error _ => rfl
    | ok u =>
      rw [hi] at h
      cases h

/-- A call that fails leaves the engine as it was. -/
theorem outcome_error (h : Sound (.rest e)) {c : Call} (hc : ¬ c.Imports)
    (herr : (c.outcome e).1 = .error err) : (c.outcome e).2 = e := by
  cases c with
  | outside world => cases herr
  | addLogic l => cases herr
  | importProject project => exact absurd trivial hc
  | registerLogic l => exact registerLogic_error herr
  | declare key inputs outputs => exact declare_error herr
  | register key inputs outputs course => exact register_error (map_eq_error herr)
  | edit key course => exact editBy_error (map_eq_error herr)
  | clearPool key => exact clearPool_error (map_eq_error herr)
  | create key =>
    rcases e.create_cases key with ⟨_, he⟩ | ⟨n, heap, -, he⟩
    · exact congrArg Prod.snd he
    · have hok := congrArg Prod.fst he
      cases hok.symm.trans (map_eq_error herr)
  | connect source target =>
    rcases e.connect_cases source target with ⟨_, he⟩ | ⟨-, -, -, he⟩
    · exact congrArg Prod.snd he
    · rw [Call.outcome, he] at herr
      cases herr
  | disconnect source =>
    rcases e.disconnect_cases source with ⟨_, he⟩ | ⟨-, he⟩
    · exact congrArg Prod.snd he
    · rw [Call.outcome, he] at herr
      cases herr
  | remove id =>
    rcases remove_cases h id with ⟨_, he⟩ | ⟨hok, -⟩
    · exact congrArg Prod.snd he
    · rw [Call.outcome, hok] at herr
      cases herr
  | pulse target signal => exact pulse_error herr

/-- In every engine that commands lead to, a call that fails, carried out change by change, has
changed nothing, and no change at a bound reference fails after another was made.  The same holds of
the actions on a template. -/
theorem refusals_after (settings : Settings) (console : Console) (commands : List Command) :
    let e := (fresh settings console).after commands
    (∀ c : Call, c.inPlace.run e = c.outcome e ∧ (c.outcome e).2 = e.answer c) ∧
      (∀ c : Call, ¬ c.Imports → ∀ err, (c.outcome e).1 = .error err → (c.outcome e).2 = e) ∧
      -- what the reference accepts is accepted at the placeholder of its instance
      (∀ source target g, Graph.Visible e.graph source.node → Graph.Visible e.graph target.node →
        Graph.connect e.graph source target = .ok g → (e.connect source target).1 = .ok ()) ∧
      (∀ source g, Graph.Visible e.graph source.node → Graph.disconnect e.graph source = .ok g →
        (e.disconnect source).1 = .ok ()) ∧
      ∀ (r : Registry) (d : Draft) (a : Draft.Action),
        (a.inPlace r).run d = InPlace.whole (fun d => d.perform r a) d ∧
          ∀ err, (d.perform r a).1 = .error err → (d.perform r a).2 = d := by
  intro e
  have h : Sound (.rest e) := (settled_after settings console commands).sound
  refine ⟨fun c => ⟨inPlace_run h c, outcome_answer e c⟩, fun c hc err herr => ?_,
    fun source target g hs ht hg => ?_, fun source g hs hg => ?_, fun r d a => ?_⟩
  · exact outcome_error h hc herr
  · exact connect_of_graph h hs ht hg
  · exact disconnect_of_graph h hs hg
  · exact ⟨Draft.inPlace_run r d a, fun err herr => Draft.perform_error herr⟩

end Engine

end PulseFlow
