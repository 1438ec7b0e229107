import Mathlib.Data.List.Forall2
import Mathlib.Data.List.Perm.Subperm
import PulseFlow.Proofs.Fidelity
import PulseFlow.Proofs.Scheduling

/-!
# What happens in a wave

A wave is written down moment by moment: a node fires, a signal is delivered, a signal is lost for
want of an output.  The account of a wave ends in the engine that the wave leaves, and it shows that

* what fires is what was pending when the wave began, in that order, with the signals that were
  held then, whatever is delivered meanwhile;
* what is pending afterwards is what has become ready since, in the order in which it did.

    ending e.collected e.account = e.wave                                     (wave_accounted)
    e'.pending = e.pending ++ (what becomes ready on the way from e to e')    (pending_ending)
-/

namespace PulseFlow

/-! ## Nodes that are ready -/

namespace Graph

/-- Whether a node is there and all its inputs hold signals. -/
def isReady (g : Graph) (id : NodeId) : Bool := (g.get? id).any Node.ready

/-- The nodes that are ready in the second graph and not in the first. -/
def newlyReady (g g' : Graph) : List NodeId :=
  g'.ids.filter fun id => isReady g' id && !isReady g id

theorem isReady_iff {g : Graph} {id : NodeId} : isReady g id = true ↔ Full g id := by
  unfold isReady Full
  cases hn : g.get? id with
  | none => simp
  | some n => simp [Node.ready_iff]

theorem nodup_ids (g : Graph) : g.ids.Nodup := List.nodup_range.filter _

/-- Nodes stay and keep their form, and callers see no new ones. -/
structure Lasts (g g' : Graph) : Prop where
  live : ∀ k n, g.get? k = some n →
    ∃ n', g'.get? k = some n' ∧ n'.internal = n.internal ∧ n.SameForm n'
  known : ∀ k n', g'.get? k = some n' → n'.internal = false → ∃ n, g.get? k = some n

namespace Lasts

variable {g g' g'' : Graph}

theorem refl (g : Graph) : Lasts g g :=
  ⟨fun _ n hn => ⟨n, hn, rfl, .refl n⟩, fun _ n hn _ => ⟨n, hn⟩⟩

theorem trans (h : Lasts g g') (h' : Lasts g' g'') : Lasts g g'' where
  live := by
    intro k n hn
    obtain ⟨n', hn', hint, hform⟩ := h.live k n hn
    obtain ⟨n'', hn'', hint', hform'⟩ := h'.live k n' hn'
    exact ⟨n'', hn'', hint'.trans hint, hform.trans hform'⟩
  known := by
    intro k n'' hn'' hv
    obtain ⟨n', hn'⟩ := h'.known k n'' hn'' hv
    obtain ⟨m, hm, hint, -⟩ := h'.live k n' hn'
    cases hm.symm.trans hn''
    exact h.known k n' hn' (hint.symm.trans hv)

theorem of_alike (h : Alike g g') : Lasts g g' where
  live := by
    intro k n hn
    obtain ⟨n', hn', ha⟩ := h.live hn
    exact ⟨n', hn', ha.internal, ha.sameForm⟩
  known := by
    intro k n' hn' _
    obtain ⟨n, hn, -⟩ := h.row hn'
    exact ⟨n, hn⟩

end Lasts

end Graph

namespace Engine

variable {e e₁ : Engine} {shot : Shot} {n : Node} {out : List (Socket × Signal)}

/-! ## Accounts -/

/-- What may happen in a wave. -/
inductive Happening where
  /-- A node fires: its logic has run or its instance is there, and nothing is sent yet. -/
  | fired (shot : Shot)
  | delivered (target : Socket) (signal : Signal)
  /-- A signal goes out at an output that does not exist. -/
  | lost (source : Socket) (signal : Signal)

def Happening.shot? : Happening → Option Shot
  | .fired shot => some shot
  | .delivered .. | .lost .. => none

/-- Something that has happened, and the engine right after it. -/
structure Moment where
  what : Happening
  engine : Engine

/-- The engine after the last moment. -/
def ending (e : Engine) (moments : List Moment) : Engine := moments.foldl (fun _ m => m.engine) e

/-- The nodes that fire, with the signals they get. -/
def firings (moments : List Moment) : List Shot := moments.filterMap fun m => m.what.shot?

/-- The nodes that become ready, in this order. -/
def readied (e : Engine) : List Moment → List NodeId
  | [] => []
  | m :: moments => Graph.newlyReady e.graph m.engine.graph ++ m.engine.readied moments

def deliveries (e : Engine) (s : Signal) : List Socket → List Moment
  | [] => []
  | target :: targets =>
    ⟨.delivered target s, e.deliver target s⟩ :: (e.deliver target s).deliveries s targets

/-- What happens when a signal goes out. -/
def emission (e : Engine) (source : Socket) (s : Signal) : List Moment :=
  match (e.graph.get? source.node).bind fun n => n.fan? source.port with
  | some fan => e.deliveries s fan.toList
  | none => [⟨.lost source s, e.report (.lostAtOutput source)⟩]

def sending (e : Engine) : List (Socket × Signal) → List Moment
  | [] => []
  | m :: out => e.emission m.1 m.2 ++ (e.emit m.1 m.2).sending out

/-- A node fires, up to the point where signals go out: the engine then, and what goes out. -/
def discharge (e : Engine) (shot : Shot) : Option (Engine × List (Socket × Signal)) :=
  match e.graph.get? shot.id with
  | none => none
  | some n =>
    let e := e.traceFiring shot.id n
    match n.body with
    | .native l =>
      let f := l.fire shot.inputs e.world
      some (e.reacted shot.id f, emitted shot.id f)
    | .reference _ (some _) => some (e, e.forwarded shot.id shot.inputs)
    | .reference _ none =>
      match e.engage shot.id with
      | .ok e => some (e, e.forwarded shot.id shot.inputs)
      | .error _ => none

/-- What happens when nodes fire in turn.  A node that is gone is passed over. -/
def accountOf (e : Engine) : List Shot → List Moment
  | [] => []
  | shot :: shots =>
    match e.discharge shot with
    | some (e, out) => ⟨.fired shot, e⟩ :: (e.sending out ++ (e.send out).accountOf shots)
    | none =>
      match e.fire shot.id shot.inputs with
      | (.ok _, e) => e.accountOf shots
      | (.error _, _) => []

/-- What happens in the wave of an engine, once the signals of all that is pending are taken out. -/
def account (e : Engine) : List Moment := e.collected.accountOf (collect e.graph e.pending).1

/-! ## Where accounts end -/

theorem ending_append (e : Engine) (moments moments' : List Moment) :
    ending e (moments ++ moments') = ending (ending e moments) moments' := by
  rw [ending, List.foldl_append, ending, ending]

theorem ending_deliveries (e : Engine) (s : Signal) (targets : List Socket) :
    ending e (e.deliveries s targets) = targets.foldl (fun e target => e.deliver target s) e := by
  induction targets generalizing e with
  | nil => rfl
  | cons target targets ih => exact ih (e.deliver target s)

theorem ending_emission (e : Engine) (source : Socket) (s : Signal) :
    ending e (e.emission source s) = e.emit source s := by
  unfold emission emit
  cases (e.graph.get? source.node).bind fun n => n.fan? source.port with
  | some fan => exact e.ending_deliveries s fan.toList
  | none => rfl

theorem ending_sending (e : Engine) (out : List (Socket × Signal)) :
    ending e (e.sending out) = e.send out := by
  induction out generalizing e with
  | nil => rfl
  | cons m out ih =>
    rw [sending, ending_append, ending_emission]
    exact ih (e.emit m.1 m.2)

theorem firings_append (moments moments' : List Moment) :
    firings (moments ++ moments') = firings moments ++ firings moments' := List.filterMap_append

theorem firings_deliveries (e : Engine) (s : Signal) (targets : List Socket) :
    firings (e.deliveries s targets) = [] := by
  induction targets generalizing e with
  | nil => rfl
  | cons target targets ih => exact ih (e.deliver target s)

/-- Nothing fires while signals go out. -/
theorem firings_sending (e : Engine) (out : List (Socket × Signal)) :
    firings (e.sending out) = [] := by
  induction out generalizing e with
  | nil => rfl
  | cons m out ih =>
    rw [sending, firings_append, ih, List.append_nil, emission]
    split
    · exact e.firings_deliveries m.2 _
    · rfl

/-! ## Books at every moment -/

/-- The node that fires is there, and none of its signals is left over: if it is a reference, it is
bound to an instance with as many inputs. -/
def Takes (e : Engine) (shot : Shot) : Prop :=
  ∃ n, e.graph.get? shot.id = some n ∧ n.inputs.length = shot.inputs.length ∧
    ∀ key b, n.body = .reference key b → ∃ i, b = some i ∧ i.inputs.length = shot.inputs.length

/-- At every moment the engine is sound, at most one node becomes pending, and what fires takes its
signals. -/
def Booked (e : Engine) : List Moment → Prop
  | [] => True
  | m :: moments =>
    (Sound (.rest m.engine) ∧
      (∃ new, m.engine.pending = e.pending ++ new ∧ new.length ≤ 1) ∧
      ∀ shot, m.what = .fired shot → m.engine.Takes shot) ∧ m.engine.Booked moments

theorem booked_append {moments moments' : List Moment} (h : e.Booked moments)
    (h' : (ending e moments).Booked moments') : e.Booked (moments ++ moments') := by
  induction moments generalizing e with
  | nil => exact h'
  | cons m moments ih => exact ⟨h.1, ih h.2 h'⟩

theorem takes_of_booked {moments : List Moment} (h : e.Booked moments) {m : Moment}
    (hm : m ∈ moments) (hshot : m.what = .fired shot) : m.engine.Takes shot := by
  induction moments generalizing e with
  | nil => cases hm
  | cons m' moments ih =>
    rcases List.mem_cons.1 hm with rfl | hm
    · exact h.1.2.2 shot hshot
    · exact ih h.2 hm

theorem mem_pending_iff_isReady (h : Sound (.rest e)) (id : NodeId) :
    id ∈ e.pending ↔ Graph.isReady e.graph id = true := by
  rw [mem_pending_iff h, scheduled_iff_full h, Graph.isReady_iff]

/-- Pending are the ready nodes, so the one that is entered is the one that has become ready. -/
theorem newlyReady_eq {e' : Engine} {new : List NodeId} (h : Sound (.rest e))
    (h' : Sound (.rest e')) (hp : e'.pending = e.pending ++ new) (hone : new.length ≤ 1) :
    Graph.newlyReady e.graph e'.graph = new := by
  have hnodup : (e.pending ++ new).Nodup := hp ▸ h'.coherent.nodup
  have hmem : ∀ id, id ∈ Graph.newlyReady e.graph e'.graph ↔ id ∈ new := by
    intro id
    rw [Graph.newlyReady, List.mem_filter, Bool.and_eq_true, Bool.not_eq_true',
      ← mem_pending_iff_isReady h', ← Bool.not_eq_true, ← mem_pending_iff_isReady h, hp,
      List.mem_append]
    constructor
    · rintro ⟨-, hold | hnew, hnot⟩
      · exact absurd hold hnot
      · exact hnew
    · intro hnew
      obtain ⟨n, hn, -⟩ := (mem_pending_iff h' id).1 (hp ▸ List.mem_append_right _ hnew)
      refine ⟨Slots.mem_ids.2 ?_, .inr hnew, fun hold => ?_⟩
      · rw [show e'.graph.get? id = some n from hn]
        rfl
      · exact (List.nodup_append.1 hnodup).2.2 id hold id hnew rfl
  have hperm : (Graph.newlyReady e.graph e'.graph).Perm new :=
    (List.perm_ext_iff_of_nodup ((Graph.nodup_ids _).filter _) (List.nodup_append.1 hnodup).2.1).2
      hmem
  cases new with
  | nil => exact hperm.eq_nil
  | cons x new =>
    have hnil : new = [] := by
      rw [List.length_cons] at hone
      exact List.length_eq_zero_iff.1 (by omega)
    rw [hnil] at hperm ⊢
    exact List.perm_singleton.1 hperm

/-- Pending afterwards is what was pending before and what has become ready since. -/
theorem pending_ending {moments : List Moment} (h : Sound (.rest e)) (hb : e.Booked moments) :
    (ending e moments).pending = e.pending ++ e.readied moments := by
  induction moments generalizing e with
  | nil => exact (List.append_nil _).symm
  | cons m moments ih =>
    obtain ⟨⟨hsound, ⟨new, hp, hone⟩, -⟩, hrest⟩ := hb
    show (ending m.engine moments).pending = e.pending ++ (_ ++ m.engine.readied moments)
    rw [ih hsound hrest, newlyReady_eq h hsound hp hone, hp, List.append_assoc]

/-! ## Sending -/

theorem pending_deliver (e : Engine) (target : Socket) (s : Signal) :
    ∃ new, (e.deliver target s).pending = e.pending ++ new ∧ new.length ≤ 1 := by
  unfold deliver
  have hsame : ∃ new, e.pending = e.pending ++ new ∧ new.length ≤ 1 :=
    ⟨[], (List.append_nil _).symm, Nat.zero_le 1⟩
  split
  · exact hsame
  · dsimp only
    split
    · split
      · exact ⟨[target.node], rfl, Nat.le_refl 1⟩
      · exact hsame
    · exact hsame

theorem booked_deliveries (h : Sound (.rest e)) {targets : List Socket}
    (ht : ∀ t ∈ targets, ¬ e.Pooled t.node) (s : Signal) : e.Booked (e.deliveries s targets) := by
  induction targets generalizing e with
  | nil => trivial
  | cons t targets ih =>
    have hf := deliver_feeds h (ht t List.mem_cons_self) s
    refine ⟨⟨hf.sound, e.pending_deliver t s, nofun⟩, ih hf.sound fun x hx hp => ?_⟩
    exact ht x (List.mem_cons_of_mem t hx) ((hf.pooled_iff _).1 hp)

theorem booked_emission (h : Sound (.rest e)) {source : Socket} (hs : ¬ e.Pooled source.node)
    (s : Signal) : e.Booked (e.emission source s) := by
  unfold emission
  split
  · next fan hfan =>
    obtain ⟨n, hn, hfan⟩ := Option.bind_eq_some_iff.1 hfan
    refine booked_deliveries h (fun t ht => ?_) s
    exact leadsTo_not_pooled h hn hs fan (List.mem_of_getElem? hfan) t ht
  · have hreport := feeds_report h (.lostAtOutput source)
    exact ⟨⟨hreport.sound, ⟨[], (List.append_nil _).symm, Nat.zero_le 1⟩, nofun⟩, trivial⟩

theorem booked_sending (h : Sound (.rest e)) {out : List (Socket × Signal)}
    (hout : ∀ m ∈ out, ¬ e.Pooled m.1.node) : e.Booked (e.sending out) := by
  induction out generalizing e with
  | nil => trivial
  | cons m out ih =>
    have hm := hout m List.mem_cons_self
    have hf := emit_feeds h hm m.2
    refine booked_append (booked_emission h hm m.2) ?_
    rw [ending_emission]
    exact ih hf.sound fun x hx hp => hout x (List.mem_cons_of_mem m hx) ((hf.pooled_iff _).1 hp)

/-! ## Firing -/

/-- A node has fired and sends. -/
structure Discharges (e : Engine) (shot : Shot) (e₁ : Engine) (out : List (Socket × Signal)) :
    Prop where
  discharge : e.discharge shot = some (e₁, out)
  fire : e.fire shot.id shot.inputs = (.ok (), e₁.send out)
  sound : Sound (.rest e₁)
  flows : Flows e e₁
  lasts : Graph.Lasts e.graph e₁.graph
  pending : e₁.pending = e.pending
  out : ∀ m ∈ out, ¬ e₁.Pooled m.1.node
  takes : e₁.Takes shot

theorem pending_traceFiring (e : Engine) (id : NodeId) (n : Node) :
    (e.traceFiring id n).pending = e.pending := by
  unfold traceFiring
  split <;> rfl

theorem takes_reacted (hn : e.graph.get? shot.id = some n)
    (hlen : n.inputs.length = shot.inputs.length) (f : Firing) :
    (e.reacted shot.id f).Takes shot := by
  refine ⟨{ n with body := .native f.logic }, ?_, hlen, nofun⟩
  show (Slots.modify _ shot.id _).get? shot.id = _
  rw [Slots.get?_modify, if_pos rfl, hn, Option.map_some]

/-- A reference that is bound takes as many signals as it has inputs. -/
theorem takes_of_bound {key : Key} {i : Instance} (h : Sound (.rest e))
    (hn : e.graph.get? shot.id = some n) (hb : n.body = .reference key (some i))
    (hlen : n.inputs.length = shot.inputs.length) : e.Takes shot := by
  refine ⟨n, hn, hlen, fun key' b hb' => ?_⟩
  cases hb.symm.trans hb'
  have hfit : i.inputs.length = n.inputs.length :=
    h.fitting shot.id n i hn (Node.instance?_of_reference hb)
  exact ⟨i, rfl, hfit.trans hlen⟩

/-- The nodes of a new instance are hidden from callers. -/
theorem known_acquire {key : Key} {p : Prototype} {id k : NodeId} {c : Node} (h : Sound (.rest e))
    (hp : e.prototype? key = some p) (hc : (e.acquire id p).2.graph.get? k = some c)
    (hv : c.internal = false) : ∃ n, e.graph.get? k = some n := by
  rcases e.acquire_cases id p with ⟨-, -, hg, -⟩ | ⟨-, hg, -⟩
  · exact ⟨c, hg ▸ hc⟩
  · have htidy : e.graph.Tidy := h.tidy
    have hmade := Prototype.instantiate_made htidy (h.templates key p hp) e.nextInstance e.world.heap
    rw [hg] at hc
    cases hn : e.graph.get? k with
    | some n => exact ⟨n, rfl⟩
    | none =>
      rw [hmade.internal_of_new hc hn] at hv
      cases hv

theorem lasts_engage {id : NodeId} {key : Key} (h : Sound (.rest e))
    (hn : e.graph.get? id = some n) (hb : n.body = .reference key none)
    (hengage : e.engage id = .ok e₁) : Graph.Lasts e.graph e₁.graph := by
  obtain ⟨p, i, e', hE⟩ := engage_engaged h hn hb hengage
  constructor
  · intro k m hm
    have hm' := (hE.acquired h).keep k m hm
    obtain ⟨m', hm''⟩ := hE.live hm'
    obtain ⟨c, hc, hform, hint, -⟩ := row_engaged (hE.graph ▸ hm'')
    cases hc.symm.trans hm'
    exact ⟨m', hm'', hint, hform⟩
  · intro k m hm hv
    obtain ⟨c, hc, -, hint, -⟩ := row_engaged (hE.graph ▸ hm)
    have hc' : (e.acquire id p).2.graph.get? k = some c := by rw [hE.got]; exact hc
    exact known_acquire h hE.prototype hc' (hint.symm.trans hv)

theorem pending_engage {id : NodeId} {key : Key} (h : Sound (.rest e))
    (hn : e.graph.get? id = some n) (hb : n.body = .reference key none)
    (hengage : e.engage id = .ok e₁) : e₁.pending = e.pending := by
  obtain ⟨p, hp, -⟩ := prototype?_of_reference h hn hb
  rw [engage_eq hn hb hp] at hengage
  cases hengage
  show (e.acquire id p).2.pending = e.pending
  unfold acquire
  split <;> rfl

/-- A node that is in the graph and not pooled fires. -/
theorem discharge_spec (h : Sound (.rest e)) (hn : e.graph.get? shot.id = some n)
    (hid : ¬ e.Pooled shot.id) (hlen : n.inputs.length = shot.inputs.length) :
    ∃ e₁ out, e.Discharges shot e₁ out := by
  have htrace := traceFiring_feeds h shot.id n
  have hpending := e.pending_traceFiring shot.id n
  have hn' : (e.traceFiring shot.id n).graph.get? shot.id = some n := by
    rw [graph_traceFiring]
    exact hn
  have hid' : ¬ (e.traceFiring shot.id n).Pooled shot.id := fun hp =>
    hid ((htrace.pooled_iff shot.id).1 hp)
  cases hb : n.body with
  | native l =>
    have hreact := reacted_feeds htrace.sound hn' hb hid'
      (l.sameKind_fire shot.inputs (e.traceFiring shot.id n).world)
    have hf := htrace.trans hreact
    refine ⟨_, emitted shot.id (l.fire shot.inputs (e.traceFiring shot.id n).world), ?_, ?_,
      hf.sound, hf.flows, .of_alike hf.alike, hpending, fun m hm hp => ?_, ?_⟩
    · simp only [Engine.discharge, hn, hb]
    · simp only [Engine.fire, hn, hb, fireLogic_eq]
    · obtain ⟨x, -, rfl⟩ := List.mem_map.1 hm
      exact hid' ((hreact.pooled_iff shot.id).1 hp)
    · exact takes_reacted hn' hlen _
  | reference key b =>
    cases b with
    | some i =>
      refine ⟨_, (e.traceFiring shot.id n).forwarded shot.id shot.inputs, ?_, ?_, htrace.sound,
        htrace.flows, .of_alike htrace.alike, hpending,
        fun m hm => not_pooled_of_mem_forwarded htrace.sound hm,
        takes_of_bound htrace.sound hn' hb hlen⟩
      · simp only [Engine.discharge, hn, hb]
      · simp only [Engine.fire, hn, hb, forward_eq]
    | none =>
      obtain ⟨e₁, hengage, hsound, hflows⟩ := engage_spec htrace.sound hn' hb hid'
      have hlasts := lasts_engage htrace.sound hn' hb hengage
      refine ⟨e₁, e₁.forwarded shot.id shot.inputs, ?_, ?_, hsound, htrace.flows.trans hflows,
        (Graph.Lasts.of_alike htrace.alike).trans hlasts,
        (pending_engage htrace.sound hn' hb hengage).trans hpending,
        fun m hm => not_pooled_of_mem_forwarded hsound hm, ?_⟩
      · simp only [Engine.discharge, hn, hb, hengage]
      · simp only [Engine.fire, hn, hb, hengage, forward_eq]
      · obtain ⟨p, i, e', hE⟩ := engage_engaged htrace.sound hn' hb hengage
        obtain ⟨c, hc, hcb⟩ := hE.bound htrace.sound hn' hb
        obtain ⟨c', hc', -, hform⟩ := hlasts.live shot.id n hn'
        cases hc.symm.trans hc'
        exact takes_of_bound hsound hc hcb (hform.inputs.trans hlen)

/-- Nodes that fire one after another.  A node that has not had its turn yet stays, with its form,
and is not pooled meanwhile. -/
theorem inTurn_induct {P : Engine → List Shot → Prop} (hnil : ∀ {e}, P e [])
    (hcons : ∀ {e shot e₁ out shots}, Sound (.rest e) → ¬ e.Pooled shot.id →
      e.Discharges shot e₁ out → Feeds e₁ (e₁.send out) → P (e₁.send out) shots →
      P e (shot :: shots))
    {shots : List Shot} (h : Sound (.rest e))
    (hshots : ∀ shot ∈ shots, ¬ e.Pooled shot.id ∧
      ∃ n, e.graph.get? shot.id = some n ∧ n.inputs.length = shot.inputs.length) : P e shots := by
  induction shots generalizing e with
  | nil => exact hnil
  | cons shot shots ih =>
    obtain ⟨hid, n, hn, hlen⟩ := hshots shot List.mem_cons_self
    obtain ⟨e₁, out, hd⟩ := discharge_spec h hn hid hlen
    have hsend := send_feeds hd.sound hd.out
    have hlasts := hd.lasts.trans (.of_alike hsend.alike)
    refine hcons h hid hd hsend (ih hsend.sound fun x hx => ?_)
    obtain ⟨hxid, m, hm, hmlen⟩ := hshots x (List.mem_cons_of_mem shot hx)
    obtain ⟨m', hm', -, hform⟩ := hlasts.live x.id m hm
    exact ⟨fun hp => hxid (hd.flows.pooled (hsend.flows.pooled hp)), m', hm',
      hform.inputs.trans hmlen⟩

/-- The account of nodes that fire in turn is right. -/
structure Accounted (e : Engine) (shots : List Shot) : Prop where
  firings : firings (e.accountOf shots) = shots
  ending : ending e (e.accountOf shots) = (e.fireAll shots).2
  booked : e.Booked (e.accountOf shots)
  lasts : Graph.Lasts e.graph (e.fireAll shots).2.graph

theorem Discharges.accountOf (hd : e.Discharges shot e₁ out) (shots : List Shot) :
    e.accountOf (shot :: shots) =
      ⟨.fired shot, e₁⟩ :: (e₁.sending out ++ (e₁.send out).accountOf shots) := by
  rw [Engine.accountOf, hd.discharge]

theorem Discharges.fireAll (hd : e.Discharges shot e₁ out) (shots : List Shot) :
    e.fireAll (shot :: shots) = (e₁.send out).fireAll shots := by
  rw [Engine.fireAll, hd.fire]

theorem accounted_of_live {shots : List Shot} (h : Sound (.rest e))
    (hshots : ∀ shot ∈ shots, ¬ e.Pooled shot.id ∧
      ∃ n, e.graph.get? shot.id = some n ∧ n.inputs.length = shot.inputs.length) :
    e.Accounted shots := by
  refine inTurn_induct (P := Accounted) ⟨rfl, rfl, trivial, .refl _⟩ ?_ h hshots
  intro e shot e₁ out shots _ _ hd hsend hrest
  constructor
  · rw [hd.accountOf]
    show shot :: Engine.firings (e₁.sending out ++ _) = shot :: shots
    rw [firings_append, firings_sending, List.nil_append, hrest.firings]
  · rw [hd.accountOf, hd.fireAll]
    show Engine.ending e₁ (e₁.sending out ++ _) = _
    rw [ending_append, ending_sending, hrest.ending]
  · rw [hd.accountOf]
    refine ⟨⟨hd.sound, ⟨[], ?_, Nat.zero_le 1⟩, ?_⟩, booked_append ?_ ?_⟩
    · rw [List.append_nil]
      exact hd.pending
    · rintro x hx
      cases hx
      exact hd.takes
    · exact booked_sending hd.sound hd.out
    · rw [ending_sending]
      exact hrest.booked
  · rw [hd.fireAll]
    exact (hd.lasts.trans (.of_alike hsend.alike)).trans hrest.lasts

/-! ## Whole waves -/

/-- A node about to fire gets what its inputs hold, each of them a signal. -/
def AsHeld (g : Graph) (id : NodeId) (shot : Shot) : Prop :=
  shot.id = id ∧ ∃ n, g.get? id = some n ∧ n.inputs = shot.inputs.map some

theorem inputs_eq_of_ready (h : n.ready = true) : n.inputs = n.held.map some := by
  obtain ⟨-, hsome⟩ := Node.ready_iff.1 h
  rw [Node.held, List.map_map]
  refine (List.map_id _).symm.trans (List.map_congr_left fun s hs => ?_)
  obtain ⟨v, rfl⟩ := Option.isSome_iff_exists.1 (hsome s hs)
  rfl

/-- The signals are taken out of one node after another; as each is there once, this leaves alone
what the others hold. -/
theorem collect_asHeld {g : Graph} {ids : List NodeId} (hnodup : ids.Nodup)
    (hready : ∀ id ∈ ids, ∃ n, g.get? id = some n ∧ n.ready = true) :
    List.Forall₂ (AsHeld g) ids (collect g ids).1 := by
  have hstart : ∀ (ids : List NodeId) (g' : Graph), ids.Nodup →
      (∀ id ∈ ids, g'.get? id = g.get? id) →
      (∀ id ∈ ids, ∃ n, g.get? id = some n ∧ n.ready = true) →
      List.Forall₂ (AsHeld g) ids (collect g' ids).1 := by
    intro ids
    induction ids with
    | nil => exact fun _ _ _ _ => .nil
    | cons id ids ih =>
      intro g' hnodup hsame hready
      obtain ⟨n, hn, hr⟩ := hready id List.mem_cons_self
      have hn' : g'.get? id = some n := (hsame id List.mem_cons_self).trans hn
      rw [collect, hn']
      refine .cons ⟨rfl, n, hn, inputs_eq_of_ready hr⟩ (ih _ (List.nodup_cons.1 hnodup).2 ?_ ?_)
      · intro k hk
        have hne : id ≠ k := fun he => (List.nodup_cons.1 hnodup).1 (he ▸ hk)
        rw [Slots.get?_modify, if_neg hne]
        exact hsame k (List.mem_cons_of_mem id hk)
      · exact fun k hk => hready k (List.mem_cons_of_mem id hk)
  exact hstart ids g hnodup (fun _ _ => rfl) hready

theorem collect_asHeld_of_sound (h : Sound (.rest e)) :
    List.Forall₂ (AsHeld e.graph) e.pending (collect e.graph e.pending).1 := by
  have hbooks := punctual_of_sound h
  refine collect_asHeld hbooks.once fun id hid => ?_
  obtain ⟨n, hn, hfull⟩ := (hbooks.full id).1 hid
  exact ⟨n, hn, Node.ready_iff.2 hfull⟩

/-- What fires in a wave gets what it holds when the wave begins. -/
theorem asHeld_of_mem_collect (h : Sound (.rest e))
    (hshot : shot ∈ (collect e.graph e.pending).1) : AsHeld e.graph shot.id shot := by
  obtain ⟨i, hi, rfl⟩ := List.getElem_of_mem hshot
  obtain ⟨hlength, hget⟩ := List.forall₂_iff_get.1 (collect_asHeld_of_sound h)
  obtain ⟨hid, n, hn, hinputs⟩ := hget i (hlength.symm ▸ hi) hi
  rw [← hid] at hn
  exact ⟨rfl, n, hn, hinputs⟩

/-- What fires in a wave is there and not pooled when the wave begins. -/
theorem live_of_mem_collect (h : Sound (.rest e)) (hshot : shot ∈ (collect e.graph e.pending).1) :
    ¬ e.collected.Pooled shot.id ∧
      ∃ n, e.collected.graph.get? shot.id = some n ∧ n.inputs.length = shot.inputs.length := by
  refine ⟨not_pooled_of_mem_collect h hshot, ?_⟩
  obtain ⟨-, n, hn, hinputs⟩ := asHeld_of_mem_collect h hshot
  obtain ⟨n', hn', ha⟩ := e.alike_collected.live hn
  exact ⟨n', hn', ha.inputs.trans ((congrArg List.length hinputs).trans (List.length_map _))⟩

theorem wave_accounted (h : Sound (.rest e)) :
    e.collected.Accounted (collect e.graph e.pending).1 :=
  accounted_of_live (collected_spec h).1 fun _ hshot => live_of_mem_collect h hshot

/-- The sweep drops no pending entry: it frees nodes of quiet instances only, and what is pending
is in none of these. -/
theorem pending_sweep (h : Sound (.rest e)) : e.sweep.pending = e.pending := by
  have hmoves := (sweep_moves h).1
  have hsub : e.sweep.pending.Sublist e.pending := hmoves.pending
  have hstay : e.pending ⊆ e.sweep.pending := by
    intro id hid
    obtain ⟨n, hn, hs⟩ := (mem_pending_iff h id).1 hid
    have hactive : Graph.Active e.graph id := .scheduled hn hs
    have hkeep : e.sweep.graph.get? id = e.graph.get? id := hmoves.keep fun hnot => hnot hactive
    exact (mem_pending_iff (hmoves.sound h) id).2 ⟨n, hkeep.trans hn, hs⟩
  have hnodup : e.pending.Nodup := h.coherent.nodup
  exact hsub.eq_of_length_le (List.Nodup.subperm hnodup hstay).length_le

/-- A wave fires what is due when it begins and leaves what has become ready since. -/
structure Timely (e : Engine) : Prop where
  /-- Pending are the nodes that are ready, each once. -/
  due : e.pending.Nodup ∧ ∀ id, id ∈ e.pending ↔ Graph.Full e.graph id
  /-- These fire, in order, with what they hold. -/
  firings : List.Forall₂ (AsHeld e.graph) e.pending (firings e.account)
  takes : ∀ m ∈ e.account, ∀ shot, m.what = .fired shot → m.engine.Takes shot
  /-- What happens is what the wave does, up to the sweep. -/
  step : e.step = (.ok e.step.2.hasPending,
    { (ending e.collected e.account).sweep with
      steps := (ending e.collected e.account).sweep.steps + 1 })
  pending : e.step.2.pending = e.collected.readied e.account

theorem timely_of_sound (h : Sound (.rest e)) : e.Timely := by
  have hbooks := punctual_of_sound h
  have haccounted := wave_accounted h
  have hwave : ending e.collected e.account = e.wave := haccounted.ending
  refine ⟨⟨hbooks.once, hbooks.full⟩, ?_, fun m hm shot => takes_of_booked haccounted.booked hm,
    ?_, ?_⟩
  · rw [account, haccounted.firings]
    exact collect_asHeld_of_sound h
  · rw [hwave, step_eq h]
    rfl
  · have hpending := pending_ending (collected_spec h).1 haccounted.booked
    rw [step_eq h]
    show e.wave.sweep.pending = _
    rw [pending_sweep (wave_spec h).2.1, ← hwave]
    exact hpending

/-- In every engine that commands lead to, and in the wave after as well. -/
theorem timely_after (settings : Settings) (console : Console) (commands : List Command) :
    let e := (fresh settings console).after commands
    e.Timely ∧ e.step.2.Timely := by
  intro e
  have h : Sound (.rest e) := (settled_after settings console commands).sound
  refine ⟨timely_of_sound h, ?_⟩
  rw [step_eq h]
  exact timely_of_sound (swept_sound h)

end Engine

end PulseFlow
