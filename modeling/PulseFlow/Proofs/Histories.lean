import PulseFlow.Proofs.Retaining

/-!
# Histories

A session written down deed by deed: calls, signals that are delivered or lost, waves that begin by
taking the signals out of all that is pending, nodes that fire, waves that end with a sweep.  Each
deed is one operation of the engine, and one after the other they do what the session does.

    e.Settled → Records e (e.history commands) (e.after commands)            (records_history)

Only deliveries put signals into inputs and only the beginning of a wave takes them out (`Lawful`).
What fires, fires in a wave, and the nodes that fire in a wave are those that were pending when it
began, each once (`Records.waved`, `filterMap_waveDeeds`, `pairwise_waveDeeds`).
-/

namespace PulseFlow.Engine

variable {e e' : Engine}

/-! ## Deeds -/

/-- One thing that happens to an engine. -/
inductive Deed : Type 1 where
  /-- A call that sends no signal. -/
  | call (c : Call)
  | deliver (target : Socket) (signal : Signal)
  /-- A signal goes out at an output that does not exist. -/
  | lose (source : Socket)
  /-- A wave begins: the signals of all that is pending are taken out. -/
  | collect
  /-- A node fires, up to the point where it sends. -/
  | fire (shot : Shot)
  /-- A wave ends: what has gone quiet is unbound. -/
  | sweep

def Deed.shot? : Deed → Option Shot
  | .fire shot => some shot
  | _ => none

def carryOut (e : Engine) : Deed → Engine
  | .call c => e.answer c
  | .deliver target s => e.deliver target s
  | .lose source => e.report (.lostAtOutput source)
  | .collect => e.collected
  | .fire shot => ((e.discharge shot).map Prod.fst).getD e
  | .sweep => { e.sweep with steps := e.sweep.steps + 1 }

/-- The engine after some deeds. -/
def replay (e : Engine) (deeds : List Deed) : Engine := deeds.foldl carryOut e

theorem replay_append (e : Engine) (deeds deeds' : List Deed) :
    e.replay (deeds ++ deeds') = (e.replay deeds).replay deeds' := List.foldl_append

/-! ## Sessions as deeds -/

def Happening.deed : Happening → Deed
  | .fired shot => .fire shot
  | .delivered target s => .deliver target s
  | .lost source _ => .lose source

def deedsOf (moments : List Moment) : List Deed := moments.map fun m => m.what.deed

/-- The deeds of a wave. -/
def waveDeeds (e : Engine) : List Deed := .collect :: (deedsOf e.account ++ [.sweep])

/-- A signal from outside is delivered or refused; then nothing happens. -/
def callDeeds (e : Engine) : Call → List Deed
  | .pulse target s =>
    match (e.pulse target s).1 with
    | .ok _ => [.deliver target s]
    | .error _ => []
  | c => [.call c]

def history (e : Engine) : List Command → List Deed
  | [] => []
  | .call c :: commands => e.callDeeds c ++ (e.answer c).history commands
  | .step :: commands => e.waveDeeds ++ e.step.2.history commands
  | .run budget :: commands =>
    (runWaves 0 budget e).flatMap waveDeeds ++ (e.run budget).2.history commands

/-! ## What deeds do to inputs -/

/-- Deeds other than deliveries and the beginnings of waves leave the inputs of nodes alone. -/
def Permits (e : Engine) (deed : Deed) : Prop :=
  match deed with
  | .deliver _ _ | .collect => Graph.OneWay e.graph (e.carryOut deed).graph
  | _ => Graph.Retains e.graph (e.carryOut deed).graph

theorem Permits.oneWay {deed : Deed} (h : e.Permits deed) :
    Graph.OneWay e.graph (e.carryOut deed).graph := by
  cases deed with
  | deliver | collect => exact h
  | call | lose | fire | sweep => exact Graph.Retains.oneWay h

theorem permits_deliver (e : Engine) (target : Socket) (s : Signal) :
    e.Permits (.deliver target s) := Graph.OneWay.of_alike (e.alike_deliver target s)

theorem permits_collect (e : Engine) : e.Permits .collect := Graph.OneWay.of_alike e.alike_collected

def Lawful (e : Engine) : List Deed → Prop
  | [] => True
  | deed :: deeds => e.Permits deed ∧ (e.carryOut deed).Lawful deeds

theorem lawful_append {deeds deeds' : List Deed} (h : e.Lawful deeds)
    (h' : (e.replay deeds).Lawful deeds') : e.Lawful (deeds ++ deeds') := by
  induction deeds generalizing e with
  | nil => exact h'
  | cons deed deeds ih => exact ⟨h.1, ih h.2 h'⟩

/-- What a node holds after a deed, if it was there before. -/
def Deed.fed (e : Engine) (id : NodeId) (inputs : List (Option Signal)) :
    Deed → List (Option Signal)
  | .deliver target s => if target.node = id then inputs.set target.port (some s) else inputs
  | .collect => if id ∈ e.pending then inputs.map fun _ => none else inputs
  | _ => inputs

theorem inputs_deliver {target : Socket} {s : Signal} {id : NodeId} {n' : Node}
    (hn' : (e.deliver target s).graph.get? id = some n') :
    ∃ n, e.graph.get? id = some n ∧
      n'.inputs = if target.node = id then n.inputs.set target.port (some s) else n.inputs := by
  have hput : ∀ {n m : Node}, e.graph.get? target.node = some n →
      m.inputs = n.inputs.set target.port (some s) →
      (e.graph.modify target.node fun _ => m).get? id = some n' →
      ∃ n, e.graph.get? id = some n ∧
        n'.inputs = if target.node = id then n.inputs.set target.port (some s) else n.inputs := by
    intro n m hn hm hget
    rw [Graph.get?_put hn] at hget
    split at hget
    · next hid =>
      cases hget
      exact ⟨n, hid ▸ hn, by rw [if_pos hid.symm, hm]⟩
    · next hid => exact ⟨n', hget, (if_neg (Ne.symm hid)).symm⟩
  unfold deliver at hn'
  cases hn : e.graph.get? target.node with
  | none =>
    rw [hn] at hn'
    have hid : target.node ≠ id := by
      rintro rfl
      rw [show e.graph.get? target.node = some n' from hn'] at hn
      cases hn
    exact ⟨n', hn', (if_neg hid).symm⟩
  | some n =>
    rw [hn] at hn'
    dsimp only at hn'
    split at hn'
    · split at hn'
      · exact hput hn rfl hn'
      · exact hput hn rfl hn'
    · next hport =>
      refine ⟨n', hn', ?_⟩
      split
      · next hid =>
        cases hn.symm.trans (hid ▸ hn')
        rw [List.set_eq_of_length_le (Nat.not_lt.1 hport)]
      · rfl

theorem inputs_carryOut {deed : Deed} (h : e.Permits deed) {id : NodeId} {n' : Node}
    (hn' : (e.carryOut deed).graph.get? id = some n') :
    (∃ n, e.graph.get? id = some n ∧ n'.inputs = deed.fed e id n.inputs) ∨
      e.graph.get? id = none ∧ ∀ s ∈ n'.inputs, s = none := by
  cases deed with
  | deliver target s => exact .inl (inputs_deliver hn')
  | collect =>
    have hget : (collect e.graph e.pending).2.get? id = some n' := hn'
    rw [get?_collect] at hget
    by_cases hid : id ∈ e.pending
    · rw [if_pos hid] at hget
      obtain ⟨n, hn, rfl⟩ := Option.map_eq_some_iff.1 hget
      exact .inl ⟨n, hn, (if_pos hid).symm⟩
    · rw [if_neg hid] at hget
      exact .inl ⟨n', hget, (if_neg hid).symm⟩
  | call | lose | fire | sweep => exact Graph.Retains.row h id n' hn'

/-! ## Moments as deeds -/

/-- Every moment is a deed carried out, and no node is gone after it. -/
def Recorded (e : Engine) : List Moment → Prop
  | [] => True
  | m :: moments =>
    (m.engine = e.carryOut m.what.deed ∧ e.Permits m.what.deed ∧
      Graph.Lasts e.graph m.engine.graph) ∧ m.engine.Recorded moments

theorem recorded_append {moments moments' : List Moment} (h : e.Recorded moments)
    (h' : (ending e moments).Recorded moments') : e.Recorded (moments ++ moments') := by
  induction moments generalizing e with
  | nil => exact h'
  | cons m moments ih => exact ⟨h.1, ih h.2 h'⟩

theorem Recorded.replay {moments : List Moment} (h : e.Recorded moments) :
    e.replay (deedsOf moments) = ending e moments ∧ e.Lawful (deedsOf moments) := by
  induction moments generalizing e with
  | nil => exact ⟨rfl, trivial⟩
  | cons m moments ih =>
    obtain ⟨⟨hengine, hpermits, -⟩, hrest⟩ := h
    obtain ⟨hreplay, hlawful⟩ := ih hrest
    rw [hengine] at hreplay hlawful
    refine ⟨?_, hpermits, hlawful⟩
    show (e.carryOut m.what.deed).replay (deedsOf moments) = ending m.engine moments
    rw [hreplay, hengine]

theorem Recorded.lasts {moments : List Moment} (h : e.Recorded moments) (i : Nat) :
    Graph.Lasts e.graph (e.replay ((deedsOf moments).take i)).graph := by
  induction moments generalizing e i with
  | nil =>
    rw [deedsOf, List.map_nil, List.take_nil]
    exact .refl e.graph
  | cons m moments ih =>
    obtain ⟨⟨hengine, -, hlasts⟩, hrest⟩ := h
    cases i with
    | zero => exact .refl e.graph
    | succ i =>
      rw [hengine] at hlasts hrest
      exact hlasts.trans (ih hrest i)

theorem recorded_deliveries (e : Engine) (s : Signal) (targets : List Socket) :
    e.Recorded (e.deliveries s targets) := by
  induction targets generalizing e with
  | nil => trivial
  | cons target targets ih =>
    exact ⟨⟨rfl, e.permits_deliver target s, .of_alike (e.alike_deliver target s)⟩,
      ih (e.deliver target s)⟩

theorem recorded_sending (e : Engine) (out : List (Socket × Signal)) :
    e.Recorded (e.sending out) := by
  induction out generalizing e with
  | nil => trivial
  | cons m out ih =>
    refine recorded_append ?_ ?_
    · unfold emission
      split
      · exact e.recorded_deliveries m.2 _
      · exact ⟨⟨rfl, Graph.Retains.refl e.graph, .refl e.graph⟩, trivial⟩
    · rw [ending_emission]
      exact ih (e.emit m.1 m.2)

theorem recorded_of_live {shots : List Shot} (h : Sound (.rest e))
    (hshots : ∀ shot ∈ shots, ¬ e.Pooled shot.id ∧
      ∃ n, e.graph.get? shot.id = some n ∧ n.inputs.length = shot.inputs.length) :
    e.Recorded (e.accountOf shots) := by
  refine inTurn_induct (P := fun e shots => e.Recorded (e.accountOf shots)) trivial ?_ h hshots
  intro e shot e₁ out shots hs _ hd _ hrest
  have hfire : e.carryOut (.fire shot) = e₁ := by
    rw [carryOut, hd.discharge]
    rfl
  have hretains : Graph.Retains e.graph (e.carryOut (.fire shot)).graph := by
    rw [hfire]
    exact discharge_retains hs hd.discharge
  rw [hd.accountOf]
  refine ⟨⟨hfire.symm, hretains, hd.lasts⟩, recorded_append (e₁.recorded_sending out) ?_⟩
  rw [ending_sending]
  exact hrest

/-! ## Waves -/

theorem recorded_account (h : Sound (.rest e)) : e.collected.Recorded e.account :=
  recorded_of_live (collected_spec h).1 fun _ hshot => live_of_mem_collect h hshot

theorem replay_waveDeeds (h : Sound (.rest e)) :
    e.replay e.waveDeeds = e.swept ∧ e.Lawful e.waveDeeds := by
  obtain ⟨hreplay, hlawful⟩ := (recorded_account h).replay
  have hending : ending e.collected e.account = e.wave := (wave_accounted h).ending
  rw [hending] at hreplay
  have hsweep : Graph.Retains e.wave.graph e.wave.sweep.graph := sweep_retains (wave_spec h).2.1
  constructor
  · show e.collected.replay (deedsOf e.account ++ [.sweep]) = e.swept
    rw [replay_append, hreplay]
    rfl
  · refine ⟨e.permits_collect, lawful_append hlawful ?_⟩
    show (e.collected.replay (deedsOf e.account)).Lawful [.sweep]
    rw [hreplay]
    exact ⟨hsweep, trivial⟩

/-- Nodes stay in the graph up to the sweep. -/
theorem lasts_waveDeeds (h : Sound (.rest e)) {i : Nat} (hi : i < e.waveDeeds.length) :
    Graph.Lasts e.graph (e.replay (e.waveDeeds.take i)).graph := by
  cases i with
  | zero => exact .refl e.graph
  | succ i =>
    have hlength : i ≤ (deedsOf e.account).length := by
      rw [waveDeeds, List.length_cons, List.length_append, List.length_singleton] at hi
      omega
    show Graph.Lasts e.graph
      (e.collected.replay ((deedsOf e.account ++ [Deed.sweep]).take i)).graph
    rw [List.take_append_of_le_length hlength]
    exact (Graph.Lasts.of_alike e.alike_collected).trans ((recorded_account h).lasts i)

theorem shot?_deed (w : Happening) : w.deed.shot? = w.shot? := by
  cases w <;> rfl

/-- The nodes that fire in a wave, with what they get. -/
theorem filterMap_waveDeeds (h : Sound (.rest e)) :
    e.waveDeeds.filterMap Deed.shot? = (collect e.graph e.pending).1 := by
  have hfirings : firings e.account = (collect e.graph e.pending).1 := (wave_accounted h).firings
  show (deedsOf e.account ++ [Deed.sweep]).filterMap Deed.shot? = _
  rw [List.filterMap_append, deedsOf, List.filterMap_map, ← hfirings, firings]
  show _ ++ [] = _
  rw [List.append_nil]
  exact List.filterMap_congr fun m _ => shot?_deed m.what

/-- No node fires twice in a wave, as none is pending twice. -/
theorem pairwise_waveDeeds (h : Sound (.rest e)) :
    e.waveDeeds.Pairwise fun a b =>
      ∀ shot, a.shot? = some shot → ∀ shot', b.shot? = some shot' → shot.id ≠ shot'.id := by
  have hids : ∀ {ids : List NodeId} {shots : List Shot},
      List.Forall₂ (AsHeld e.graph) ids shots → shots.map Shot.id = ids := by
    intro ids shots hforall
    induction hforall with
    | nil => rfl
    | cons hone _ ih => rw [List.map_cons, hone.1, ih]
  have hnodup : ((collect e.graph e.pending).1.map Shot.id).Nodup := by
    rw [hids (collect_asHeld_of_sound h)]
    exact h.coherent.nodup
  rw [← filterMap_waveDeeds h, List.Nodup, List.pairwise_map, List.pairwise_filterMap] at hnodup
  exact hnodup

/-- Within a wave no other wave begins. -/
theorem collect_not_mem_tail (e : Engine) : .collect ∉ e.waveDeeds.tail := by
  intro hmem
  rcases List.mem_append.1 hmem with hmem | hmem
  · obtain ⟨m, -, hm⟩ := List.mem_map.1 hmem
    cases hw : m.what <;> rw [hw] at hm <;> cases hm
  · cases List.mem_singleton.1 hmem

/-! ## Runs and sessions -/

/-- Deeds that do what a session does from a sound engine on: `e'` is the engine afterwards. -/
structure Records (e : Engine) (deeds : List Deed) (e' : Engine) : Prop where
  replay : e.replay deeds = e'
  lawful : e.Lawful deeds
  /-- What fires, fires in a wave of a sound engine. -/
  waved : ∀ t shot, deeds[t]? = some (.fire shot) → ∃ before after,
    deeds = before ++ ((e.replay before).waveDeeds ++ after) ∧ Sound (.rest (e.replay before)) ∧
      before.length < t ∧ t < before.length + (e.replay before).waveDeeds.length

namespace Records

variable {e'' : Engine} {deeds deeds' : List Deed}

theorem refl (e : Engine) : Records e [] e := ⟨rfl, trivial, fun t shot h => by cases h⟩

theorem trans (h : Records e deeds e') (h' : Records e' deeds' e'') :
    Records e (deeds ++ deeds') e'' := by
  refine ⟨?_, lawful_append h.lawful (h.replay ▸ h'.lawful), fun t shot ht => ?_⟩
  · rw [replay_append, h.replay, h'.replay]
  · rw [List.getElem?_append] at ht
    split at ht
    · obtain ⟨before, after, hdeeds, hsound, hlt, hgt⟩ := h.waved t shot ht
      refine ⟨before, after ++ deeds', ?_, hsound, hlt, hgt⟩
      rw [hdeeds, List.append_assoc, List.append_assoc]
    · obtain ⟨before, after, hdeeds, hsound, hlt, hgt⟩ := h'.waved _ shot ht
      have hreplay : e.replay (deeds ++ before) = e'.replay before := by
        rw [replay_append, h.replay]
      refine ⟨deeds ++ before, after, ?_, ?_, ?_, ?_⟩
      · rw [hreplay, List.append_assoc, ← hdeeds]
      · rw [hreplay]
        exact hsound
      · rw [List.length_append]
        omega
      · rw [hreplay, List.length_append]
        omega

/-- A single deed that is not the firing of a node. -/
theorem single {deed : Deed} (h : e.Permits deed) (hfire : deed.shot? = none) :
    Records e [deed] (e.carryOut deed) := by
  refine ⟨rfl, ⟨h, trivial⟩, fun t shot ht => ?_⟩
  have hdeed : deed = .fire shot := by
    rw [List.getElem?_singleton] at ht
    split at ht
    · exact Option.some.inj ht
    · cases ht
  rw [hdeed] at hfire
  cases hfire

theorem wave (h : Sound (.rest e)) : Records e e.waveDeeds e.swept := by
  obtain ⟨hreplay, hlawful⟩ := replay_waveDeeds h
  refine ⟨hreplay, hlawful, fun t shot ht => ⟨[], [], (List.append_nil _).symm, h, ?_, ?_⟩⟩
  · cases t with
    | zero => cases ht
    | succ t => exact Nat.succ_pos t
  · rw [List.length_nil, Nat.zero_add]
    exact (List.getElem?_eq_some_iff.1 ht).1

end Records

theorem records_run {taken budget : Nat} (h : e.Settled) :
    Records e ((runWaves taken budget e).flatMap waveDeeds) (runFrom taken budget e).2 := by
  induction budget generalizing e taken with
  | zero =>
    rw [runFrom]
    split <;> exact .refl e
  | succ budget ih =>
    rw [runFrom, runWaves, step_eq h.sound]
    split
    · split
      · exact .refl e
      · exact (Records.wave h.sound).trans (ih (swept_settled h))
    · exact .refl e

theorem pulse_cases (e : Engine) (target : Socket) (s : Signal) :
    (∃ err, e.pulse target s = (.error err, e)) ∨
      e.pulse target s = (.ok (), e.deliver target s) := by
  unfold pulse
  cases e.visible target.node with
  | error err => exact .inl ⟨err, rfl⟩
  | ok n =>
    dsimp only
    cases Graph.checkInput e.graph target with
    | error err => exact .inl ⟨err, rfl⟩
    | ok u => exact .inr rfl

theorem records_call (h : e.Settled) (c : Call) : Records e (e.callDeeds c) (e.answer c) := by
  by_cases hc : c.Sends
  · cases c with
    | pulse target s =>
      show Records e (e.callDeeds (.pulse target s)) (e.pulse target s).2
      rw [callDeeds]
      rcases e.pulse_cases target s with ⟨err, hp⟩ | hp
      · rw [hp]
        exact .refl e
      · rw [hp]
        have hone : Records e [.deliver target s] (e.deliver target s) :=
          .single (e.permits_deliver target s) rfl
        exact hone
    | _ => cases hc
  · have hone : Records e [.call c] (e.answer c) := .single (answer_retains h hc) rfl
    cases c with
    | pulse => exact absurd trivial hc
    | _ => exact hone

theorem records_history (h : e.Settled) (commands : List Command) :
    Records e (e.history commands) (e.after commands) := by
  induction commands generalizing e with
  | nil => exact .refl e
  | cons command commands ih =>
    have hrest := ih (perform_settled h command)
    cases command with
    | call c => exact (records_call h c).trans hrest
    | step =>
      have hwave : Records e e.waveDeeds e.step.2 := by
        rw [step_eq h.sound]
        exact .wave h.sound
      exact hwave.trans hrest
    | run budget => exact (records_run h).trans hrest

end PulseFlow.Engine
