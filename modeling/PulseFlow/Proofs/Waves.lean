import PulseFlow.Proofs.Feeding
import PulseFlow.Proofs.Teardown

/-!
# Waves in a sound engine

A wave of a sound engine never fails and leaves a sound engine (`swept_sound`); at its end only
references that are still active are bound (`busy_swept`).  A run is as many waves, so it fails only
for want of waves.

    Sound (rest e) → e.step = (.ok e'.hasPending, e'), e' being e.wave swept        (step_eq)
-/

namespace PulseFlow

/-! ## Busy references -/

/-- Every bound reference is active. -/
def Graph.Busy (g : Graph) : Prop := ∀ id i, Graph.instance? g id = some i → Graph.Active g id

namespace Graph

variable {g g' : Graph} {S : NodeId → Prop} {id : NodeId}

/-- Without scheduled nodes nothing is active. -/
theorem Active.exists_scheduled (h : Active g id) : ∃ m, Scheduled g m := by
  induction h with
  | scheduled hn hs => exact ⟨_, _, hn, hs⟩
  | inside _ _ _ ih => exact ih

/-- What is active stays so where bindings stay and nothing is taken off schedule, for it and for
what is active below it. -/
theorem Active.transfer {P : NodeId → Prop} (h : Active g id) (hid : P id)
    (hb : ∀ k, P k → instance? g' k = instance? g k)
    (hs : ∀ k, P k → Scheduled g k → Scheduled g' k)
    (hdown : ∀ k i m, instance? g k = some i → m ∈ i.nodes → Active g m → P k → P m) :
    Active g' id := by
  induction h with
  | scheduled hn hsch =>
    obtain ⟨n', hn', hs'⟩ := hs _ hid ⟨_, hn, hsch⟩
    exact .scheduled hn' hs'
  | @inside k m i hi hm ha ih =>
    exact .inside ((hb k hid).trans hi) hm (ih (hdown k i m hi hm ha hid))

theorem Busy.mono (h : Busy g) (hb : ∀ k, instance? g' k = instance? g k)
    (hs : ∀ k, Scheduled g k → Scheduled g' k) : Busy g' := by
  intro id i hi
  have ha := h id i ((hb id).symm.trans hi)
  exact ha.transfer (P := fun _ => True) trivial (fun k _ => hb k) (fun k _ => hs k)
    fun _ _ _ _ _ _ _ => trivial

/-- Activity stays where neither a node nor what is active below it is touched. -/
theorem Active.of_keep {P : NodeId → Prop} (h : Active g id) (hid : P id)
    (hk : ∀ k, P k → g'.get? k = g.get? k)
    (hdown : ∀ k i m, instance? g k = some i → m ∈ i.nodes → Active g m → P k → P m) :
    Active g' id := by
  refine h.transfer hid (fun k hP => ?_) (fun k hP hs => ?_) hdown
  · rw [instance?, hk k hP, instance?]
  · rw [Scheduled, hk k hP]
    exact hs

/-- Bound references stay active when a set of nodes is touched that holds no bound reference
afterwards and contains each reference whose instance it touches. -/
theorem Busy.of_keep (h : Busy g) (hk : ∀ k, ¬ S k → g'.get? k = g.get? k)
    (hup : ∀ k i m, instance? g k = some i → m ∈ i.nodes → S m → S k)
    (hun : ∀ k, S k → instance? g' k = none) : Busy g' := by
  intro k i hi
  by_cases hSk : S k
  · rw [hun k hSk] at hi
    cases hi
  · have hi' : instance? g k = some i := by
      rw [instance?, ← hk k hSk]
      exact hi
    exact (h k i hi').of_keep hSk hk fun k i m hi hm _ hSk hSm => hSk (hup k i m hi hm hSm)

end Graph

theorem Engine.Feeds.busy {e e' : Engine} (h : e.Feeds e') (hb : Graph.Busy e.graph) :
    Graph.Busy e'.graph :=
  hb.mono h.bound h.scheduled

namespace Engine

variable {e e' : Engine} {id : NodeId}

/-! ## Sending -/

/-- Sends signals out, one after another. -/
def send (e : Engine) (out : List (Socket × Signal)) : Engine :=
  out.foldl (fun e m => e.emit m.1 m.2) e

theorem send_feeds (h : Sound (.rest e)) {out : List (Socket × Signal)}
    (hout : ∀ m ∈ out, ¬ e.Pooled m.1.node) : Feeds e (e.send out) := by
  induction out generalizing e with
  | nil => exact .refl h
  | cons m out ih =>
    have hf := emit_feeds h (hout m List.mem_cons_self) m.2
    exact hf.trans (ih hf.sound fun x hx hp =>
      hout x (List.mem_cons_of_mem m hx) ((hf.pooled_iff _).1 hp))

/-! ## Firing one node -/

/-- What a bound reference sends into its instance. -/
def forwarded (e : Engine) (id : NodeId) (inputs : List Signal) : List (Socket × Signal) :=
  ((((e.instance? id).map Instance.inputs).getD []).zip inputs).map fun q => (⟨q.1, 0⟩, q.2)

theorem forward_eq (e : Engine) (id : NodeId) (inputs : List Signal) :
    e.forward id inputs = e.send (e.forwarded id inputs) := by
  rw [send, forwarded, List.foldl_map]
  rfl

/-- What is forwarded goes out at the inputs of the instance. -/
theorem mem_forwarded {inputs : List Signal} {m : Socket × Signal}
    (hm : m ∈ e.forwarded id inputs) : ∃ i, e.instance? id = some i ∧ m.1.node ∈ i.inputs := by
  obtain ⟨q, hq, rfl⟩ := List.mem_map.1 hm
  have hentry := (List.of_mem_zip hq).1
  cases hi : e.instance? id with
  | none =>
    rw [hi] at hentry
    cases hentry
  | some i =>
    rw [hi, Option.map_some, Option.getD_some] at hentry
    exact ⟨i, rfl, hentry⟩

theorem not_pooled_of_mem_forwarded (h : Sound (.rest e)) {inputs : List Signal}
    {m : Socket × Signal} (hm : m ∈ e.forwarded id inputs) : ¬ e.Pooled m.1.node := by
  obtain ⟨i, hi, hentry⟩ := mem_forwarded hm
  have hmem := Sound.mem_of_bound (w := .rest e) hi
  exact not_pooled_of_bound h hi (h.owning.boundary i hmem m.1.node (.inl hentry))

theorem forward_feeds (h : Sound (.rest e)) (id : NodeId) (inputs : List Signal) :
    Feeds e (e.forward id inputs) := by
  rw [forward_eq]
  exact send_feeds h fun m hm => not_pooled_of_mem_forwarded h hm

/-- An engine in which a logic has run and nothing that it emits is sent yet. -/
def reacted (e : Engine) (id : NodeId) (f : Firing) : Engine :=
  { e with
    graph := e.graph.modify id fun n => { n with body := .native f.logic }
    world := f.world }

/-- What a logic sends out. -/
def emitted (id : NodeId) (f : Firing) : List (Socket × Signal) :=
  f.emissions.map fun m => (⟨id, m.port⟩, m.signal)

theorem fireLogic_eq (e : Engine) (id : NodeId) (l : Logic) (inputs : List Signal) :
    e.fireLogic id l inputs =
      (e.reacted id (l.fire inputs e.world)).send (emitted id (l.fire inputs e.world)) := by
  rw [send, emitted, List.foldl_map]
  rfl

/-- The node has its logic moved on, the books are as before. -/
theorem reacted_feeds {n : Node} {l : Logic} {f : Firing} (h : Sound (.rest e))
    (hn : e.graph.get? id = some n) (hb : n.body = .native l) (hid : ¬ e.Pooled id)
    (hkind : l.SameKind f.logic) : Feeds e (e.reacted id f) := by
  have hbody : Feeds e { e with
      graph := e.graph.modify id fun _ => { n with body := .native f.logic }
      pending := e.pending } := by
    refine feeds_modify h hn ⟨rfl, rfl, rfl, .inr ⟨l, f.logic, hb, rfl, hkind⟩⟩ hid
      (h.coherent.ready id n hn) (fun hs => hs) ?_
    rw [if_neg]
    rintro ⟨h₁, h₂⟩
    rw [show n.scheduled = true from h₁] at h₂
    cases h₂
  have hsame : (e.graph.modify id fun n => { n with body := .native f.logic }) =
      e.graph.modify id fun _ => { n with body := .native f.logic } := Slots.modify_congr hn rfl
  rw [reacted, hsame]
  exact hbody.trans (feeds_world hbody.sound f.world)

theorem fireLogic_feeds {n : Node} {l : Logic} (h : Sound (.rest e))
    (hn : e.graph.get? id = some n) (hb : n.body = .native l) (hid : ¬ e.Pooled id)
    (inputs : List Signal) : Feeds e (e.fireLogic id l inputs) := by
  have hreact := reacted_feeds h hn hb hid (l.sameKind_fire inputs e.world)
  rw [fireLogic_eq]
  refine hreact.trans (send_feeds hreact.sound fun m hm hp => ?_)
  obtain ⟨x, -, rfl⟩ := List.mem_map.1 hm
  exact hid ((hreact.pooled_iff id).1 hp)

theorem traceFiring_feeds (h : Sound (.rest e)) (id : NodeId) (n : Node) :
    Feeds e (e.traceFiring id n) := by
  unfold traceFiring
  split
  · exact feeds_report h _
  · exact .refl h

theorem graph_traceFiring (e : Engine) (id : NodeId) (n : Node) :
    (e.traceFiring id n).graph = e.graph := by
  unfold traceFiring
  split <;> rfl

theorem fire_spec (h : Sound (.rest e)) (hid : ¬ e.Pooled id) (inputs : List Signal) :
    ∃ e', e.fire id inputs = (.ok (), e') ∧ Sound (.rest e') ∧ Flows e e' := by
  unfold fire
  cases hn : e.graph.get? id with
  | none => exact ⟨e, rfl, h, .refl e⟩
  | some n =>
    have htrace := traceFiring_feeds h id n
    have hn' : (e.traceFiring id n).graph.get? id = some n := by
      rw [graph_traceFiring]
      exact hn
    have hid' : ¬ (e.traceFiring id n).Pooled id := fun hp => hid ((htrace.pooled_iff id).1 hp)
    dsimp only
    split
    · next l hb =>
      have hf := htrace.trans (fireLogic_feeds htrace.sound hn' hb hid' inputs)
      exact ⟨_, rfl, hf.sound, hf.flows⟩
    · have hf := htrace.trans (forward_feeds htrace.sound id inputs)
      exact ⟨_, rfl, hf.sound, hf.flows⟩
    · next k hb =>
      obtain ⟨e₁, hengage, hsound, hflows⟩ := engage_spec htrace.sound hn' hb hid'
      have hf := forward_feeds hsound id inputs
      rw [hengage]
      exact ⟨_, rfl, hf.sound, (htrace.flows.trans hflows).trans hf.flows⟩

theorem fireAll_spec (h : Sound (.rest e)) {shots : List Shot}
    (hshots : ∀ shot ∈ shots, ¬ e.Pooled shot.id) :
    ∃ e', e.fireAll shots = (.ok (), e') ∧ Sound (.rest e') ∧ Flows e e' := by
  induction shots generalizing e with
  | nil => exact ⟨e, rfl, h, .refl e⟩
  | cons shot shots ih =>
    obtain ⟨e₁, hfire, hsound, hflows⟩ := fire_spec h (hshots shot List.mem_cons_self) shot.inputs
    obtain ⟨e₂, hall, hsound₂, hflows₂⟩ := ih hsound fun x hx hp =>
      hshots x (List.mem_cons_of_mem shot hx) (hflows.pooled hp)
    refine ⟨e₂, ?_, hsound₂, hflows.trans hflows₂⟩
    rw [fireAll, hfire]
    exact hall

/-! ## Collecting what fires -/

theorem get?_collect (g : Graph) (ids : List NodeId) (k : NodeId) :
    (collect g ids).2.get? k = if k ∈ ids then (g.get? k).map Node.drain else g.get? k := by
  induction ids generalizing g with
  | nil => rw [collect, if_neg List.not_mem_nil]
  | cons id ids ih =>
    rw [collect]
    cases hn : g.get? id with
    | none =>
      show (collect g ids).2.get? k = _
      rw [ih]
      by_cases hk : k = id
      · rw [hk, hn]
        simp
      · simp [hk]
    | some n =>
      show (collect (g.modify id Node.drain) ids).2.get? k = _
      rw [ih, Slots.get?_modify]
      by_cases hk : k = id
      · subst hk
        rw [if_pos rfl, if_pos List.mem_cons_self, hn]
        by_cases hm : k ∈ ids
        · rw [if_pos hm, Option.map_some, Option.map_some, n.drain_drain]
        · rw [if_neg hm]
      · simp [hk, Ne.symm hk]

theorem id_mem_of_mem_collect {g : Graph} {ids : List NodeId} {shot : Shot}
    (h : shot ∈ (collect g ids).1) : shot.id ∈ ids := by
  induction ids generalizing g with
  | nil =>
    rw [collect] at h
    cases h
  | cons id ids ih =>
    rw [collect] at h
    cases hn : g.get? id with
    | none =>
      rw [hn] at h
      exact List.mem_cons_of_mem id (ih h)
    | some n =>
      rw [hn] at h
      rcases List.mem_cons.1 h with rfl | h
      · exact List.mem_cons_self
      · exact List.mem_cons_of_mem id (ih h)

theorem tidy_collect {g : Graph} (h : g.Tidy) (ids : List NodeId) : (collect g ids).2.Tidy := by
  induction ids generalizing g with
  | nil => exact h
  | cons id ids ih =>
    rw [collect]
    cases g.get? id with
    | none => exact ih h
    | some n => exact ih (Slots.tidy_modify h id _)

theorem mem_pending_iff (h : Sound (.rest e)) (id : NodeId) :
    id ∈ e.pending ↔ Graph.Scheduled e.graph id :=
  h.coherent.mem_pending_iff id

theorem not_pooled_of_scheduled (h : Sound (.rest e)) (hs : Graph.Scheduled e.graph id) :
    ¬ e.Pooled id := by
  rintro ⟨k, p, i, hp, hi, hm⟩
  obtain ⟨n, hn, hs⟩ := hs
  have := (h.idle k p hp i hi).unscheduled id hm n hn
  rw [hs] at this
  cases this

/-- An engine about to fire what was pending. -/
def collected (e : Engine) : Engine :=
  { e with graph := (collect e.graph e.pending).2, pending := [] }

theorem alike_collected (e : Engine) : Graph.Alike e.graph e.collected.graph := by
  intro k
  show Option.Rel Node.Alike (e.graph.get? k) ((collect e.graph e.pending).2.get? k)
  rw [get?_collect]
  cases hn : e.graph.get? k with
  | none =>
    split
    · exact .none
    · exact .none
  | some n =>
    split
    · exact .some (.drain n)
    · exact .some (.refl n)

theorem collected_spec (h : Sound (.rest e)) : Sound (.rest e.collected) ∧ Flows e e.collected := by
  have hget := get?_collect e.graph e.pending
  -- every scheduled node was pending, so none is left
  have hnone : ∀ k n, e.collected.graph.get? k = some n → n.scheduled = false := by
    intro k n hn
    have hn' : (collect e.graph e.pending).2.get? k = some n := hn
    rw [hget] at hn'
    by_cases hk : k ∈ e.pending
    · rw [if_pos hk, Option.map_eq_some_iff] at hn'
      obtain ⟨m, -, rfl⟩ := hn'
      rfl
    · rw [if_neg hk] at hn'
      by_contra hs
      rw [Bool.not_eq_false] at hs
      exact hk ((mem_pending_iff h k).2 ⟨n, hn', hs⟩)
  have hcoherent : Coherent e.collected.graph [] [] := by
    refine ⟨List.nodup_nil, fun k hk => absurd hk List.not_mem_nil, fun k hk => ?_,
      fun k n hn => ?_⟩
    · obtain ⟨n, hn, hs⟩ := hk
      rw [hnone k n hn] at hs
      cases hs
    · rw [hnone k n hn]
      have hn' : (collect e.graph e.pending).2.get? k = some n := hn
      rw [hget] at hn'
      by_cases hk : k ∈ e.pending
      · rw [if_pos hk, Option.map_eq_some_iff] at hn'
        obtain ⟨m, -, rfl⟩ := hn'
        exact m.ready_drain.symm
      · rw [if_neg hk] at hn'
        rw [← hnone k n hn]
        exact h.coherent.ready k n hn'
  refine ⟨h.of_alike e.alike_collected (tidy_collect h.tidy e.pending) rfl rfl rfl rfl hcoherent
    fun k _ => hnone k, .of_keep (fun _ => rfl) rfl fun k => ?_⟩
  by_cases hk : k ∈ e.pending
  · exact .inl (not_pooled_of_scheduled h ((mem_pending_iff h k).1 hk))
  · refine .inr ?_
    show (collect e.graph e.pending).2.get? k = _
    rw [hget, if_neg hk]

/-! ## Whole waves -/

/-- An engine that has fired all that was pending and has not unbound anything yet. -/
def wave (e : Engine) : Engine := (e.collected.fireAll (collect e.graph e.pending).1).2

/-- What fires is not pooled. -/
theorem not_pooled_of_mem_collect (h : Sound (.rest e)) {shot : Shot}
    (hshot : shot ∈ (collect e.graph e.pending).1) : ¬ e.collected.Pooled shot.id := by
  intro hp
  have hid := (mem_pending_iff h shot.id).1 (id_mem_of_mem_collect hshot)
  exact not_pooled_of_scheduled h hid ((collected_spec h).2.pooled hp)

theorem wave_spec (h : Sound (.rest e)) :
    e.collected.fireAll (collect e.graph e.pending).1 = (.ok (), e.wave) ∧
      Sound (.rest e.wave) ∧ Flows e e.wave := by
  obtain ⟨hsound, hflows⟩ := collected_spec h
  obtain ⟨e', hfire, hsound', hflows'⟩ := fireAll_spec hsound fun shot hshot =>
    not_pooled_of_mem_collect h hshot
  have hwave : e.wave = e' := congrArg Prod.snd hfire
  rw [hwave]
  exact ⟨hfire, hsound', hflows.trans hflows'⟩

/-- What a wave leaves. -/
def swept (e : Engine) : Engine := { e.wave.sweep with steps := e.wave.sweep.steps + 1 }

theorem step_eq (h : Sound (.rest e)) : e.step = (.ok e.swept.hasPending, e.swept) := by
  have hfire : Engine.fireAll { e with graph := (collect e.graph e.pending).2, pending := [] }
      (collect e.graph e.pending).1 = (.ok (), e.wave) := (wave_spec h).1
  unfold step
  generalize collect e.graph e.pending = collected at hfire ⊢
  dsimp only
  rw [hfire]
  rfl

theorem swept_sound (h : Sound (.rest e)) : Sound (.rest e.swept) := by
  have hsound := (sweep_moves (wave_spec h).2.1).1.sound (wave_spec h).2.1
  exact hsound.of_eq rfl rfl rfl rfl rfl rfl

/-- After a wave every bound reference is active.  What is active is not touched by the sweep, so it
stays active. -/
theorem busy_swept (h : Sound (.rest e)) : Graph.Busy e.swept.graph := by
  obtain ⟨hmoves, hun⟩ := sweep_moves (wave_spec h).2.1
  intro id i hi
  have hid : Graph.Active e.wave.graph id := by
    by_contra hid
    have hnone := hun id hid
    rw [show e.wave.sweep.instance? id = some i from hi] at hnone
    cases hnone
  exact hid.of_keep hid (fun k hk => hmoves.keep fun hn => hn hk) fun _ _ _ _ _ ha _ => ha

/-! ## Runs -/

/-- Without a limit, a run with something pending begins with a wave. -/
theorem runFrom_of_step {taken budget : Nat} {more : Bool} (hp : e.hasPending = true)
    (hmax : e.settings.maxSteps = none) (hstep : e.step = (.ok more, e')) :
    runFrom taken (budget + 1) e = runFrom (taken + 1) budget e' := by
  rw [runFrom, if_pos hp, hmax, hstep]
  rfl

/-- A run that was given too few waves can be taken up where it stopped. -/
theorem runFrom_add {taken budget extra : Nat} (h : runFrom taken budget e = (.unfinished, e')) :
    runFrom taken (budget + extra) e = runFrom (taken + budget) extra e' := by
  induction budget generalizing e taken with
  | zero =>
    rw [runFrom] at h
    split at h
    · cases h
      rw [Nat.zero_add, Nat.add_zero]
    · cases h
  | succ budget ih =>
    rw [Nat.add_right_comm]
    rw [runFrom] at h ⊢
    split at h
    · split at h
      · cases h
      · next hp hlimit =>
        rw [if_pos hp, if_neg hlimit]
        split at h
        · cases h
        · rw [ih h, Nat.add_right_comm, Nat.add_assoc]
    · cases h

/-- A run that ends idle has no use for more waves. -/
theorem runFrom_idle_add {taken budget total : Nat} (h : runFrom taken budget e = (.idle total, e'))
    (extra : Nat) : runFrom taken (budget + extra) e = (.idle total, e') := by
  induction budget generalizing e taken with
  | zero =>
    rw [runFrom] at h
    split at h
    · cases h
    · next hp =>
      cases extra with
      | zero =>
        rw [runFrom, if_neg hp]
        exact h
      | succ extra =>
        rw [Nat.zero_add, runFrom, if_neg hp]
        exact h
  | succ budget ih =>
    rw [Nat.add_right_comm]
    rw [runFrom] at h ⊢
    split at h
    · split at h
      · cases h
      · next hp hlimit =>
        rw [if_pos hp, if_neg hlimit]
        split at h
        · cases h
        · exact ih h
    · next hp =>
      rw [if_neg hp]
      exact h

/-- A run keeps what its waves keep. -/
theorem runFrom_induct {P : Engine → Prop} (hP : ∀ e, Sound (.rest e) → P e → P e.swept)
    {taken budget : Nat} (h : Sound (.rest e)) (he : P e) :
    Sound (.rest (runFrom taken budget e).2) ∧ P (runFrom taken budget e).2 := by
  induction budget generalizing e taken with
  | zero =>
    rw [runFrom]
    split
    · exact ⟨h, he⟩
    · exact ⟨h, he⟩
  | succ budget ih =>
    rw [runFrom, step_eq h]
    split
    · split
      · exact ⟨h, he⟩
      · exact ih (swept_sound h) (hP e h he)
    · exact ⟨h, he⟩

/-- A run that ends idle leaves nothing pending. -/
theorem hasPending_of_runFrom_idle {taken budget n : Nat} (h : Sound (.rest e))
    (hidle : (runFrom taken budget e).1 = .idle n) :
    (runFrom taken budget e).2.hasPending = false := by
  induction budget generalizing e taken with
  | zero =>
    rw [runFrom] at hidle ⊢
    split at hidle
    · cases hidle
    · next hp =>
      rw [if_neg hp]
      exact Bool.eq_false_iff.2 hp
  | succ budget ih =>
    rw [runFrom, step_eq h] at hidle ⊢
    by_cases hp : e.hasPending = true
    · rw [if_pos hp] at hidle ⊢
      split at hidle
      · cases hidle
      · next hlimit =>
        rw [if_neg hlimit]
        exact ih (swept_sound h) hidle
    · rw [if_neg hp]
      exact Bool.eq_false_iff.2 hp

/-! ## Signals from outside -/

theorem pulse_feeds (h : Sound (.rest e)) (target : Socket) (s : Signal) :
    Feeds e (e.pulse target s).2 := by
  unfold pulse
  cases hv : e.visible target.node with
  | error err => exact .refl h
  | ok n =>
    dsimp only
    split
    · exact .refl h
    · exact deliver_feeds h (not_pooled_of_visible h ⟨n, get?_of_visible hv⟩) s

end Engine

end PulseFlow
