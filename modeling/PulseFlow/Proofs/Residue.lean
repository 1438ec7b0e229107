import PulseFlow.Proofs.Sessions

/-!
# What pooled instances hold

A node keeps the signals it has received until all its inputs hold one.  An instance goes back to
its pool as soon as nothing in it is due, so a node of it that has some of its signals takes them
along, and the next reference that is bound to the instance starts with them.  This is the only way
for a signal into a pool: firing does not reach pooled nodes, no call puts an instance into a pool,
and the sweep at the end of a wave changes no inputs.

    pools hold nothing all through a session
      ↔ no wave of it gives back an instance that holds something     (emptyPools_trail_iff)
-/

namespace PulseFlow

/-! ## Empty instances -/

/-- No node of the instance holds a signal. -/
def Instance.EmptyIn (g : Graph) (i : Instance) : Prop :=
  ∀ id ∈ i.nodes, ∀ n, g.get? id = some n → ∀ s ∈ n.inputs, s = none

instance (g : Graph) (i : Instance) : Decidable (i.EmptyIn g) :=
  decidable_of_iff (∀ id ∈ i.nodes, ∀ n ∈ g.get? id, ∀ s ∈ n.inputs, s = none) Iff.rfl

theorem Instance.EmptyIn.of_held {g g' : Graph} {i : Instance} (h : i.EmptyIn g)
    (hheld : ∀ id ∈ i.nodes, Graph.held? g' id = Graph.held? g id) : i.EmptyIn g' := by
  intro id hid n' hn'
  have heq := hheld id hid
  rw [Graph.held?, hn', Option.map_some, Graph.held?, eq_comm, Option.map_eq_some_iff] at heq
  obtain ⟨n, hn, hinputs⟩ := heq
  rw [← hinputs]
  exact h id hid n hn

/-- A node with at most one input holds nothing unless it is ready. -/
theorem Node.empty_of_not_ready {n : Node} (h : n.ready = false) (hone : n.inputs.length ≤ 1) :
    ∀ s ∈ n.inputs, s = none := by
  intro s hs
  by_contra hne
  have hsome : ∀ x ∈ n.inputs, x.isSome = true := by
    obtain ⟨a, ha⟩ := List.length_eq_one_iff.1
      (Nat.le_antisymm hone (List.length_pos_of_mem hs))
    rw [ha] at hs ⊢
    intro x hx
    rw [List.mem_singleton.1 hx, ← List.mem_singleton.1 hs]
    exact Option.isSome_iff_ne_none.2 hne
  have hready := Node.ready_iff.2 ⟨List.ne_nil_of_mem hs, hsome⟩
  rw [h] at hready
  cases hready

namespace Engine

variable {e e' : Engine} {id : NodeId}

/-- No pooled instance holds a signal. -/
def EmptyPools (e : Engine) : Prop :=
  ∀ key p, e.prototype? key = some p → ∀ i ∈ p.pool, i.EmptyIn e.graph

instance (e : Engine) : Decidable e.EmptyPools :=
  decidable_of_iff (∀ entry ∈ e.registry.prototypes.entries, ∀ i ∈ entry.2.pool, i.EmptyIn e.graph)
    ⟨fun h key p hp => h (key, p) (Table.get?_eq_some_iff.1 hp),
      fun h entry he => h entry.1 entry.2 (Table.get?_eq_some_iff.2 he)⟩

theorem emptyPools_fresh (settings : Settings) (console : Console) :
    (fresh settings console).EmptyPools := by
  intro key p hp
  cases hp

theorem Serves.emptyPools (h : Serves e e') (hempty : e.EmptyPools) : e'.EmptyPools := by
  intro key p' hp' i hi
  obtain ⟨p, hp, hold⟩ := h.pool key p' i hp' hi
  exact (hempty key p hp i hold).of_held fun id hid => h.held id ⟨key, p', i, hp', hi, hid⟩

theorem Flows.emptyPools (h : Flows e e') (hempty : e.EmptyPools) : e'.EmptyPools := by
  intro key p' hp' i hi
  obtain ⟨p, hp, hold⟩ := h.pool key p' i hp' hi
  refine (hempty key p hp i hold).of_held fun id hid => ?_
  rw [Graph.held?, h.frozen id ⟨key, p', i, hp', hi, hid⟩, Graph.held?]

/-- Pooled nodes may be short of signals but are never ready. -/
theorem not_ready_of_pooled (h : Sound (.rest e)) {n : Node} (hid : e.Pooled id)
    (hn : e.graph.get? id = some n) : n.ready = false := by
  obtain ⟨key, p, i, hp, hi, hm⟩ := hid
  rw [← h.coherent.ready id n hn]
  exact (h.idle key p hp i hi).unscheduled id hm n hn

/-- Where pools hold nothing, an instance from a pool is as empty as a new copy. -/
theorem acquire_empty (h : Sound (.rest e)) (hempty : e.EmptyPools) {key : Key} {p : Prototype}
    (hp : e.prototype? key = some p) :
    (e.acquire id p).1.EmptyIn (e.acquire id p).2.graph := by
  unfold acquire
  cases hpool : p.pool with
  | cons i pool =>
    have hi : i ∈ p.pool := by
      rw [hpool]
      exact List.mem_cons_self
    exact hempty key p hp i hi
  | nil =>
    have hmade := Prototype.instantiate_made h.tidy (h.templates key p hp) e.nextInstance
      e.world.heap
    intro m hm c hc
    obtain ⟨old, n, c', -, hc', hcopy, -⟩ := hmade.copy m hm
    have heq : c' = c := Option.some.inj (hc'.symm.trans hc)
    exact heq ▸ hcopy.empty

/-! ## One wave -/

/-- The instances that the wave of `e` gives back to pools hold nothing when all of it has fired. -/
def RecyclesEmpty (e : Engine) : Prop :=
  ∀ id i, e.wave.instance? id = some i →
    (∃ key p, e.step.2.prototype? key = some p ∧ i ∈ p.pool) → i.EmptyIn e.wave.graph

/-- What is pooled after a wave holds what it held when all had fired. -/
theorem held_swept (h : Sound (.rest e)) (hid : e.swept.Pooled id) :
    Graph.held? e.swept.graph id = Graph.held? e.wave.graph id := by
  obtain ⟨n, hn⟩ := hid.live (swept_sound h)
  exact (sweep_moves (wave_spec h).2.1).1.fades.held? hn

theorem emptyPools_step_iff (h : Sound (.rest e)) (hempty : e.EmptyPools) :
    e.step.2.EmptyPools ↔ e.RecyclesEmpty := by
  unfold RecyclesEmpty
  rw [step_eq h]
  obtain ⟨-, hsound, hflows⟩ := wave_spec h
  constructor
  · rintro hpools id i - ⟨key, p, hp, hi⟩
    refine (hpools key p hp i hi).of_held fun m hm => ?_
    exact (held_swept h ⟨key, p, i, hp, hi, hm⟩).symm
  · intro hrecycles key p hp i hi
    -- what is pooled now was bound or pooled before the sweep
    have horigin : i ∈ Work.instances (.rest e.wave) :=
      (sweep_moves hsound).1.instances (Sound.mem_of_pool (w := .rest e.wave.sweep) hp hi)
    have hwave : i.EmptyIn e.wave.graph := by
      rcases Work.mem_instances.1 horigin with hi' | ⟨id, hb⟩ | ⟨key', p', hp', hi'⟩
      · cases hi'
      · exact hrecycles id i hb ⟨key, p, hp, hi⟩
      · exact hflows.emptyPools hempty key' p' hp' i hi'
    exact hwave.of_held fun m hm => held_swept h ⟨key, p, i, hp, hi, hm⟩

/-! ## Runs -/

/-- The engines with which the waves of a run begin. -/
def runWaves (taken : Nat) : Nat → Engine → List Engine
  | 0, _ => []
  | budget + 1, e =>
    if e.hasPending then
      if e.settings.maxSteps.any fun limit => limit ≤ taken then []
      else
        match e.step with
        | (.error _, _) => [e]
        | (.ok _, e') => e :: runWaves (taken + 1) budget e'
    else []

/-- What holds at the start of a run and is kept by waves holds whenever a wave begins. -/
theorem runWaves_induct {P : Engine → Prop} (hwave : ∀ {e}, e.Settled → P e → P e.swept)
    {taken budget : Nat} {w : Engine} (h : e.Settled) (he : P e)
    (hw : w ∈ runWaves taken budget e) : P w := by
  induction budget generalizing e taken with
  | zero => cases hw
  | succ budget ih =>
    rw [runWaves, step_eq h.sound] at hw
    split at hw
    · split at hw
      · cases hw
      · rcases List.mem_cons.1 hw with rfl | hw
        · exact he
        · exact ih (swept_settled h) (hwave h he) hw
    · cases hw

theorem settled_of_mem_runWaves {taken budget : Nat} {w : Engine} (h : e.Settled)
    (hw : w ∈ runWaves taken budget e) : w.Settled :=
  runWaves_induct (P := Settled) (fun hs _ => swept_settled hs) h h hw

/-- A wave of a run begins where the run began or where the wave before it ended. -/
theorem mem_runWaves_cases {taken budget : Nat} {w : Engine} (h : e.Settled)
    (hw : w ∈ runWaves taken budget e) :
    w = e ∨ w ∈ (runWaves taken budget e).map fun w => w.step.2 := by
  induction budget generalizing e taken with
  | zero => cases hw
  | succ budget ih =>
    rw [runWaves, step_eq h.sound] at hw ⊢
    split at hw
    · next hp =>
      split at hw
      · cases hw
      · next hlimit =>
        rw [if_pos hp, if_neg hlimit, List.map_cons, step_eq h.sound]
        rcases List.mem_cons.1 hw with rfl | hw
        · exact .inl rfl
        · rcases ih (swept_settled h) hw with rfl | hw
          · exact .inr List.mem_cons_self
          · exact .inr (List.mem_cons_of_mem _ hw)
    · cases hw

theorem emptyPools_runWaves_iff {taken budget : Nat} (h : e.Settled) (hempty : e.EmptyPools) :
    (∀ w ∈ runWaves taken budget e, w.step.2.EmptyPools) ↔
      ∀ w ∈ runWaves taken budget e, w.RecyclesEmpty := by
  induction budget generalizing e taken with
  | zero => exact ⟨fun _ w hw => absurd hw List.not_mem_nil, fun _ w hw => absurd hw List.not_mem_nil⟩
  | succ budget ih =>
    have hstep := emptyPools_step_iff h.sound hempty
    rw [runWaves, step_eq h.sound]
    rw [step_eq h.sound] at hstep
    split
    · split
      · simp
      · rw [List.forall_mem_cons, List.forall_mem_cons, step_eq h.sound, hstep]
        exact and_congr_right fun hrec => ih (swept_settled h) (hstep.2 hrec)
    · simp

/-- A run ends where it began or where one of its waves ended. -/
theorem emptyPools_runFrom {taken budget : Nat} (h : e.Settled) (hempty : e.EmptyPools)
    (hwaves : ∀ w ∈ runWaves taken budget e, w.step.2.EmptyPools) :
    (runFrom taken budget e).2.EmptyPools := by
  induction budget generalizing e taken with
  | zero =>
    rw [runFrom]
    split
    · exact hempty
    · exact hempty
  | succ budget ih =>
    rw [runWaves, step_eq h.sound] at hwaves
    rw [runFrom, step_eq h.sound]
    split
    · next hp =>
      rw [if_pos hp] at hwaves
      split
      · exact hempty
      · next hlimit =>
        rw [if_neg hlimit, List.forall_mem_cons, step_eq h.sound] at hwaves
        exact ih (swept_settled h) hwaves.1 hwaves.2
    · exact hempty

/-! ## Sessions -/

/-- The engines with which the waves of a session begin. -/
def waves (e : Engine) : List Command → List Engine
  | [] => []
  | .call c :: commands => (e.answer c).waves commands
  | .step :: commands => e :: e.step.2.waves commands
  | .run budget :: commands => runWaves 0 budget e ++ (e.run budget).2.waves commands

/-- The engines that a session goes through: the first, and one after each call and each wave. -/
def trail (e : Engine) : List Command → List Engine
  | [] => [e]
  | .call c :: commands => e :: (e.answer c).trail commands
  | .step :: commands => e :: e.step.2.trail commands
  | .run budget :: commands =>
    e :: ((runWaves 0 budget e).map (fun w => w.step.2) ++ (e.run budget).2.trail commands)

theorem self_mem_trail (e : Engine) (commands : List Command) : e ∈ e.trail commands := by
  cases commands with
  | nil => exact List.mem_singleton.2 rfl
  | cons c commands => cases c <;> exact List.mem_cons_self

theorem after_mem_trail (e : Engine) (commands : List Command) :
    e.after commands ∈ e.trail commands := by
  induction commands generalizing e with
  | nil => exact List.mem_singleton.2 rfl
  | cons c commands ih =>
    have hlast := ih (e.perform c)
    cases c with
    | call c | step => exact List.mem_cons_of_mem e hlast
    | run budget => exact List.mem_cons_of_mem e (List.mem_append_right _ hlast)

/-- What calls and waves keep holds of all engines that a session goes through. -/
theorem trail_induct {P : Engine → Prop} (hcall : ∀ {e}, e.Settled → ∀ c, P e → P (e.answer c))
    (hwave : ∀ {e}, e.Settled → P e → P e.swept) {s : Engine} {commands : List Command}
    (h : e.Settled) (he : P e) (hs : s ∈ e.trail commands) : P s := by
  have hstep : ∀ {e}, e.Settled → P e → P e.step.2 := by
    intro e h he
    rw [step_eq h.sound]
    exact hwave h he
  induction commands generalizing e with
  | nil => exact List.mem_singleton.1 hs ▸ he
  | cons c commands ih =>
    have hnext := perform_settled h c
    cases c with
    | call c =>
      rcases List.mem_cons.1 hs with rfl | hs
      · exact he
      · exact ih hnext (hcall h c he) hs
    | step =>
      rcases List.mem_cons.1 hs with rfl | hs
      · exact he
      · exact ih hnext (hstep h he) hs
    | run budget =>
      rcases List.mem_cons.1 hs with rfl | hs
      · exact he
      · rcases List.mem_append.1 hs with hs | hs
        · obtain ⟨w, hw, rfl⟩ := List.mem_map.1 hs
          exact hstep (settled_of_mem_runWaves h hw) (runWaves_induct hwave h he hw)
        · have hrun : Sound (.rest (e.run budget).2) ∧
              Graph.Busy (e.run budget).2.graph ∧ P (e.run budget).2 :=
            runFrom_induct (P := fun e => Graph.Busy e.graph ∧ P e)
              (fun e hs he => ⟨busy_swept hs, hwave ⟨hs, he.1⟩ he.2⟩) h.sound ⟨h.busy, he⟩
          exact ih hnext hrun.2.2 hs

/-- A wave begins with an engine that the session goes through. -/
theorem mem_trail_of_mem_waves {w : Engine} {commands : List Command} (h : e.Settled)
    (hw : w ∈ e.waves commands) : w ∈ e.trail commands := by
  induction commands generalizing e with
  | nil => cases hw
  | cons c commands ih =>
    have hnext := perform_settled h c
    cases c with
    | call c => exact List.mem_cons_of_mem e (ih hnext hw)
    | step =>
      rcases List.mem_cons.1 hw with rfl | hw
      · exact List.mem_cons_self
      · exact List.mem_cons_of_mem e (ih hnext hw)
    | run budget =>
      rcases List.mem_append.1 hw with hw | hw
      · rcases mem_runWaves_cases h hw with rfl | hw
        · exact List.mem_cons_self
        · exact List.mem_cons_of_mem e (List.mem_append_left _ hw)
      · exact List.mem_cons_of_mem e (List.mem_append_right _ (ih hnext hw))

theorem settled_of_mem_trail {s : Engine} {commands : List Command} (h : e.Settled)
    (hs : s ∈ e.trail commands) : s.Settled :=
  trail_induct (P := Settled) (fun h c _ => perform_settled h (.call c))
    (fun h _ => swept_settled h) h h hs

theorem settled_of_mem_waves {w : Engine} {commands : List Command} (h : e.Settled)
    (hw : w ∈ e.waves commands) : w.Settled :=
  settled_of_mem_trail h (mem_trail_of_mem_waves h hw)

theorem emptyPools_trail_iff (h : e.Settled) (hempty : e.EmptyPools) (commands : List Command) :
    (∀ s ∈ e.trail commands, s.EmptyPools) ↔ ∀ w ∈ e.waves commands, w.RecyclesEmpty := by
  induction commands generalizing e with
  | nil => simpa [trail, waves] using hempty
  | cons c commands ih =>
    cases c with
    | call c =>
      have hserves := answer_serves h c
      rw [trail, waves, List.forall_mem_cons, ih hserves.settled (hserves.emptyPools hempty)]
      exact and_iff_right hempty
    | step =>
      have hstep := emptyPools_step_iff h.sound hempty
      have hnext : e.step.2.Settled := perform_settled h .step
      rw [trail, waves, List.forall_mem_cons, List.forall_mem_cons, ← hstep]
      constructor
      · rintro ⟨-, hall⟩
        have hpools := hall _ (self_mem_trail _ _)
        exact ⟨hpools, (ih hnext hpools).1 hall⟩
      · rintro ⟨hpools, hall⟩
        exact ⟨hempty, (ih hnext hpools).2 hall⟩
    | run budget =>
      have hnext : (e.run budget).2.Settled := run_settled h budget
      have hends : (∀ s ∈ (runWaves 0 budget e).map (fun w => w.step.2), s.EmptyPools) ↔
          ∀ w ∈ runWaves 0 budget e, w.RecyclesEmpty := by
        rw [List.forall_mem_map]
        exact emptyPools_runWaves_iff h hempty
      rw [trail, waves, List.forall_mem_cons, List.forall_mem_append, List.forall_mem_append, hends]
      constructor
      · rintro ⟨-, hrec, hall⟩
        exact ⟨hrec, (ih hnext (hall _ (self_mem_trail _ _))).1 hall⟩
      · rintro ⟨hrec, hall⟩
        have hpools := emptyPools_runFrom h hempty ((emptyPools_runWaves_iff h hempty).2 hrec)
        exact ⟨hempty, hrec, (ih hnext hpools).2 hall⟩

/-- All through a wave that begins with empty pools, what references are bound to is empty. -/
theorem acquire_empty_of_prefix (h : e.Settled) (hempty : e.EmptyPools) {shots : List Shot}
    (hshots : shots <+: (collect e.graph e.pending).1) {key : Key} {p : Prototype}
    (hp : (e.collected.fireAll shots).2.prototype? key = some p) :
    ((e.collected.fireAll shots).2.acquire id p).1.EmptyIn
      ((e.collected.fireAll shots).2.acquire id p).2.graph := by
  obtain ⟨hsound, hflows⟩ := collected_spec h.sound
  obtain ⟨e', hfire, hsound', hflows'⟩ := fireAll_spec hsound fun shot hshot =>
    not_pooled_of_mem_collect h.sound (hshots.subset hshot)
  rw [hfire] at hp ⊢
  exact acquire_empty hsound' ((hflows.trans hflows').emptyPools hempty) hp

/-- When exactly pools hold nothing all through a session, and what then follows for references that
are bound.  Whatever happens, only nodes with more than one input can hold anything in a pool. -/
theorem emptyPools_session_iff (settings : Settings) (console : Console) (commands : List Command) :
    let e := fresh settings console
    ((∀ s ∈ e.trail commands, s.EmptyPools) ↔ ∀ w ∈ e.waves commands, w.RecyclesEmpty) ∧
      (∀ w ∈ e.waves commands, w.EmptyPools → ∀ shots, shots <+: (collect w.graph w.pending).1 →
        ∀ id key p, (w.collected.fireAll shots).2.prototype? key = some p →
          ((w.collected.fireAll shots).2.acquire id p).1.EmptyIn
            ((w.collected.fireAll shots).2.acquire id p).2.graph) ∧
      ∀ s ∈ e.trail commands, ∀ id n, s.Pooled id → s.graph.get? id = some n →
        n.ready = false ∧ (n.inputs.length ≤ 1 → ∀ x ∈ n.inputs, x = none) := by
  intro e
  have h : e.Settled := fresh_settled settings console
  refine ⟨emptyPools_trail_iff h (emptyPools_fresh settings console) commands, ?_, ?_⟩
  · intro w hw hempty shots hshots id key p hp
    exact acquire_empty_of_prefix (settled_of_mem_waves h hw) hempty hshots hp
  · intro s hs id n hid hn
    have hready := not_ready_of_pooled (settled_of_mem_trail h hs).sound hid hn
    exact ⟨hready, Node.empty_of_not_ready hready⟩

/-! ## A pool that holds something -/

def pairKey : Key := ⟨"User", "Pair"⟩

/-- A template that adds an integer to what is not an integer: of each signal it gets, it keeps one
summand until the other comes. -/
def pairCourse : Edit Unit :=
  .act (.add ⟨"Type", "IsInt"⟩) fun _ =>
  .act (.add ⟨"Math", "Add"⟩) fun _ =>
  .act (.connect ⟨0, 0⟩ ⟨2, 0⟩) fun _ =>
  .act (.connect ⟨2, 0⟩ ⟨3, 0⟩) fun _ =>
  .act (.connect ⟨2, 1⟩ ⟨3, 1⟩) fun _ =>
  .act (.connect ⟨3, 0⟩ ⟨1, 0⟩) fun _ =>
  .finish ()

def pairSession : List Command :=
  [.call (.register pairKey 1 1 pairCourse), .call (.create pairKey),
    .call (.pulse ⟨0, 0⟩ (.int 1)), .run 3]

/-- One integer goes in; the instance is pooled with it. -/
theorem not_emptyPools_pairSession : ¬ ((fresh {} (.script {})).after pairSession).EmptyPools := by
  decide +kernel

end Engine

end PulseFlow
