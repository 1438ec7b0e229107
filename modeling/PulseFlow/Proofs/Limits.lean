import Mathlib.Data.Nat.Find
import Mathlib.Logic.Function.Iterate
import PulseFlow.Proofs.Dormancy

/-!
# Runs under a limit

A run is nothing but steps.  It stops at the first engine with nothing pending, or at the limit of
the settings if that comes first, and the engine it leaves is the one that so many steps lead to.
Waves see neither the limit nor the count of the steps before them (`swept_metered`), so runs under
a limit, taken up again and again, end where a run without one ends.

    (e.stepped k).steps = e.steps + k                                        (steps_stepped)
    (e.limited limit).stepped k = (e.stepped k).limited limit              (stepped_limited)
    e.IdleAt n → e.run budget = (.idle n, e.stepped n), if n ≤ limit and n ≤ budget
                                                                             (run_of_idleAt)
-/

namespace PulseFlow.Engine

variable {e : Engine}

/-! ## Limit and count -/

/-- An engine with another limit and another count of steps. -/
def metered (e : Engine) (limit : Option Nat) (steps : Nat) : Engine :=
  { e with settings := { e.settings with maxSteps := limit }, steps }

section Metered

/-! Whatever a wave does, it does in the same way under another limit and count. -/

variable (e : Engine) (limit : Option Nat) (steps : Nat)

theorem graph_metered : (e.metered limit steps).graph = e.graph := rfl

theorem prototype?_metered : (e.metered limit steps).prototype? = e.prototype? := rfl

theorem deliver_metered (target : Socket) (s : Signal) :
    (e.metered limit steps).deliver target s = (e.deliver target s).metered limit steps := by
  unfold deliver
  rw [graph_metered]
  cases e.graph.get? target.node with
  | none => rfl
  | some n =>
    dsimp only
    split
    · split <;> rfl
    · rfl

theorem emit_metered (source : Socket) (s : Signal) :
    (e.metered limit steps).emit source s = (e.emit source s).metered limit steps := by
  unfold emit
  rw [graph_metered]
  split
  · exact List.foldl_hom (metered · limit steps) fun e target =>
      e.deliver_metered limit steps target s
  · rfl

theorem send_metered (out : List (Socket × Signal)) :
    (e.metered limit steps).send out = (e.send out).metered limit steps :=
  List.foldl_hom (metered · limit steps) fun e m => e.emit_metered limit steps m.1 m.2

theorem forward_metered (id : NodeId) (inputs : List Signal) :
    (e.metered limit steps).forward id inputs = (e.forward id inputs).metered limit steps := by
  rw [forward_eq, forward_eq]
  exact e.send_metered limit steps _

theorem fireLogic_metered (id : NodeId) (l : Logic) (inputs : List Signal) :
    (e.metered limit steps).fireLogic id l inputs =
      (e.fireLogic id l inputs).metered limit steps := by
  rw [fireLogic_eq, fireLogic_eq]
  exact (e.reacted id _).send_metered limit steps _

theorem traceFiring_metered (id : NodeId) (n : Node) :
    (e.metered limit steps).traceFiring id n = (e.traceFiring id n).metered limit steps := by
  have htrace : (e.metered limit steps).settings.traceFiring = e.settings.traceFiring := rfl
  unfold traceFiring
  rw [htrace]
  split <;> rfl

theorem engage_metered (id : NodeId) :
    (e.metered limit steps).engage id = (e.engage id).map fun e => e.metered limit steps := by
  unfold engage
  rw [graph_metered, prototype?_metered]
  cases e.graph.get? id with
  | none => rfl
  | some n =>
    dsimp only
    cases n.body with
    | native l => rfl
    | reference key b =>
      dsimp only
      cases e.prototype? key with
      | none => rfl
      | some p =>
        dsimp only
        unfold acquire
        cases p.pool with
        | nil => rfl
        | cons i pool => rfl

theorem fire_metered (id : NodeId) (inputs : List Signal) :
    (e.metered limit steps).fire id inputs =
      ((e.fire id inputs).1, (e.fire id inputs).2.metered limit steps) := by
  unfold fire
  rw [graph_metered]
  cases e.graph.get? id with
  | none => rfl
  | some n =>
    dsimp only
    rw [traceFiring_metered]
    cases n.body with
    | native l =>
      dsimp only
      rw [fireLogic_metered]
    | reference key b =>
      cases b with
      | some i =>
        dsimp only
        rw [forward_metered]
      | none =>
        dsimp only
        rw [engage_metered]
        cases (e.traceFiring id n).engage id with
        | error err => rfl
        | ok e' => exact congrArg (Prod.mk _) (e'.forward_metered limit steps id inputs)

theorem fireAll_metered (shots : List Shot) :
    (e.metered limit steps).fireAll shots =
      ((e.fireAll shots).1, (e.fireAll shots).2.metered limit steps) := by
  induction shots generalizing e with
  | nil => rfl
  | cons shot shots ih =>
    rw [fireAll, fireAll, fire_metered]
    rcases e.fire shot.id shot.inputs with ⟨_ | _, e'⟩
    · rfl
    · exact ih e'

theorem wave_metered : (e.metered limit steps).wave = e.wave.metered limit steps :=
  congrArg Prod.snd (e.collected.fireAll_metered limit steps _)

theorem shelve_metered (key : Key) (i : Instance) :
    (e.metered limit steps).shelve key i = (e.shelve key i).metered limit steps := by
  have hfits : (e.metered limit steps).fitsPool = e.fitsPool := rfl
  unfold shelve
  rw [prototype?_metered, hfits]
  cases e.prototype? key with
  | none => rfl
  | some p =>
    dsimp only
    split <;> rfl

theorem dismissWithin_metered (depth : Nat) (id : NodeId) :
    dismissWithin depth (e.metered limit steps) id =
      (dismissWithin depth e id).metered limit steps := by
  induction depth generalizing e id with
  | zero => rfl
  | succ depth ih =>
    rw [dismissWithin, dismissWithin, graph_metered]
    cases e.graph.get? id with
    | none => rfl
    | some n =>
      dsimp only
      split
      · next key i _ =>
        have hfold : i.nodes.foldl (dismissWithin depth) ((e.unbind id).metered limit steps) =
            (i.nodes.foldl (dismissWithin depth) (e.unbind id)).metered limit steps :=
          List.foldl_hom (metered · limit steps) ih
        have hunbind : (e.metered limit steps).unbind id = (e.unbind id).metered limit steps := rfl
        rw [hunbind, hfold, ← shelve_metered]
        rfl
      · rfl

theorem sweep_metered : (e.metered limit steps).sweep = e.sweep.metered limit steps :=
  List.foldl_hom (metered · limit steps) fun e id => e.dismissWithin_metered limit steps _ id

theorem swept_metered :
    (e.metered limit steps).swept = e.swept.metered limit (steps + 1) := by
  unfold swept
  rw [wave_metered, sweep_metered]
  rfl

end Metered

theorem sound_metered (h : Sound (.rest e)) (limit : Option Nat) (steps : Nat) :
    Sound (.rest (e.metered limit steps)) :=
  ⟨h.tidy, h.owning, h.watching, h.layered, h.coherent, h.wired, h.idle, h.capacity, h.registered,
    h.fitting, h.named, h.templates⟩

/-! ## Steps -/

/-- The engine after so many steps. -/
def stepped (e : Engine) (k : Nat) : Engine := (fun e => e.step.2)^[k] e

theorem stepped_succ (h : Sound (.rest e)) (k : Nat) : e.stepped (k + 1) = e.swept.stepped k := by
  rw [stepped, Function.iterate_succ_apply, step_eq h]
  rfl

theorem stepped_stepped (e : Engine) (j k : Nat) : (e.stepped j).stepped k = e.stepped (j + k) := by
  rw [Nat.add_comm]
  exact (Function.iterate_add_apply _ k j e).symm

theorem stepped_sound (h : Sound (.rest e)) (k : Nat) :
    Sound (.rest (e.stepped k)) ∧ (e.stepped k).settings = e.settings := by
  induction k generalizing e with
  | zero => exact ⟨h, rfl⟩
  | succ k ih =>
    rw [stepped_succ h, ← settings_swept h]
    exact ih (swept_sound h)

theorem stepped_metered (h : Sound (.rest e)) (limit : Option Nat) (steps k : Nat) :
    (e.metered limit steps).stepped k = (e.stepped k).metered limit (steps + k) := by
  induction k generalizing e steps with
  | zero => rfl
  | succ k ih =>
    rw [stepped_succ (sound_metered h limit steps), stepped_succ h, swept_metered,
      ih (swept_sound h), Nat.add_right_comm, Nat.add_assoc]

theorem steps_stepped (h : Sound (.rest e)) (k : Nat) : (e.stepped k).steps = e.steps + k :=
  congrArg Engine.steps (stepped_metered h e.settings.maxSteps e.steps k)

/-- The same engine under another limit. -/
def limited (e : Engine) (limit : Option Nat) : Engine :=
  { e with settings := { e.settings with maxSteps := limit } }

theorem stepped_limited (h : Sound (.rest e)) (limit : Option Nat) (k : Nat) :
    (e.limited limit).stepped k = (e.stepped k).limited limit := by
  have hstepped : (e.limited limit).stepped k = (e.stepped k).metered limit (e.steps + k) :=
    stepped_metered h limit e.steps k
  rw [hstepped, ← steps_stepped h k]
  rfl

/-! ## One run -/

/-- Nothing is pending after `n` steps, and before each of them something is. -/
structure IdleAt (e : Engine) (n : Nat) : Prop where
  idle : (e.stepped n).hasPending = false
  busy : ∀ k < n, (e.stepped k).hasPending = true

theorem exists_idleAt {k : Nat} (hk : (e.stepped k).hasPending = false) : ∃ n ≤ k, e.IdleAt n := by
  have hsome : ∃ n, (e.stepped n).hasPending = false := ⟨k, hk⟩
  refine ⟨Nat.find hsome, Nat.find_le hk, Nat.find_spec hsome, fun j hj => ?_⟩
  exact Bool.eq_true_of_not_eq_false (Nat.find_min hsome hj)

/-- Before the first idle engine, if there is one, all are busy. -/
theorem busy_of_idleAt_lt {bound k : Nat} (hlate : ∀ n, e.IdleAt n → bound < n) (hk : k ≤ bound) :
    (e.stepped k).hasPending = true := by
  by_contra hp
  obtain ⟨n, hn, hidle⟩ := exists_idleAt (Bool.eq_false_iff.2 hp)
  exact absurd (hlate n hidle) (by omega)

theorem IdleAt.le {n m : Nat} (h : e.IdleAt n) (hm : (e.stepped m).hasPending = false) : n ≤ m := by
  by_contra hlt
  rw [h.busy m (Nat.lt_of_not_le hlt)] at hm
  cases hm

theorem IdleAt.drop {n k : Nat} (h : e.IdleAt n) (hk : k ≤ n) : (e.stepped k).IdleAt (n - k) where
  idle := by
    rw [stepped_stepped, Nat.add_sub_cancel' hk]
    exact h.idle
  busy := by
    intro j hj
    rw [stepped_stepped]
    exact h.busy (k + j) (by omega)

theorem IdleAt.limited {n : Nat} (h : e.IdleAt n) (hs : Sound (.rest e)) (limit : Option Nat) :
    (e.limited limit).IdleAt n where
  idle := by
    rw [stepped_limited hs]
    exact h.idle
  busy := by
    intro k hk
    rw [stepped_limited hs]
    exact h.busy k hk

/-- Below the limit a run with something pending begins with a wave. -/
theorem runFrom_succ {taken budget : Nat} (h : Sound (.rest e)) (hp : e.hasPending = true)
    (hlimit : ∀ limit, e.settings.maxSteps = some limit → taken < limit) :
    runFrom taken (budget + 1) e = runFrom (taken + 1) budget e.swept := by
  have hwithin : ¬ (e.settings.maxSteps.any fun limit => limit ≤ taken) = true := by
    intro hany
    cases hmax : e.settings.maxSteps with
    | none =>
      rw [hmax] at hany
      cases hany
    | some limit =>
      rw [hmax, Option.any_some, decide_eq_true_eq] at hany
      exact absurd (hlimit limit hmax) (Nat.not_lt.2 hany)
  rw [runFrom, if_pos hp, if_neg hwithin, step_eq h]

/-- As long as something is pending and the limit is not reached, a run is steps. -/
theorem runFrom_stepped {taken k : Nat} (h : Sound (.rest e))
    (hbusy : ∀ j < k, (e.stepped j).hasPending = true)
    (hlimit : ∀ limit, e.settings.maxSteps = some limit → taken + k ≤ limit) (extra : Nat) :
    runFrom taken (k + extra) e = runFrom (taken + k) extra (e.stepped k) := by
  induction k generalizing e taken with
  | zero =>
    rw [Nat.zero_add]
    rfl
  | succ k ih =>
    have hrest : ∀ j < k, (e.swept.stepped j).hasPending = true := by
      intro j hj
      rw [← stepped_succ h]
      exact hbusy (j + 1) (by omega)
    have hlimit' : ∀ limit, e.swept.settings.maxSteps = some limit → taken + 1 + k ≤ limit := by
      intro limit hmax
      rw [settings_swept h] at hmax
      have := hlimit limit hmax
      omega
    have hfirst : ∀ limit, e.settings.maxSteps = some limit → taken < limit := by
      intro limit hmax
      have := hlimit limit hmax
      omega
    calc runFrom taken (k + 1 + extra) e
        = runFrom taken (k + extra + 1) e := by rw [Nat.add_right_comm]
      _ = runFrom (taken + 1) (k + extra) e.swept := runFrom_succ h (hbusy 0 (by omega)) hfirst
      _ = runFrom (taken + 1 + k) extra (e.swept.stepped k) := ih (swept_sound h) hrest hlimit'
      _ = runFrom (taken + (k + 1)) extra (e.stepped (k + 1)) := by
        rw [stepped_succ h, Nat.add_right_comm, Nat.add_assoc]

theorem runFrom_of_idle {taken : Nat} (hp : e.hasPending = false) (budget : Nat) :
    runFrom taken budget e = (.idle taken, e) := by
  cases budget <;> rw [runFrom, hp] <;> rfl

/-- A run that may take enough waves ends at the first idle engine. -/
theorem run_of_idleAt {n budget : Nat} (h : Sound (.rest e)) (hidle : e.IdleAt n)
    (hlimit : ∀ limit, e.settings.maxSteps = some limit → n ≤ limit) (hbudget : n ≤ budget) :
    e.run budget = (.idle n, e.stepped n) := by
  obtain ⟨extra, rfl⟩ := Nat.exists_eq_add_of_le hbudget
  have hrun : runFrom 0 (n + extra) e = runFrom (0 + n) extra (e.stepped n) :=
    runFrom_stepped h hidle.busy (by simpa using hlimit) extra
  rw [run, hrun, runFrom_of_idle hidle.idle, Nat.zero_add]

/-- A run whose limit comes before the first idle engine ends at the limit. -/
theorem run_of_limit {limit budget : Nat} (h : Sound (.rest e))
    (hmax : e.settings.maxSteps = some limit) (hlate : ∀ n, e.IdleAt n → limit < n)
    (hbudget : limit < budget) :
    e.run budget = (.failed (.stepLimit limit), e.stepped limit) := by
  obtain ⟨extra, rfl⟩ := Nat.exists_eq_add_of_le hbudget
  have hkept := (stepped_sound h limit).2
  have hrun : runFrom 0 (limit + (extra + 1)) e =
      runFrom (0 + limit) (extra + 1) (e.stepped limit) :=
    runFrom_stepped h (fun j hj => busy_of_idleAt_lt hlate (Nat.le_of_lt hj))
      (fun l hl => by rw [hmax] at hl; cases hl; omega) (extra + 1)
  rw [run, Nat.succ_add, ← Nat.add_succ, hrun, runFrom, if_pos (busy_of_idleAt_lt hlate le_rfl),
    hkept, hmax]
  simp

/-- A run without a limit that never gets idle uses up what it is given. -/
theorem run_of_busy (h : Sound (.rest e)) (hmax : e.settings.maxSteps = none)
    (hbusy : ∀ n, ¬ e.IdleAt n) (budget : Nat) :
    e.run budget = (.unfinished, e.stepped budget) := by
  have hpending : ∀ k, (e.stepped k).hasPending = true := fun k =>
    busy_of_idleAt_lt (fun n hn => absurd hn (hbusy n)) le_rfl
  have hrun : runFrom 0 budget e = runFrom (0 + budget) 0 (e.stepped budget) :=
    runFrom_stepped h (fun k _ => hpending k)
      (fun limit hsome => by rw [hmax] at hsome; cases hsome) 0
  rw [run, hrun, runFrom, if_pos (hpending budget)]

/-! ## Runs taken up again -/

/-- Makes so many runs, one after another; gives how each of them ended. -/
def runs (budget : Nat) : Nat → Engine → List Halt × Engine
  | 0, e => ([], e)
  | calls + 1, e =>
    ((e.run budget).1 :: (runs budget calls (e.run budget).2).1,
      (runs budget calls (e.run budget).2).2)

/-- If the first idle engine comes after `q` times the limit and not after the next time, `q` runs
end at the limit and the next one ends idle. -/
theorem runs_of_idleAt {n limit budget q : Nat} (h : Sound (.rest e)) (hidle : e.IdleAt n)
    (hmax : e.settings.maxSteps = some limit) (hbudget : limit < budget)
    (hlow : q = 0 ∨ q * limit < n) (hhigh : n ≤ (q + 1) * limit) :
    runs budget (q + 1) e =
      (List.replicate q (.failed (.stepLimit limit)) ++ [.idle (n - q * limit)], e.stepped n) := by
  induction q generalizing e n with
  | zero =>
    have hle : n ≤ limit := by omega
    have hrun : e.run budget = (.idle n, e.stepped n) :=
      run_of_idleAt h hidle (fun l hl => by rw [hmax] at hl; cases hl; exact hle) (by omega)
    simp [runs, hrun]
  | succ q ih =>
    rw [Nat.succ_mul] at hlow hhigh ⊢
    have hlt : limit < n := by omega
    have hrun := run_of_limit h hmax (fun m hm => Nat.lt_of_lt_of_le hlt (hidle.le hm.idle)) hbudget
    obtain ⟨hsound, hkept⟩ := stepped_sound h limit
    have hrest := ih hsound (hidle.drop (Nat.le_of_lt hlt)) (by rw [hkept, hmax])
      (by omega) (by omega)
    rw [runs, hrun]
    dsimp only
    rw [hrest, stepped_stepped, Nat.add_sub_cancel' (Nat.le_of_lt hlt), List.replicate_succ,
      List.cons_append, Nat.sub_sub, Nat.add_comm limit]

/-- A run is steps up to the first idle engine or to the limit, whichever comes first, and each step
counts one.  Runs under any limit from one on, made until one ends idle, lead to the engine that one
run without a limit leads to. -/
theorem run_stepped_after (settings : Settings) (console : Console) (commands : List Command) :
    let e := (fresh settings console).after commands
    (∀ k, (e.stepped k).steps = e.steps + k) ∧
      (∀ n, e.IdleAt n → (∀ limit, settings.maxSteps = some limit → n ≤ limit) →
        ∀ budget, n ≤ budget → e.run budget = (.idle n, e.stepped n)) ∧
      (∀ limit, settings.maxSteps = some limit → (∀ n, e.IdleAt n → limit < n) →
        ∀ budget, limit < budget →
          e.run budget = (.failed (.stepLimit limit), e.stepped limit)) ∧
      (settings.maxSteps = none → (∀ n, ¬ e.IdleAt n) →
        ∀ budget, e.run budget = (.unfinished, e.stepped budget)) ∧
      ∀ n, e.IdleAt n →
        (∀ budget, n ≤ budget →
          (e.limited none).run budget = (.idle n, (e.stepped n).limited none)) ∧
        ∀ limit, 0 < limit → ∀ budget, limit < budget →
          runs budget ((n - 1) / limit + 1) (e.limited (some limit)) =
            (List.replicate ((n - 1) / limit) (.failed (.stepLimit limit)) ++
              [.idle (n - (n - 1) / limit * limit)], (e.stepped n).limited (some limit)) := by
  intro e
  have hfresh := fresh_settled settings console
  have h : Sound (.rest e) := (hfresh.after commands).sound
  have hkept : e.settings = settings := settings_of_mem_trail hfresh (after_mem_trail _ commands)
  have hmax : settings.maxSteps = e.settings.maxSteps := by rw [hkept]
  have hlimited (limit : Option Nat) : Sound (.rest (e.limited limit)) :=
    sound_metered h limit e.steps
  rw [hmax]
  refine ⟨steps_stepped h, fun n hidle hlimit budget => run_of_idleAt h hidle hlimit,
    fun limit hsome hlate budget => run_of_limit h hsome hlate, run_of_busy h,
    fun n hidle => ⟨fun budget hbudget => ?_, fun limit hpos budget hbudget => ?_⟩⟩
  · rw [← stepped_limited h]
    exact run_of_idleAt (hlimited none) (hidle.limited h none) (fun limit hsome => by cases hsome)
      hbudget
  · have hmod := Nat.div_add_mod (n - 1) limit
    have hrest := Nat.mod_lt (n - 1) hpos
    rw [Nat.mul_comm] at hmod
    rw [← stepped_limited h]
    refine runs_of_idleAt (hlimited _) (hidle.limited h _) rfl hbudget ?_ ?_
    · by_cases hn : n = 0
      · left
        rw [hn]
        exact Nat.zero_div limit
      · right
        omega
    · rw [Nat.succ_mul]
      omega

/-- Three nodes in a row, and a signal at the first. -/
def relaySession : List Command :=
  [.call (.create ⟨"Core", "Socket"⟩), .call (.create ⟨"Core", "Socket"⟩),
    .call (.create ⟨"IO", "Print"⟩), .call (.connect ⟨0, 0⟩ ⟨1, 0⟩),
    .call (.connect ⟨1, 0⟩ ⟨2, 0⟩), .call (.pulse ⟨0, 0⟩ (.int 7))]

/-- Under a limit of two, a run of three steps takes two calls; under a limit of three, one. -/
theorem run_stepped_relay :
    let e := (fresh { maxSteps := some 2 } (.script {})).after relaySession
    e.IdleAt 3 ∧ (e.run 9).1 = .failed (.stepLimit 2) ∧
      runs 9 2 (e.limited (some 2)) =
        ([.failed (.stepLimit 2), .idle 1], (e.stepped 3).limited (some 2)) ∧
      runs 9 1 (e.limited (some 3)) = ([.idle 3], (e.stepped 3).limited (some 3)) := by
  intro e
  have hidle : e.IdleAt 3 := ⟨by decide +kernel, by decide +kernel⟩
  obtain ⟨-, -, hlimit, -, hruns⟩ :=
    run_stepped_after { maxSteps := some 2 } (.script {}) relaySession
  have hlate : ∀ n, e.IdleAt n → 2 < n := fun n hn => hidle.le hn.idle
  refine ⟨hidle, ?_, ?_, ?_⟩
  · rw [hlimit 2 rfl hlate 9 (by decide)]
  · exact (hruns 3 hidle).2 2 (by decide) 9 (by decide)
  · exact (hruns 3 hidle).2 3 (by decide) 9 (by decide)

end PulseFlow.Engine
