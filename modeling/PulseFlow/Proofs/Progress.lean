import PulseFlow.Proofs.Sessions

/-!
# Work goes on

A reference is of use only if there is a prototype of its key with as many inputs and outputs as it
has.  Prototypes come and go while templates are edited and documents loaded, but between any two
calls, and before every firing of a wave, all references find theirs (`Resolved`).  Nothing else can
stop a wave, so waves never fail, and a run fails only when it has used up the waves it may take.

    e.Settled → (e.run budget).1 = .failed err → err = .stepLimit limit      (runFrom_failed)
    ((fresh settings console).after commands) resolved, its waves without failure (progress_after)
-/

namespace PulseFlow

namespace Engine

variable {e : Engine} {n : Node}

/-! ## References that find their prototypes -/

/-- If the node is a reference, its prototype is registered and has the same numbers of ports. -/
def Resolves (e : Engine) (n : Node) : Prop :=
  ∀ key b, n.body = .reference key b → ∃ p, e.prototype? key = some p ∧
    n.inputs.length = p.inputs.length ∧ n.outputs.length = p.outputs.length

/-- All references, in the graph and in the templates, find their prototypes. -/
structure Resolved (e : Engine) : Prop where
  live : ∀ id n, e.graph.get? id = some n → e.Resolves n
  templates : ∀ key p, e.prototype? key = some p →
    ∀ id n, p.graph.get? id = some n → e.Resolves n

theorem resolves_of_registered (h : n.Registered e.registry.prototypes) : e.Resolves n := by
  intro key b hb
  obtain ⟨p, hp, hports⟩ := Option.map_eq_some_iff.1 (h key b hb)
  rw [Prod.mk.injEq] at hports
  exact ⟨p, hp, hports.1.symm, hports.2.symm⟩

theorem resolved_of_sound (h : Sound (.rest e)) : e.Resolved where
  live := fun id n hn => resolves_of_registered (h.registered id n hn)
  templates := fun key p hp id n hn =>
    resolves_of_registered ((h.templates key p hp).registered id n hn)

/-! ## Waves -/

/-- However far a wave has come, it has not failed and its references are resolved. -/
theorem midwave_progress (h : Sound (.rest e)) {shots : List Shot}
    (hshots : shots <+: (collect e.graph e.pending).1) :
    (e.collected.fireAll shots).1 = .ok () ∧ (e.collected.fireAll shots).2.Resolved := by
  obtain ⟨e', hfire, hsound, -⟩ := fireAll_spec (collected_spec h).1 fun shot hshot =>
    not_pooled_of_mem_collect h (hshots.subset hshot)
  rw [hfire]
  exact ⟨rfl, resolved_of_sound hsound⟩

theorem settings_swept (h : Sound (.rest e)) : e.swept.settings = e.settings := by
  obtain ⟨-, hsound, hflows⟩ := wave_spec h
  have hsweep := (sweep_moves hsound).1.settings
  show e.wave.sweep.settings = e.settings
  exact hsweep.trans hflows.settings

/-! ## Runs -/

/-- A run fails only for want of waves.  The limit is the same before each of its waves, as waves do
not touch the settings. -/
theorem runFrom_failed {taken budget : Nat} {err : Error} (h : Sound (.rest e))
    (hfail : (runFrom taken budget e).1 = .failed err) :
    ∃ limit, e.settings.maxSteps = some limit ∧ err = .stepLimit limit := by
  induction budget generalizing e taken with
  | zero =>
    rw [runFrom] at hfail
    split at hfail
    · cases hfail
    · cases hfail
  | succ budget ih =>
    rw [runFrom, step_eq h] at hfail
    split at hfail
    · split at hfail
      · next hlimit =>
        cases hmax : e.settings.maxSteps with
        | none =>
          rw [hmax] at hlimit
          cases hlimit
        | some limit =>
          rw [hmax] at hfail
          cases hfail
          exact ⟨limit, rfl, rfl⟩
      · rw [← settings_swept h]
        exact ih (swept_sound h) hfail
    · cases hfail

theorem progress_after (settings : Settings) (console : Console) (commands : List Command) :
    let e := (fresh settings console).after commands
    e.Resolved ∧
      (∀ shots, shots <+: (collect e.graph e.pending).1 →
        (e.collected.fireAll shots).1 = .ok () ∧ (e.collected.fireAll shots).2.Resolved) ∧
      e.step.1 = .ok e.step.2.hasPending ∧
      ∀ budget err, (e.run budget).1 = .failed err →
        ∃ limit, e.settings.maxSteps = some limit ∧ err = .stepLimit limit := by
  intro e
  have h : Sound (.rest e) := (settled_after settings console commands).sound
  refine ⟨resolved_of_sound h, fun shots => midwave_progress h, ?_, fun budget err => runFrom_failed h⟩
  rw [step_eq h]

end Engine

end PulseFlow
