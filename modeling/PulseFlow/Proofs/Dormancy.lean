import PulseFlow.Proofs.Progress
import PulseFlow.Proofs.Retaining

/-!
# Idle instances

What waits in a pool is a copy of the template as it is now, with nothing due in it, nothing bound
in it and nothing connected to its outputs.  A pool never holds more instances than the settings
allow, and the settings are those that the engine was made with.  This is so between any two calls,
after each wave of a run and before each firing of a wave.

    s ∈ e.trail commands → s.settings = e.settings                      (settings_of_mem_trail)
    s ∈ (fresh settings console).trail commands → s.Shelves settings.poolCapacity
                                                                              (shelves_trail)
-/

namespace PulseFlow

/-- An instance of a prototype that waits to be bound. -/
structure Instance.Dormant (g : Graph) (p : Prototype) (i : Instance) : Prop where
  current : i.revision = p.revision
  quiet : ∀ m ∈ i.nodes, ∃ n, g.get? m = some n ∧ n.scheduled = false ∧ n.instance? = none
  dry : ∀ o ∈ i.outputs, ∃ n, g.get? o = some n ∧ n.outputs = [∅]

namespace Engine

variable {e s : Engine} {commands : List Command}

/-! ## Settings -/

/-- An engine keeps the settings it was made with. -/
theorem settings_of_mem_trail (h : e.Settled) (hs : s ∈ e.trail commands) :
    s.settings = e.settings :=
  trail_induct (P := fun s => s.settings = e.settings)
    (fun hs c he => (answer_serves hs c).settings.trans he)
    (fun hs he => (settings_swept hs.sound).trans he) h rfl hs

/-! ## Pools -/

/-- All that is pooled is dormant, and no pool is larger than a capacity that is set. -/
structure Shelves (e : Engine) (capacity : Option Nat) : Prop where
  dormant : ∀ key p, e.prototype? key = some p → ∀ i ∈ p.pool, i.Dormant e.graph p
  room : ∀ key p, e.prototype? key = some p → ∀ c, capacity = some c → p.pool.length ≤ c

theorem shelves_of_sound (h : Sound (.rest e)) : e.Shelves e.settings.poolCapacity where
  room := h.capacity
  dormant := by
    intro key p hp i hi
    have hidle := h.idle key p hp i hi
    have hlive : ∀ m ∈ i.nodes, ∃ n, e.graph.get? m = some n := by
      intro m hm
      obtain ⟨n, hn, -⟩ := h.owning.internal_of_mem (Sound.mem_of_pool (w := .rest e) hp hi) hm
      exact ⟨n, hn⟩
    refine ⟨hidle.current, fun m hm => ?_, fun o ho => ?_⟩
    · obtain ⟨n, hn⟩ := hlive m hm
      have hbound := hidle.unbound m hm
      rw [Work.rest, Graph.instance?_of_get? hn] at hbound
      exact ⟨n, hn, hidle.unscheduled m hm n hn, hbound⟩
    · have hm := h.owning.outputs_subset (Sound.mem_of_pool (w := .rest e) hp hi) ho
      obtain ⟨n, hn⟩ := hlive o hm
      exact ⟨n, hn, hidle.dry o ho n hn⟩

/-- Firing leaves the settings alone. -/
theorem shelves_midwave (h : Sound (.rest e)) {shots : List Shot}
    (hshots : shots <+: (collect e.graph e.pending).1) :
    (e.collected.fireAll shots).2.Shelves e.settings.poolCapacity := by
  obtain ⟨hsound, hflows⟩ := collected_spec h
  obtain ⟨e', hfire, hsound', hflows'⟩ := fireAll_spec hsound fun shot hshot =>
    not_pooled_of_mem_collect h (hshots.subset hshot)
  have hsettings : e'.settings = e.settings := hflows'.settings.trans hflows.settings
  rw [hfire, ← hsettings]
  exact shelves_of_sound hsound'

/-- Pools are in order wherever a session comes by, also in the middle of a wave. -/
theorem shelves_trail (settings : Settings) (console : Console) (commands : List Command) :
    let e := fresh settings console
    e.after commands ∈ e.trail commands ∧
      (∀ s ∈ e.trail commands, s.Shelves settings.poolCapacity) ∧
      ∀ w ∈ e.waves commands, ∀ shots, shots <+: (collect w.graph w.pending).1 →
        (w.collected.fireAll shots).2.Shelves settings.poolCapacity := by
  intro e
  have h : e.Settled := fresh_settled settings console
  refine ⟨e.after_mem_trail commands, ?_, ?_⟩
  · intro s hs
    have hkept : s.settings = settings := settings_of_mem_trail h hs
    rw [← hkept]
    exact shelves_of_sound (settled_of_mem_trail h hs).sound
  · intro w hw shots hshots
    have hkept : w.settings = settings := settings_of_mem_trail h (mem_trail_of_mem_waves h hw)
    rw [← hkept]
    exact shelves_midwave (settled_of_mem_waves h hw).sound hshots

end Engine

end PulseFlow
