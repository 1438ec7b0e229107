import PulseFlow.Proofs.Sessions

/-!
# What is due and what is bound

Three records say which nodes are due: the pending list, the flags of the nodes, and the inputs they
have received.  Between any two calls they agree.  And a reference is bound only as long as
something below it is due, so once nothing is pending nothing is bound.

    ((fresh settings console).after commands).Punctual                       (punctual_after)
    e.Settled → e.hasPending = false → e.Quiet                               (Settled.quiet)
-/

namespace PulseFlow

/-- A node of the graph that has inputs, all of which hold signals. -/
def Graph.Full (g : Graph) (id : NodeId) : Prop :=
  ∃ n, g.get? id = some n ∧ n.inputs ≠ [] ∧ ∀ s ∈ n.inputs, s.isSome = true

namespace Engine

variable {e : Engine} {id : NodeId}

/-! ## What is due -/

/-- Pending entries, flags and inputs agree. -/
structure Punctual (e : Engine) : Prop where
  once : e.pending.Nodup
  scheduled : ∀ id, id ∈ e.pending ↔ Graph.Scheduled e.graph id
  full : ∀ id, id ∈ e.pending ↔ Graph.Full e.graph id
  /-- Nothing that has left the graph is pending. -/
  gone : ∀ id, e.graph.get? id = none → id ∉ e.pending
  /-- No ready node is passed over. -/
  ready : ∀ id n, e.graph.get? id = some n → n.ready = true → n.scheduled = true ∧ id ∈ e.pending

theorem scheduled_iff_full (h : Sound (.rest e)) (id : NodeId) :
    Graph.Scheduled e.graph id ↔ Graph.Full e.graph id := by
  constructor
  · rintro ⟨n, hn, hs⟩
    have hready : n.ready = true := (h.coherent.ready id n hn).symm.trans hs
    exact ⟨n, hn, Node.ready_iff.1 hready⟩
  · rintro ⟨n, hn, hfull⟩
    have hready : n.ready = true := Node.ready_iff.2 hfull
    exact ⟨n, hn, (h.coherent.ready id n hn).trans hready⟩

theorem punctual_of_sound (h : Sound (.rest e)) : e.Punctual := by
  have hpending := mem_pending_iff h
  constructor
  · exact h.coherent.nodup
  · exact hpending
  · exact fun id => (hpending id).trans (scheduled_iff_full h id)
  · intro id hnone hid
    obtain ⟨n, hn, -⟩ := (hpending id).1 hid
    rw [hnone] at hn
    cases hn
  · intro id n hn hready
    have hs : n.scheduled = true := (h.coherent.ready id n hn).trans hready
    exact ⟨hs, (hpending id).2 ⟨n, hn, hs⟩⟩

theorem punctual_after (settings : Settings) (console : Console) (commands : List Command) :
    ((fresh settings console).after commands).Punctual :=
  punctual_of_sound (settled_after settings console commands).sound

/-! ## What is bound -/

/-- Nothing is watched or bound, and all instances are idle. -/
structure Quiet (e : Engine) : Prop where
  watch : e.watch = []
  unbound : ∀ id, e.instance? id = none
  pooled : ∀ id, Graph.Internal e.graph id → e.Pooled id

theorem Settled.unbound (h : e.Settled) (hp : e.hasPending = false) (id : NodeId) :
    e.instance? id = none := by
  have hempty : e.pending = [] := by simpa [hasPending] using hp
  cases hi : e.instance? id with
  | none => rfl
  | some i =>
    obtain ⟨m, hm⟩ := (h.busy id i hi).exists_scheduled
    have hmem := (mem_pending_iff h.sound m).2 hm
    rw [hempty] at hmem
    cases hmem

theorem Settled.quiet (h : e.Settled) (hp : e.hasPending = false) : e.Quiet := by
  have hun := h.unbound hp
  refine ⟨List.eq_nil_iff_forall_not_mem.2 fun id hid => ?_, hun, fun id hid => ?_⟩
  · obtain ⟨i, hi⟩ := (h.sound.watching.mem_iff id).1 hid
    exact absurd ((hun id).symm.trans hi) (by simp)
  · have howner := h.sound.owning.mem_of_internal hid
    obtain ⟨i, hi, hm⟩ := howner.resolve_left List.not_mem_nil
    rcases Work.mem_instances.1 hi with hi | ⟨k, hi⟩ | ⟨k, p, hp, hi⟩
    · cases hi
    · exact absurd ((hun k).symm.trans hi) (by simp)
    · exact ⟨k, p, i, hp, hi, hm⟩

/-- A run that ends with nothing pending. -/
theorem Settled.quiet_run (h : e.Settled) {budget taken : Nat}
    (hidle : (e.run budget).1 = .idle taken) :
    (e.run budget).2.hasPending = false ∧ (e.run budget).2.Quiet := by
  have hp := hasPending_of_runFrom_idle h.sound hidle
  exact ⟨hp, (run_settled h budget).quiet hp⟩

theorem bound_active_after (settings : Settings) (console : Console) (commands : List Command) :
    let e := (fresh settings console).after commands
    (∀ id i, e.instance? id = some i → e.isActive id = true) ∧
      (e.hasPending = false → e.Quiet) ∧
      ∀ budget taken, (e.run budget).1 = .idle taken →
        (e.run budget).2.hasPending = false ∧ (e.run budget).2.Quiet := by
  intro e
  have h : e.Settled := settled_after settings console commands
  refine ⟨fun id i hi => ?_, h.quiet, fun budget taken => h.quiet_run⟩
  exact (isActive_iff h.sound.layered id).2 (h.busy id i hi)

end Engine

end PulseFlow
