import PulseFlow.Proofs.Importing

/-!
# Sessions

All that callers can do with an engine, in any order and with any outcome.  A session starts with a
fresh engine; every engine it leads to is settled, so what is proved of settled engines holds
between any two calls.

    ((fresh settings console).after commands).Settled                        (settled_after)
-/

namespace PulseFlow.Engine

/-! ## Commands -/

/-- A call that fires nothing. -/
inductive Call : Type 1 where
  /-- What happens outside: arrays that change, another console. -/
  | outside (world : World)
  | registerLogic (logic : Logic)
  | declare (key : Key) (inputs outputs : Nat)
  | register {α : Type} (key : Key) (inputs outputs : Nat) (course : Edit α)
  | edit {α : Type} (key : Key) (course : Edit α)
  | clearPool (key : Key)
  | create (key : Key)
  | addLogic (logic : Logic)
  | connect (source target : Socket)
  | disconnect (source : Socket)
  | remove (id : NodeId)
  | pulse (target : Socket) (signal : Signal)
  | importProject (project : Document.Project)

inductive Command : Type 1 where
  | call (c : Call)
  | step
  | run (budget : Nat)

/-- The engine after a call, whether it succeeds or fails. -/
def answer (e : Engine) : Call → Engine
  | .outside world => { e with world }
  | .registerLogic l => (e.registerLogic l).2
  | .declare key inputs outputs => (e.declare key inputs outputs).2
  | .register key inputs outputs course => (e.register key inputs outputs course).2
  | .edit key course => (e.edit key course).2
  | .clearPool key => (e.clearPool key).2
  | .create key => (e.create key).2
  | .addLogic l => (e.addLogic l).2
  | .connect source target => (e.connect source target).2
  | .disconnect source => (e.disconnect source).2
  | .remove id => (e.remove id).2
  | .pulse target signal => (e.pulse target signal).2
  | .importProject project => (e.importProject project).2

def perform (e : Engine) : Command → Engine
  | .call c => e.answer c
  | .step => e.step.2
  | .run budget => (e.run budget).2

/-- The engine at the end of a session. -/
def after (e : Engine) (commands : List Command) : Engine := commands.foldl perform e

/-! ## Settled throughout -/

variable {e : Engine}

/-- In a fresh engine there is nothing of which anything could be wrong. -/
theorem fresh_settled (settings : Settings) (console : Console) :
    (fresh settings console).Settled := by
  generalize he : fresh settings console = e
  have hgraph : e.graph = Graph.empty := by rw [← he]; rfl
  have hnode : ∀ {id n}, e.graph.get? id = some n → False := by
    intro id n hn
    rw [hgraph, Graph.empty, Slots.get?_empty] at hn
    cases hn
  have hinst : ∀ {id i}, Graph.instance? e.graph id = some i → False := by
    intro id i hi
    obtain ⟨n, hn, -⟩ := Graph.instance?_eq_some_iff.1 hi
    exact hnode hn
  have hproto : ∀ {k p}, e.prototype? k = some p → False := by
    intro k p hp
    rw [← he] at hp
    cases hp
  have hnone : Work.instances (.rest e) = [] := by
    refine List.eq_nil_iff_forall_not_mem.2 fun i hi => ?_
    rcases Work.mem_instances.1 hi with hi | ⟨id, hi⟩ | ⟨k, p, hp, -⟩
    · cases hi
    · exact hinst hi
    · exact hproto hp
  have hwatch : e.watch = [] := by rw [← he]; rfl
  have hpending : e.pending = [] := by rw [← he]; rfl
  refine ⟨⟨?_, ?_, ?_, ?_, ?_, ?_, ?_, ?_, ?_, ?_, ?_, ?_⟩, fun id i hi => (hinst hi).elim⟩
  · show e.graph.Tidy
    rw [hgraph]
    exact Slots.tidy_empty
  · rw [hnone]
    refine ⟨by simp, by simp, List.nodup_nil, fun id => ⟨fun h => absurd h List.not_mem_nil, ?_⟩,
      by simp⟩
    rintro ⟨n, hn, -⟩
    exact (hnode hn).elim
  · show Watching e.graph e.watch
    rw [hwatch]
    refine ⟨List.nodup_nil, fun id => ⟨fun h => absurd h List.not_mem_nil, ?_⟩⟩
    rintro ⟨i, hi⟩
    exact (hinst hi).elim
  · exact ⟨fun _ => 0, fun id i hi => (hinst hi).elim⟩
  · show Coherent e.graph e.pending []
    rw [hpending]
    refine ⟨List.nodup_nil, fun id h => absurd h List.not_mem_nil, ?_,
      fun id n hn => (hnode hn).elim⟩
    rintro id ⟨n, hn, -⟩
    exact (hnode hn).elim
  · rw [hnone]
    exact ⟨fun id n hn => (hnode hn).elim, by simp, by simp, by simp,
      fun id n i hn => (hnode hn).elim⟩
  · exact fun k p hp => (hproto hp).elim
  · exact fun k p hp => (hproto hp).elim
  · exact fun id n hn => (hnode hn).elim
  · exact fun id n i hn => (hnode hn).elim
  · exact fun k p hp => (hproto hp).elim
  · exact fun k p hp => (hproto hp).elim

theorem answer_serves (h : e.Settled) (c : Call) : Serves e (e.answer c) := by
  cases c with
  | outside world => exact serves_world h world
  | registerLogic l => exact registerLogic_serves h l
  | declare key inputs outputs => exact declare_serves h key inputs outputs
  | register key inputs outputs course => exact register_serves h key inputs outputs course
  | edit key course => exact edit_serves h key course
  | clearPool key => exact clearPool_serves h key
  | create key => exact create_serves h key
  | addLogic l => exact addNode_serves h (Node.fresh_native _ l)
  | connect source target => exact connect_serves h source target
  | disconnect source => exact disconnect_serves h source
  | remove id => exact remove_serves h id
  | pulse target signal =>
    have hf := pulse_feeds h.sound target signal
    exact .of_flows ⟨hf.sound, hf.busy h.busy⟩ hf.flows
  | importProject project => exact importProject_serves h project

theorem swept_settled (h : e.Settled) : e.swept.Settled :=
  ⟨swept_sound h.sound, busy_swept h.sound⟩

theorem run_settled (h : e.Settled) (budget : Nat) : (e.run budget).2.Settled := by
  have hrun : Sound (.rest (runFrom 0 budget e).2) ∧ Graph.Busy (runFrom 0 budget e).2.graph :=
    runFrom_induct (P := fun e => Graph.Busy e.graph) (fun e hs _ => busy_swept hs) h.sound h.busy
  exact ⟨hrun.1, hrun.2⟩

theorem perform_settled (h : e.Settled) (c : Command) : (e.perform c).Settled := by
  cases c with
  | call c => exact (answer_serves h c).settled
  | step =>
    show e.step.2.Settled
    rw [step_eq h.sound]
    exact swept_settled h
  | run budget => exact run_settled h budget

theorem Settled.after (h : e.Settled) (commands : List Command) : (e.after commands).Settled := by
  induction commands generalizing e with
  | nil => exact h
  | cons c commands ih => exact ih (perform_settled h c)

theorem settled_after (settings : Settings) (console : Console) (commands : List Command) :
    ((fresh settings console).after commands).Settled :=
  (fresh_settled settings console).after commands

end PulseFlow.Engine
