import PulseFlow.Proofs.Accounts
import PulseFlow.Proofs.Numbers
import PulseFlow.Proofs.Transparency

/-!
# The numbers that callers know

Visible nodes and nodes of instances share one graph, and the numbers of the latter are used again
and again.  A caller notices none of this: the number of a node that was placed stays with it until
it is removed, and is not given to another node afterwards.

A session keeps a ledger of the nodes placed so far, with their signatures, and of those removed
(`Ledger`).  Placing and removing write to it; nothing else changes which nodes callers see
(`SameNodes`).

    Ledger ((fresh settings console).after commands) placed removed            (ledger_after)
-/

namespace PulseFlow

/-! ## What callers see -/

namespace Graph

/-- Callers see the same nodes, and no number comes back into use. -/
structure SameNodes (g g' : Graph) : Prop where
  stay : ∀ id n, g.get? id = some n → n.internal = false →
    ∃ n', g'.get? id = some n' ∧ n'.internal = false ∧ n.SameForm n'
  known : ∀ id, Visible g' id → Visible g id
  retired : ∀ id, g.Retired id → g'.Retired id

namespace SameNodes

variable {g g' g'' : Graph}

theorem refl (g : Graph) : SameNodes g g :=
  ⟨fun _ n hn hv => ⟨n, hn, hv, .refl n⟩, fun _ hv => hv, fun _ hr => hr⟩

theorem trans (h : SameNodes g g') (h' : SameNodes g' g'') : SameNodes g g'' where
  stay := by
    intro id n hn hv
    obtain ⟨n', hn', hv', hform⟩ := h.stay id n hn hv
    obtain ⟨n'', hn'', hv'', hform'⟩ := h'.stay id n' hn' hv'
    exact ⟨n'', hn'', hv'', hform.trans hform'⟩
  known := fun id hv => h.known id (h'.known id hv)
  retired := fun id hr => h'.retired id (h.retired id hr)

theorem visible_iff (h : SameNodes g g') (id : NodeId) : Visible g' id ↔ Visible g id := by
  refine ⟨h.known id, ?_⟩
  rintro ⟨n, hn, hv⟩
  obtain ⟨n', hn', hv', -⟩ := h.stay id n hn hv
  exact ⟨n', hn', hv'⟩

theorem of_lasts (h : Lasts g g') (he : Slots.Evolves g g') : SameNodes g g' where
  stay := by
    intro id n hn hv
    obtain ⟨n', hn', hint, hform⟩ := h.live id n hn
    exact ⟨n', hn', hint.trans hv, hform⟩
  known := by
    rintro id ⟨n', hn', hv⟩
    obtain ⟨n, hn⟩ := h.known id n' hn' hv
    obtain ⟨m, hm, hint, -⟩ := h.live id n hn
    cases hm.symm.trans hn'
    exact ⟨n, hn, hint.symm.trans hv⟩
  retired := fun _ hr => he.retired hr

/-- Where nodes lose bindings and connections at most, but callers lose none. -/
theorem of_fades (h : Fades g g') (hlive : ∀ id, Visible g id → ∃ n', g'.get? id = some n')
    (he : Slots.Evolves g g') : SameNodes g g' where
  stay := by
    intro id n hn hv
    obtain ⟨n', hn'⟩ := hlive id ⟨n, hn, hv⟩
    have hfade := h.node hn hn'
    exact ⟨n', hn', hfade.internal.trans hv, hfade.sameForm⟩
  known := by
    rintro id ⟨n', hn', hv⟩
    obtain ⟨n, hn, hfade⟩ := h id n' hn'
    exact ⟨n, hn, hfade.internal.symm.trans hv⟩
  retired := fun _ hr => he.retired hr

end SameNodes

end Graph

theorem Moves.sameNodes {S : NodeId → Prop} {w w' : Work} (m : Moves S w w') (h : Sound w) :
    Graph.SameNodes w.engine.graph w'.engine.graph := by
  induction m with
  | refl => exact .refl _
  | tail hsteps hstep ih =>
    refine ih.trans (.of_fades hstep.fades (fun id hv => ?_) hstep.evolves)
    exact hstep.live_of_visible (Moves.sound hsteps h) hv

namespace Engine

variable {e e' : Engine} {id : NodeId} {n : Node}

open PulseFlow.Graph (SameNodes)

/-! ## What leaves callers their nodes -/

theorem releaded_sameNodes (e : Engine) (source : Socket) (change : Fan → Fan) :
    SameNodes e.graph (e.releaded source change) := by
  have hrewires := rewires_releaded e source change
  exact .of_fades hrewires.fades (fun id hv => hrewires.live id _ hv.choose_spec.1)
    (releaded_evolves e source change)

theorem Changed.sameNodes {scope : Scope} (h : Changed scope e e') (hplace : ¬ scope.placing)
    (herase : ¬ scope.erasing) : SameNodes e.graph e'.graph := by
  cases h.change with
  | feed _ alike _ => exact .of_lasts (.of_alike alike) h.evolves
  | file _ graph _ => exact graph ▸ .refl e.graph
  | bind _ get body _ engaged => exact .of_lasts (lasts_engage h.before get body engaged) h.evolves
  | tear moves _ => exact moves.sameNodes h.before
  | place placing _ _ _ => exact absurd placing hplace
  | relead _ _ _ _ graph _ => exact graph ▸ e.releaded_sameNodes _ _
  | erase erasing _ _ _ _ => exact absurd erasing herase
  | declare _ graph _ => exact graph ▸ .refl e.graph
  | replace _ _ _ start moves _ => exact moves.sameNodes start

/-- Anything but placing and erasing. -/
def Scope.fixed : Scope := ⟨fun _ => True, True, False, True, False⟩

theorem Changes.sameNodes (h : Changes .fixed e e') : SameNodes e.graph e'.graph := by
  induction h with
  | refl => exact .refl e.graph
  | tail _ hstep ih => exact ih.trans (hstep.sameNodes id id)

/-! ## The ledger of a session -/

/-- The node that a command places, with the signature that its name or its logic gives it. -/
def Command.placed? (e : Engine) : Command → Option (NodeId × Option Signature)
  | .call (.create key) =>
    match (e.create key).1 with
    | .ok id => some (id, e.registry.signature? key)
    | .error _ => none
  | .call (.addLogic l) => some ((e.addLogic l).1, some l.signature)
  | _ => none

/-- The node that a command takes out. -/
def Command.removed? (e : Engine) : Command → Option NodeId
  | .call (.remove id) =>
    match (e.remove id).1 with
    | .ok _ => some id
    | .error _ => none
  | _ => none

/-- All nodes placed in a session, in this order. -/
def placed (e : Engine) : List Command → List (NodeId × Option Signature)
  | [] => []
  | c :: commands => (c.placed? e).toList ++ (e.perform c).placed commands

/-- All nodes taken out in a session. -/
def removed (e : Engine) : List Command → List NodeId
  | [] => []
  | c :: commands => (c.removed? e).toList ++ (e.perform c).removed commands

/-- The nodes that callers see are those placed and not removed, each as it was placed.  No number
was given out twice, and those of removed nodes stay out of use. -/
structure Ledger (e : Engine) (placed : List (NodeId × Option Signature)) (removed : List NodeId) :
    Prop where
  distinct : (placed.map Prod.fst).Nodup
  visible : ∀ id, Graph.Visible e.graph id ↔ id ∈ placed.map Prod.fst ∧ id ∉ removed
  retired : ∀ id ∈ removed, e.graph.Retired id
  signature : ∀ entry ∈ placed, ∀ n, e.graph.get? entry.1 = some n → n.internal = false →
    entry.2 = some n.signature

namespace Ledger

variable {placed : List (NodeId × Option Signature)} {removed : List NodeId}

theorem sameNodes (h : Ledger e placed removed) (hs : SameNodes e.graph e'.graph) :
    Ledger e' placed removed where
  distinct := h.distinct
  visible := fun id => (hs.visible_iff id).trans (h.visible id)
  retired := fun id hid => hs.retired id (h.retired id hid)
  signature := by
    intro entry hentry n' hn' hv'
    obtain ⟨n, hn, hv⟩ := hs.known entry.1 ⟨n', hn', hv'⟩
    obtain ⟨m, hm, -, hform⟩ := hs.stay entry.1 n hn hv
    cases hm.symm.trans hn'
    rw [hform.signature]
    exact h.signature entry hentry n hn hv

/-- The number of a new node was never given out: it is neither in use nor retired. -/
theorem add (h : Ledger e placed removed) (ht : e.graph.Tidy) (hv : n.internal = false)
    (hg : e'.graph = (e.graph.add n).2) :
    Ledger e' (placed ++ [((e.graph.add n).1, some n.signature)]) removed := by
  have hnew : (e.graph.add n).1 ∉ removed := fun hr => (h.retired _ hr).add_ne n rfl
  have hfresh : (e.graph.add n).1 ∉ placed.map Prod.fst := by
    intro hp
    obtain ⟨m, hm, -⟩ := (h.visible _).2 ⟨hp, hnew⟩
    rw [Slots.get?_add_fst ht n] at hm
    cases hm
  have hget : ∀ k, e'.graph.get? k = if (e.graph.add n).1 = k then some n else e.graph.get? k := by
    intro k
    rw [hg, Slots.get?_add ht]
  constructor
  · rw [List.map_append, List.nodup_append]
    refine ⟨h.distinct, List.nodup_singleton _, ?_⟩
    rintro a ha b hb rfl
    exact hfresh (List.mem_singleton.1 hb ▸ ha)
  · intro k
    rw [List.map_append, List.mem_append, List.map_cons, List.map_nil, List.mem_singleton]
    unfold Graph.Visible
    rw [hget]
    by_cases hk : (e.graph.add n).1 = k
    · rw [if_pos hk]
      exact ⟨fun _ => ⟨.inr hk.symm, hk ▸ hnew⟩, fun _ => ⟨n, rfl, hv⟩⟩
    · rw [if_neg hk]
      refine (h.visible k).trans (and_congr_left fun _ => ?_)
      exact ⟨.inl, fun hor => hor.resolve_right fun he => hk he.symm⟩
  · intro k hk
    rw [hg]
    exact (h.retired k hk).add n
  · intro entry hentry m hm hmv
    rw [hget] at hm
    rcases List.mem_append.1 hentry with hentry | hentry
    · have hne : (e.graph.add n).1 ≠ entry.1 := by
        intro he
        exact hfresh (he ▸ List.mem_map_of_mem hentry)
      rw [if_neg hne] at hm
      exact h.signature entry hentry m hm hmv
    · rw [List.mem_singleton] at hentry
      rw [hentry, if_pos rfl] at hm
      cases hm
      rw [hentry]

/-- A visible node is erased; its number is closed. -/
theorem erase (h : Ledger e placed removed) (ht : e.graph.Tidy) (hv : Graph.Visible e.graph id)
    (hg : e'.graph = Graph.erase e.graph id) : Ledger e' placed (removed ++ [id]) := by
  have hrow : ∀ k n', e'.graph.get? k = some n' →
      k ≠ id ∧ ∃ n, e.graph.get? k = some n ∧ n' = n.forget id := by
    intro k n' hn'
    rw [hg, Graph.get?_erase] at hn'
    split at hn'
    · cases hn'
    · next hne =>
      obtain ⟨n, hn, rfl⟩ := Option.map_eq_some_iff.1 hn'
      exact ⟨Ne.symm hne, n, hn, rfl⟩
  have hevolves : Slots.Evolves (e.graph.close id) e'.graph := by
    rw [hg]
    exact .single (.map _ _)
  refine ⟨h.distinct, fun k => ?_, fun k hk => ?_, fun entry hentry n' hn' hnv => ?_⟩
  · rw [List.mem_append, List.mem_singleton, not_or, ← and_assoc, ← h.visible k]
    constructor
    · rintro ⟨n', hn', hnv⟩
      obtain ⟨hne, n, hn, rfl⟩ := hrow k n' hn'
      exact ⟨⟨n, hn, hnv⟩, hne⟩
    · rintro ⟨⟨n, hn, hnv⟩, hne⟩
      refine ⟨n.forget id, ?_, hnv⟩
      rw [hg]
      exact Graph.live_erase hne hn
  · rcases List.mem_append.1 hk with hk | hk
    · exact hevolves.retired ((h.retired k hk).op (.close _ _))
    · rw [List.mem_singleton.1 hk]
      obtain ⟨n, hn, -⟩ := hv
      exact hevolves.retired (Slots.retired_close ht hn)
  · obtain ⟨-, n, hn, rfl⟩ := hrow entry.1 n' hn'
    rw [(Node.Fades.forget id n).sameForm.signature]
    exact h.signature entry hentry n hn hnv

end Ledger

/-! ## Sessions -/

variable {placed : List (NodeId × Option Signature)} {removed : List NodeId}

theorem create_ledger (h : e.Settled) (hl : Ledger e placed removed) (key : Key) :
    Ledger (e.create key).2 (placed ++ (Command.placed? e (.call (.create key))).toList)
      removed := by
  rcases e.create_cases key with ⟨err, he⟩ | ⟨n, heap, hm, he⟩
  · have hnone : Command.placed? e (.call (.create key)) = none := by
      simp only [Command.placed?, he]
    rw [hnone, he]
    simpa using hl
  · have hsome : Command.placed? e (.call (.create key)) =
        some ((e.graph.add n).1, some n.signature) := by
      simp only [Command.placed?, he, Registry.signature_makeNode hm]
    have htidy : e.graph.Tidy := h.sound.tidy
    have hnew := Registry.fresh_makeNode hm
    rw [hsome, he]
    exact hl.add htidy hnew.visible rfl

theorem remove_ledger (h : e.Settled) (hl : Ledger e placed removed) (id : NodeId) :
    Ledger (e.remove id).2 placed (removed ++ (Command.removed? e (.call (.remove id))).toList) := by
  cases hv : e.visible id with
  | error err =>
    have hfail : e.remove id = (.error err, e) := by rw [remove, hv]
    have hnone : Command.removed? e (.call (.remove id)) = none := by
      simp only [Command.removed?, hfail]
    rw [hnone, hfail]
    simpa using hl
  | ok n =>
    have hvis : Graph.Visible e.graph id := ⟨n, get?_of_visible hv⟩
    have hmoves : Moves (fun _ => True) (.rest e) (.rest (e.withdraw id)) :=
      (withdraw_moves h.sound trivial fun _ _ _ _ _ _ => trivial).1
    have hsame : SameNodes e.graph (e.withdraw id).graph := hmoves.sameNodes h.sound
    have htidy : (e.withdraw id).graph.Tidy := (hmoves.sound h.sound).tidy
    have hsome : Command.removed? e (.call (.remove id)) = some id := by
      simp only [Command.removed?, remove, hv]
    have hgraph : (e.remove id).2.graph = Graph.erase (e.withdraw id).graph id := by
      rw [remove, hv]
    rw [hsome]
    exact (hl.sameNodes hsame).erase htidy ((hsame.visible_iff id).2 hvis) hgraph

theorem perform_ledger (h : e.Settled) (hl : Ledger e placed removed) (c : Command) :
    Ledger (e.perform c) (placed ++ (c.placed? e).toList) (removed ++ (c.removed? e).toList) := by
  -- all other commands write nothing
  have hnone : ∀ {e'}, Changes .fixed e e' → Ledger e' (placed ++ []) (removed ++ []) := by
    intro e' hc
    rw [List.append_nil, List.append_nil]
    exact hl.sameNodes hc.sameNodes
  cases c with
  | step =>
    refine hnone ?_
    show Changes .fixed e e.step.2
    rw [step_eq h.sound]
    exact swept_changes trivial h.sound
  | run budget => exact hnone (runFrom_changes trivial h.sound)
  | call c =>
    have hcall : c.Needs .fixed → Ledger (e.answer c) (placed ++ []) (removed ++ []) := fun hc =>
      hnone (answer_changes_of_needs (fun _ => trivial) h hc)
    cases c with
    | create key =>
      have hcreate := create_ledger h hl key
      rwa [← List.append_nil removed] at hcreate
    | addLogic l =>
      have hadd : Ledger (e.addLogic l).2
          (placed ++ [((e.graph.add (Node.native l)).1, some (Node.native l).signature)]) removed :=
        hl.add h.sound.tidy rfl rfl
      rw [Node.signature_native, ← List.append_nil removed] at hadd
      exact hadd
    | remove id =>
      have hremove := remove_ledger h hl id
      rwa [← List.append_nil placed] at hremove
    | _ => exact hcall trivial

theorem Settled.ledger (h : e.Settled) (hl : Ledger e placed removed) (commands : List Command) :
    Ledger (e.after commands) (placed ++ e.placed commands) (removed ++ e.removed commands) := by
  induction commands generalizing e placed removed with
  | nil =>
    rw [Engine.placed, Engine.removed, List.append_nil, List.append_nil]
    exact hl
  | cons c commands ih =>
    have hrest := ih (perform_settled h c) (perform_ledger h hl c)
    rw [List.append_assoc, List.append_assoc] at hrest
    exact hrest

theorem ledger_after (settings : Settings) (console : Console) (commands : List Command) :
    Ledger ((fresh settings console).after commands) ((fresh settings console).placed commands)
      ((fresh settings console).removed commands) := by
  have hstart : Ledger (fresh settings console) [] [] := by
    refine ⟨List.nodup_nil, fun id => ⟨?_, fun h => absurd h.1 List.not_mem_nil⟩,
      fun id hid => absurd hid List.not_mem_nil, fun entry he => absurd he List.not_mem_nil⟩
    rintro ⟨n, hn, -⟩
    have hnone : (fresh settings console).graph.get? id = none := Slots.get?_empty id
    rw [hnone] at hn
    cases hn
  exact (fresh_settled settings console).ledger hstart commands

/-! ## Asking for nodes -/

theorem mem_nodes (e : Engine) (id : NodeId) : id ∈ e.nodes ↔ Graph.Visible e.graph id := by
  unfold nodes visible? Graph.Visible
  rw [List.mem_filter, Slots.mem_ids]
  cases e.graph.get? id with
  | none => simp
  | some n => simp [Option.filter]

theorem nodes_increasing (e : Engine) : e.nodes.Pairwise (· < ·) :=
  (List.pairwise_lt_range.filter _).filter _

theorem visible_of_not (h : ¬ Graph.Visible e.graph id) :
    e.visible id = .error (.missingNode id) := by
  unfold visible
  cases hn : e.graph.get? id with
  | none => rfl
  | some n =>
    have hint : n.internal = true := by
      by_contra hint
      exact h ⟨n, hn, Bool.eq_false_iff.2 hint⟩
    simp only [hint, if_true]

/-- No call finds the node, and each says so. -/
structure Misses (e : Engine) (id : NodeId) : Prop where
  connect : ∀ port target, e.connect ⟨id, port⟩ target = (.error (.missingNode id), e)
  /-- The other end is looked for first. -/
  connectTo : ∀ source port, e.connect source ⟨id, port⟩ =
    (.error (.missingNode (if source.node ∈ e.nodes then id else source.node)), e)
  disconnect : ∀ port, e.disconnect ⟨id, port⟩ = (.error (.missingNode id), e)
  targets : ∀ port, e.targets ⟨id, port⟩ = .error (.missingNode id)
  remove : e.remove id = (.error (.missingNode id), e)
  pulse : ∀ port s, e.pulse ⟨id, port⟩ s = (.error (.missingNode id), e)

theorem misses_of_not_visible (h : ¬ Graph.Visible e.graph id) : e.Misses id := by
  have hmiss := visible_of_not h
  refine ⟨fun port target => ?_, fun source port => ?_, fun port => ?_, fun port => ?_, ?_,
    fun port s => ?_⟩
  · simp only [Engine.connect, hmiss]
    rfl
  · by_cases hs : Graph.Visible e.graph source.node
    · obtain ⟨n, hn, hv⟩ := hs
      have hsource : e.visible source.node = .ok n := by simp [visible, hn, hv]
      rw [if_pos ((e.mem_nodes _).2 ⟨n, hn, hv⟩)]
      simp only [Engine.connect, hsource, hmiss]
      rfl
    · rw [if_neg fun hm => hs ((e.mem_nodes _).1 hm)]
      simp only [Engine.connect, visible_of_not hs]
      rfl
  · simp only [Engine.disconnect, hmiss]
    rfl
  · simp only [Engine.targets, hmiss]
    rfl
  · simp only [Engine.remove, hmiss]
  · simp only [Engine.pulse, hmiss]

theorem identity_after (settings : Settings) (console : Console) (commands : List Command) :
    let start := fresh settings console
    let e := start.after commands
    e.nodes.Pairwise (· < ·) ∧
      (∀ id, id ∈ e.nodes ↔
        id ∈ (start.placed commands).map Prod.fst ∧ id ∉ start.removed commands) ∧
      ((start.placed commands).map Prod.fst).Nodup ∧
      (∀ entry ∈ start.placed commands, entry.1 ∈ e.nodes →
        ∃ n, e.graph.get? entry.1 = some n ∧ entry.2 = some n.signature) ∧
      ∀ id, id ∈ start.removed commands ∨ Graph.Internal e.graph id → e.Misses id := by
  intro start e
  have hl : Ledger e (start.placed commands) (start.removed commands) :=
    ledger_after settings console commands
  refine ⟨e.nodes_increasing, fun id => (e.mem_nodes id).trans (hl.visible id), hl.distinct,
    fun entry hentry hnode => ?_, fun id hid => misses_of_not_visible fun hv => ?_⟩
  · obtain ⟨n, hn, hv⟩ := (e.mem_nodes entry.1).1 hnode
    exact ⟨n, hn, hl.signature entry hentry n hn hv⟩
  · rcases hid with hr | hint
    · exact ((hl.visible id).1 hv).2 hr
    · exact Graph.not_visible_of_internal hint hv

end Engine

end PulseFlow
