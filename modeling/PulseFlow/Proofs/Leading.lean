import PulseFlow.Proofs.Forms
import PulseFlow.Proofs.Placing

/-!
# What leads where after a change

How each operation on a graph changes what leads where, and which inputs are there.

    Leads (g.add n).2 s t ↔ Leads g s t, where n leads nowhere               (leads_add)
    Leads (erase g id) s t ↔ Leads g s t ∧ s.node ≠ id ∧ t.node ≠ id         (leads_erase)
    Leads g' s t ↔ Leads g s t ∨ s = source ∧ t = target,
      where g' is g with source led to target                                (leads_connect)
    Leads g' s t ↔ s.node ≠ id ∧ t.node ≠ id ∧ (Leads g s t ∨
      ∃ port, Leads g s ⟨id, port⟩ ∧ Leads g ⟨id, port⟩ t),
      where g' is g with id bypassed                                          (leads_bypass)
-/

namespace PulseFlow

namespace Node

theorem fan?_modifyFan (n : Node) (port k : Nat) (change : Fan → Fan) :
    (n.modifyFan port change).fan? k = if port = k then (n.fan? k).map change else n.fan? k := by
  simp only [fan?, outputs_modifyFan, List.getElem?_modify]
  by_cases hk : port = k <;> simp [hk]

theorem fan?_mapFans (n : Node) (change : Fan → Fan) (k : Nat) :
    (n.mapFans change).fan? k = (n.fan? k).map change := by
  simp [fan?, mapFans]

end Node

namespace Graph

variable {g g' : Graph} {id : NodeId} {s t source target : Socket} {change : Fan → Fan}

/-! ## One output -/

theorem leads_modifyFan_of_ne (h : s ≠ source) :
    Leads (g.modify source.node fun n => n.modifyFan source.port change) s t ↔ Leads g s t := by
  unfold Leads
  rw [Slots.get?_modify]
  by_cases hnode : source.node = s.node
  · have hport : source.port ≠ s.port := fun hp => h (by
      cases s
      cases source
      simp_all)
    rw [if_pos hnode]
    constructor
    · rintro ⟨n', f, hn', hf, ht⟩
      obtain ⟨n, hn, rfl⟩ := Option.map_eq_some_iff.1 hn'
      rw [Node.fan?_modifyFan, if_neg hport] at hf
      exact ⟨n, f, hn, hf, ht⟩
    · rintro ⟨n, f, hn, hf, ht⟩
      refine ⟨_, f, by rw [hn, Option.map_some], ?_, ht⟩
      rw [Node.fan?_modifyFan, if_neg hport]
      exact hf
  · rw [if_neg hnode]

theorem leads_modifyFan_self :
    Leads (g.modify source.node fun n => n.modifyFan source.port change) source t ↔
      ∃ n f, g.get? source.node = some n ∧ n.fan? source.port = some f ∧ t ∈ change f := by
  unfold Leads
  rw [Slots.get?_modify, if_pos rfl]
  constructor
  · rintro ⟨n', f', hn', hf', ht⟩
    obtain ⟨n, hn, rfl⟩ := Option.map_eq_some_iff.1 hn'
    rw [Node.fan?_modifyFan, if_pos rfl, Option.map_eq_some_iff] at hf'
    obtain ⟨f, hf, rfl⟩ := hf'
    exact ⟨n, f, hn, hf, ht⟩
  · rintro ⟨n, f, hn, hf, ht⟩
    refine ⟨_, change f, by rw [hn, Option.map_some], ?_, ht⟩
    rw [Node.fan?_modifyFan, if_pos rfl, hf, Option.map_some]

theorem hasInput_modifyFan (port : Nat) :
    HasInput (g.modify id fun n => n.modifyFan port change) t ↔ HasInput g t := by
  unfold HasInput
  rw [Slots.get?_modify]
  by_cases hid : id = t.node
  · rw [if_pos hid]
    constructor
    · rintro ⟨n', hn', hp⟩
      obtain ⟨n, hn, rfl⟩ := Option.map_eq_some_iff.1 hn'
      exact ⟨n, hn, hp⟩
    · rintro ⟨n, hn, hp⟩
      exact ⟨n.modifyFan port change, by rw [hn, Option.map_some], hp⟩
  · rw [if_neg hid]

theorem find_ok {n : Node} (h : find g id = .ok n) : g.get? id = some n := by
  unfold find at h
  split at h
  · next m hm =>
    cases h
    exact hm
  · cases h

theorem checkPort_ok {s : Socket} {arity : Nat} {u : Unit} (h : checkPort s arity = .ok u) :
    s.port < arity := by
  by_contra hp
  rw [checkPort, if_neg hp] at h
  cases h

theorem hasInput_of_checkInput {u : Unit} (h : checkInput g s = .ok u) : HasInput g s := by
  obtain ⟨n, hn, hp⟩ := ok_of_bind h
  exact ⟨n, find_ok hn, checkPort_ok hp⟩

/-- A connection goes from an output that is there to an input that is there. -/
theorem connect_spec (h : connect g source target = .ok g') :
    (∃ n f, g.get? source.node = some n ∧ n.fan? source.port = some f) ∧ HasInput g target := by
  obtain ⟨_, hs, h⟩ := ok_of_bind h
  obtain ⟨_, ht, -⟩ := ok_of_bind h
  obtain ⟨n, hn, hp⟩ := ok_of_bind hs
  exact ⟨⟨n, _, find_ok hn, List.getElem?_eq_getElem (checkPort_ok hp)⟩, hasInput_of_checkInput ht⟩

theorem leads_connect (h : connect g source target = .ok g') :
    Leads g' s t ↔ Leads g s t ∨ s = source ∧ t = target := by
  obtain ⟨⟨n, f, hn, hf⟩, -⟩ := connect_spec h
  rw [Engine.graph_connect_ok h]
  by_cases hs : s = source
  · subst hs
    rw [leads_modifyFan_self, leads_of_get? hn]
    constructor
    · rintro ⟨n', f', hn', hf', ht⟩
      cases hn.symm.trans hn'
      rcases SortedSet.mem_insert.1 ht with rfl | ht
      · exact .inr ⟨rfl, rfl⟩
      · exact .inl ⟨f', hf', ht⟩
    · rintro (⟨f', hf', ht⟩ | ⟨-, rfl⟩)
      · exact ⟨n, f', hn, hf', SortedSet.mem_insert.2 (.inr ht)⟩
      · exact ⟨n, f, hn, hf, SortedSet.mem_insert.2 (.inl rfl)⟩
  · rw [leads_modifyFan_of_ne hs]
    simp [hs]

/-! ## A node more -/

theorem leads_add (hg : g.Tidy) {n : Node} (hn : n.LeadsTo fun _ => False) :
    Leads (g.add n).2 s t ↔ Leads g s t := by
  by_cases hs : (g.add n).1 = s.node
  · have hnone : g.get? s.node = none := hs ▸ Slots.get?_add_fst hg n
    have hsome : (g.add n).2.get? s.node = some n := hs ▸ Slots.get?_add_self hg n
    constructor
    · intro h
      exact (h.node hsome hn).elim
    · rintro ⟨m, f, hm, -⟩
      rw [hnone] at hm
      cases hm
  · unfold Leads
    rw [Slots.get?_add_of_ne hg n hs]

theorem HasInput.add (hg : g.Tidy) (h : HasInput g t) (n : Node) : HasInput (g.add n).2 t := by
  obtain ⟨m, hm, hp⟩ := h
  exact ⟨m, Slots.get?_add_of_some hg n hm, hp⟩

/-! ## Erasing -/

/-- Erasing a node takes away what leads out of it and what leads into it. -/
theorem leads_erase : Leads (erase g id) s t ↔ Leads g s t ∧ s.node ≠ id ∧ t.node ≠ id := by
  constructor
  · rintro ⟨n', f', hn', hf', ht⟩
    obtain ⟨hs, n, hn, rfl⟩ := row_erase hn'
    rw [Node.forget, Node.fan?_mapFans, Option.map_eq_some_iff] at hf'
    obtain ⟨f, hf, rfl⟩ := hf'
    obtain ⟨ht, hne⟩ := SortedSet.mem_filter.1 ht
    exact ⟨⟨n, f, hn, hf, ht⟩, hs, by simpa using hne⟩
  · rintro ⟨⟨n, f, hn, hf, ht⟩, hs, hne⟩
    refine ⟨n.forget id, f.filter fun s => s.node != id, live_erase hs hn, ?_, ?_⟩
    · rw [Node.forget, Node.fan?_mapFans, hf, Option.map_some]
    · exact SortedSet.mem_filter.2 ⟨ht, by simpa using hne⟩

theorem HasInput.erase (h : HasInput g t) (ht : t.node ≠ id) : HasInput (Graph.erase g id) t := by
  obtain ⟨n, hn, hp⟩ := h
  exact ⟨n.forget id, live_erase ht hn, hp⟩

/-! ## Bypassing -/

theorem mem_leadOn {exits : List Fan} {f : Fan} :
    t ∈ leadOn id exits f ↔ t ∈ f ∨ ∃ port, ⟨id, port⟩ ∈ f ∧ t ∈ exits.getD port ∅ := by
  have hfold : ∀ (ports : List Nat) (f : Fan),
      t ∈ ports.foldl (fun f k => f.union (exits.getD k ∅)) f ↔
        t ∈ f ∨ ∃ port ∈ ports, t ∈ exits.getD port ∅ := by
    intro ports
    induction ports with
    | nil => simp
    | cons k ports ih =>
      intro f
      rw [List.foldl_cons, ih, SortedSet.mem_union]
      simp only [List.mem_cons, exists_eq_or_imp, or_assoc]
  unfold leadOn
  rw [hfold]
  simp only [List.mem_map, List.mem_filter, SortedSet.mem_toList, beq_iff_eq]
  constructor
  · rintro (ht | ⟨port, ⟨s, ⟨hs, rfl⟩, rfl⟩, ht⟩)
    · exact .inl ht
    · exact .inr ⟨s.port, hs, ht⟩
  · rintro (ht | ⟨port, hs, ht⟩)
    · exact .inl ht
    · exact .inr ⟨port, ⟨⟨id, port⟩, ⟨hs, rfl⟩, rfl⟩, ht⟩

/-- What becomes of a fan when node `id`, which is `n`, is bypassed. -/
def detour (id : NodeId) (n : Node) (f : Fan) : Fan :=
  (leadOn id (n.outputs.map fun f => f.filter fun s => s.node != id) f).filter fun s => s.node != id

theorem mem_detour {n : Node} {f : Fan} :
    t ∈ detour id n f ↔ t.node ≠ id ∧
      (t ∈ f ∨ ∃ port exit, ⟨id, port⟩ ∈ f ∧ n.fan? port = some exit ∧ t ∈ exit) := by
  have hexit : ∀ port, t.node ≠ id →
      (t ∈ (n.outputs.map fun f => f.filter fun s => s.node != id).getD port ∅ ↔
        ∃ exit, n.fan? port = some exit ∧ t ∈ exit) := by
    intro port ht
    rw [List.getD_eq_getElem?_getD, List.getElem?_map, Node.fan?]
    cases n.outputs[port]? with
    | none => simp
    | some exit => simp [ht]
  rw [detour, SortedSet.mem_filter, mem_leadOn, and_comm, bne_iff_ne]
  refine and_congr_right fun ht => or_congr_right ?_
  constructor
  · rintro ⟨port, hport, hout⟩
    obtain ⟨exit, hexit, hout⟩ := (hexit port ht).1 hout
    exact ⟨port, exit, hport, hexit, hout⟩
  · rintro ⟨port, exit, hport, hfan, hout⟩
    exact ⟨port, hport, (hexit port ht).2 ⟨exit, hfan, hout⟩⟩

theorem bypass_eq (h : bypass g id = .ok g') :
    ∃ n f, g.get? id = some n ∧ g' = erase (g.map f) id := by
  obtain ⟨n, hn, h⟩ := ok_of_bind h
  cases h
  exact ⟨n, _, find_ok hn, rfl⟩

/-- Only a node that is there can be bypassed.  It is gone afterwards, and all fans are led around
it. -/
theorem get?_bypass (h : bypass g id = .ok g') :
    ∃ n, g.get? id = some n ∧ ∀ k, g'.get? k =
      if id = k then none else (g.get? k).map fun m => m.mapFans (detour id n) := by
  obtain ⟨n, hn, h⟩ := ok_of_bind h
  cases h
  refine ⟨n, find_ok hn, fun k => ?_⟩
  rw [get?_erase, Slots.get?_map, Option.map_map]
  congr 2
  funext m
  simp [Node.forget, Node.mapFans, detour, Function.comp_def]

/-- Around a node that is bypassed everything leads where it led before, or where the node led. -/
theorem leads_bypass (h : bypass g id = .ok g') :
    Leads g' s t ↔ s.node ≠ id ∧ t.node ≠ id ∧ (Leads g s t ∨
      ∃ port, Leads g s ⟨id, port⟩ ∧ Leads g ⟨id, port⟩ t) := by
  obtain ⟨n, hn, hget⟩ := get?_bypass h
  have hthrough : ∀ port, Leads g ⟨id, port⟩ t ↔ ∃ exit, n.fan? port = some exit ∧ t ∈ exit :=
    fun port => leads_of_get? (s := ⟨id, port⟩) hn
  constructor
  · rintro ⟨m', f', hm', hf', ht⟩
    rw [hget] at hm'
    split at hm'
    · cases hm'
    · next hs =>
      obtain ⟨m, hm, rfl⟩ := Option.map_eq_some_iff.1 hm'
      rw [Node.fan?_mapFans, Option.map_eq_some_iff] at hf'
      obtain ⟨f, hf, rfl⟩ := hf'
      obtain ⟨hne, ht | ⟨port, exit, hin, hfan, ht⟩⟩ := mem_detour.1 ht
      · exact ⟨Ne.symm hs, hne, .inl ⟨m, f, hm, hf, ht⟩⟩
      · exact ⟨Ne.symm hs, hne,
          .inr ⟨port, ⟨m, f, hm, hf, hin⟩, (hthrough port).2 ⟨exit, hfan, ht⟩⟩⟩
  · rintro ⟨hs, hne, hold⟩
    obtain ⟨m, f, hm, hf, ht⟩ : ∃ m f, g.get? s.node = some m ∧ m.fan? s.port = some f ∧
        t ∈ detour id n f := by
      rcases hold with ⟨m, f, hm, hf, ht⟩ | ⟨port, ⟨m, f, hm, hf, hin⟩, hout⟩
      · exact ⟨m, f, hm, hf, mem_detour.2 ⟨hne, .inl ht⟩⟩
      · obtain ⟨exit, hfan, ht⟩ := (hthrough port).1 hout
        exact ⟨m, f, hm, hf, mem_detour.2 ⟨hne, .inr ⟨port, exit, hin, hfan, ht⟩⟩⟩
    refine ⟨m.mapFans (detour id n), detour id n f, ?_, ?_, ht⟩
    · rw [hget, if_neg (Ne.symm hs), hm, Option.map_some]
    · rw [Node.fan?_mapFans, hf, Option.map_some]

/-- The nodes around it keep all but their connections. -/
theorem live_bypass (h : bypass g id = .ok g') {k : NodeId} {n : Node} (hk : k ≠ id)
    (hn : g.get? k = some n) :
    ∃ n', g'.get? k = some n' ∧ n'.body = n.body ∧ n'.inputs = n.inputs ∧
      n'.outputs.length = n.outputs.length := by
  obtain ⟨m, -, hget⟩ := get?_bypass h
  refine ⟨n.mapFans (detour id m), ?_, rfl, rfl, List.length_map _⟩
  rw [hget, if_neg (Ne.symm hk), hn, Option.map_some]

end Graph

/-! ## Calls -/

namespace Engine

/-- A connection is refused, or made between visible nodes. -/
theorem connect_cases (e : Engine) (source target : Socket) :
    (∃ err, e.connect source target = (.error err, e)) ∨
      Graph.Visible e.graph source.node ∧ Graph.Visible e.graph target.node ∧
        Graph.HasInput e.graph target ∧
        e.connect source target =
          (.ok (), { e with graph := e.releaded source fun f => f.insert target }) := by
  unfold connect
  cases hs : e.visible source.node with
  | error err => exact .inl ⟨err, rfl⟩
  | ok n =>
    cases ht : e.visible target.node with
    | error err => exact .inl ⟨err, rfl⟩
    | ok m =>
      cases ho : e.onOutput source fun g s => Graph.connect g s target with
      | error err => exact .inl ⟨err, by simp [bind, Except.bind]⟩
      | ok g =>
        obtain ⟨g₁, hc, -⟩ := ok_of_bind ho
        refine .inr ⟨⟨n, get?_of_visible hs⟩, ⟨m, get?_of_visible ht⟩, (Graph.connect_spec hc).2, ?_⟩
        rw [← onOutput_ok (fun _ _ _ => graph_connect_ok) ho]
        simp [bind, Except.bind]

/-- An output is led nowhere, or the call is refused. -/
theorem disconnect_cases (e : Engine) (source : Socket) :
    (∃ err, e.disconnect source = (.error err, e)) ∨
      Graph.Visible e.graph source.node ∧
        e.disconnect source = (.ok (), { e with graph := e.releaded source fun _ => ∅ }) := by
  unfold disconnect
  cases hs : e.visible source.node with
  | error err => exact .inl ⟨err, rfl⟩
  | ok n =>
    cases ho : e.onOutput source fun g s => Graph.disconnect g s with
    | error err => exact .inl ⟨err, by simp [bind, Except.bind]⟩
    | ok g =>
      refine .inr ⟨⟨n, get?_of_visible hs⟩, ?_⟩
      rw [← onOutput_ok (fun _ _ _ => graph_disconnect_ok) ho]
      simp [bind, Except.bind]

end Engine

end PulseFlow
