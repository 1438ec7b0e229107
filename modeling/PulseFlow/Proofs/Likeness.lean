import Mathlib.Data.Set.Function
import PulseFlow.Proofs.Copies

/-!
# Instances are like their templates

A new instance is its template under a renaming of the nodes: placeholders go to placeholders in the
order of the ports, nodes keep their forms, and what leads where in the template leads there in the
live graph (`CopiedIn`, `instantiate_copiedIn`).

The outputs of an instance lead where the reference leads that holds it, so of all its nodes they
alone are not wired as in the template.  The likeness stays as long as the nodes of the instance
keep their forms, and those other than its outputs their connections (`Kept`).
-/

namespace PulseFlow

/-- The same port of another node. -/
def Socket.rename (f : NodeId → NodeId) (s : Socket) : Socket := ⟨f s.node, s.port⟩

namespace Prototype

/-! ## Renaming -/

variable {r : Renaming} {old new : NodeId} {n : Node}

theorem lookup_eq_of_mem (hr : (r.map Prod.fst).Nodup) (h : (old, new) ∈ r) :
    r.lookup old = some new := by
  obtain ⟨new', hnew'⟩ := lookup_of_mem (List.mem_map_of_mem h)
  have hpair : (old, new') = (old, new) :=
    List.inj_on_of_nodup_map hr (mem_of_lookup hnew') h rfl
  cases hpair
  exact hnew'

/-- Two nodes have no copy in common. -/
theorem lookup_injective (hr : (r.map Prod.snd).Nodup) {old' : NodeId}
    (h : r.lookup old = some new) (h' : r.lookup old' = some new) : old = old' := by
  have hpair : (old, new) = (old', new) :=
    List.inj_on_of_nodup_map hr (mem_of_lookup h) (mem_of_lookup h') rfl
  cases hpair
  rfl

theorem mem_renameFan {f : Fan} {s : Socket} :
    s ∈ renameFan r f ↔ ∃ t ∈ f, ∃ new, r.lookup t.node = some new ∧ s = ⟨new, t.port⟩ := by
  rw [renameFan, SortedSet.mem_ofList, List.mem_filterMap]
  simp only [Option.map_eq_some_iff, SortedSet.mem_toList, eq_comm (a := s)]

/-! ## Wiring -/

theorem get?_wireCopies_of_ne {todo : List (NodeId × Node)}
    (h : ∀ q ∈ todo, r.lookup q.1 ≠ some new) (g : Graph) :
    (wireCopies r g todo).get? new = g.get? new := by
  induction todo generalizing g with
  | nil => rfl
  | cons q todo ih =>
    obtain ⟨o, m⟩ := q
    have htodo : ∀ x ∈ todo, r.lookup x.1 ≠ some new := fun x hx =>
      h x (List.mem_cons_of_mem (o, m) hx)
    have ho : r.lookup o ≠ some new := h (o, m) List.mem_cons_self
    rw [wireCopies, List.foldl_cons, ← wireCopies, ih htodo]
    dsimp only
    cases hl : r.lookup o with
    | none => rfl
    | some new' =>
      have hne : new' ≠ new := fun he => ho (he ▸ hl)
      dsimp only
      rw [Slots.get?_modify, if_neg hne]

/-- The copy of a node is wired as the node is. -/
theorem get?_wireCopies (hr : (r.map Prod.snd).Nodup) {todo : List (NodeId × Node)}
    (htodo : (todo.map Prod.fst).Nodup) (hn : (old, n) ∈ todo) (hnew : r.lookup old = some new)
    (g : Graph) :
    (wireCopies r g todo).get? new =
      (g.get? new).map fun c => { c with outputs := n.outputs.map (renameFan r) } := by
  induction todo generalizing g with
  | nil => cases hn
  | cons q todo ih =>
    obtain ⟨o, m⟩ := q
    obtain ⟨ho, htodo⟩ := List.nodup_cons.1 htodo
    -- another node has another copy
    have hother : ∀ x ∈ todo, x.1 ≠ o := fun x hx he => ho (List.mem_map.2 ⟨x, hx, he⟩)
    rw [wireCopies, List.foldl_cons, ← wireCopies]
    dsimp only
    rcases List.mem_cons.1 hn with hn | hn
    · cases hn
      rw [get?_wireCopies_of_ne fun x hx he => hother x hx (lookup_injective hr he hnew), hnew]
      dsimp only
      rw [Slots.get?_modify, if_pos rfl]
    · rw [ih htodo hn]
      cases hl : r.lookup o with
      | none => rfl
      | some new' =>
        have hne : new' ≠ new := by
          rintro rfl
          exact hother _ hn (lookup_injective hr hnew hl)
        dsimp only
        rw [Slots.get?_modify, if_neg hne]

/-! ## Likeness -/

/-- The nodes `f id` make up the instance `i` of `p` in the graph `g`. -/
structure CopiedIn (p : Prototype) (g : Graph) (i : Instance) (f : NodeId → NodeId) : Prop where
  bijOn : Set.BijOn f {id | (p.graph.get? id).isSome = true} {id | id ∈ i.nodes}
  inputs : i.inputs = p.inputs.map f
  outputs : i.outputs = p.outputs.map f
  form : ∀ id n, p.graph.get? id = some n →
    ∃ c, g.get? (f id) = some c ∧ c.key = n.key ∧ n.SameForm c
  leads : ∀ id n port target, p.graph.get? id = some n → id ∉ p.outputs →
    (Graph.Leads g ⟨f id, port⟩ target ↔
      ∃ t, Graph.Leads p.graph ⟨id, port⟩ t ∧ target = t.rename f)

theorem filterMap_lookup_eq {l : List NodeId} {f : NodeId → NodeId}
    (h : ∀ b ∈ l, r.lookup b = some (f b)) : (l.filterMap fun b => r.lookup b) = l.map f := by
  rw [← List.filterMap_eq_map]
  exact List.filterMap_congr fun b hb => h b hb

/-- The node that is the copy of a template node, in an instance made in `g` with the arrays `h`. -/
def copyOf (p : Prototype) (g : Graph) (h : Heap) (old : NodeId) : NodeId :=
  ((copyNodes g h p.graph.entries).1.lookup old).getD 0

section

variable {t : Prototypes} {p : Prototype} {g : Graph} (hg : g.Tidy) (h : Heap)
include hg

theorem lookup_copyOf (hn : p.graph.get? old = some n) :
    (copyNodes g h p.graph.entries).1.lookup old = some (p.copyOf g h old) := by
  have hcopied := copyNodes_copied (fun _ => True) hg h (nodup_map_fst_entries p.graph)
  have hold : old ∈ (copyNodes g h p.graph.entries).1.map Prod.fst := by
    rw [hcopied.keys]
    exact List.mem_map_of_mem (Slots.mem_entries.2 hn)
  obtain ⟨new, hnew⟩ := lookup_of_mem hold
  rw [copyOf, hnew]
  rfl

/-- The copy of a node has its form, and its fans are led to copies. -/
theorem get?_copyOf (id : Nat) (hn : p.graph.get? old = some n) :
    ∃ c, (p.instantiate id g h).2.1.get? (p.copyOf g h old) = some c ∧ n.SameForm c ∧
      c.outputs = n.outputs.map (renameFan (copyNodes g h p.graph.entries).1) := by
  have hes := nodup_map_fst_entries p.graph
  have hcopied := copyNodes_copied (fun _ => True) hg h hes
  have hentry := Slots.mem_entries.2 hn
  have hnew := lookup_copyOf hg h hn
  obtain ⟨c, hc, hcopy, -⟩ := hcopied.copy old n hentry _ (mem_of_lookup hnew)
  refine ⟨_, ?_, (hcopy.rewire (renameFan _)).sameForm, rfl⟩
  rw [instantiate, get?_wireCopies hcopied.nodup hes hentry hnew, hc, Option.map_some]

/-- Copies lead to the copies of what the nodes of the template lead to. -/
theorem leads_copyOf (hplugged : Graph.Plugged p.graph) (id : Nat)
    (hn : p.graph.get? old = some n) (port : Nat) (target : Socket) :
    Graph.Leads (p.instantiate id g h).2.1 ⟨p.copyOf g h old, port⟩ target ↔
      ∃ t, Graph.Leads p.graph ⟨old, port⟩ t ∧ target = t.rename (p.copyOf g h) := by
  obtain ⟨c, hc, -, hout⟩ := get?_copyOf hg h id hn
  rw [Graph.leads_of_get? (s := ⟨p.copyOf g h old, port⟩) hc]
  simp only [Graph.leads_of_get? (s := ⟨old, port⟩) hn]
  simp only [Node.fan?, hout, List.getElem?_map, Option.map_eq_some_iff]
  constructor
  · rintro ⟨-, ⟨fan, hfan, rfl⟩, ht⟩
    obtain ⟨s, hs, new, hnew, rfl⟩ := mem_renameFan.1 ht
    refine ⟨s, ⟨fan, hfan, hs⟩, ?_⟩
    simp [Socket.rename, copyOf, hnew]
  · rintro ⟨s, ⟨fan, hfan, hs⟩, rfl⟩
    refine ⟨_, ⟨fan, hfan, rfl⟩, mem_renameFan.2 ⟨s, hs, p.copyOf g h s.node, ?_, rfl⟩⟩
    obtain ⟨m, hm, -⟩ := hplugged ⟨old, port⟩ s ((Graph.leads_of_get? hn).2 ⟨fan, hfan, hs⟩)
    exact lookup_copyOf hg h hm

/-- The nodes of an instance are the copies of those of its template, one of each. -/
theorem bijOn_copyOf (id : Nat) :
    Set.BijOn (p.copyOf g h) {old | (p.graph.get? old).isSome = true}
      {new | new ∈ (p.instantiate id g h).1.nodes} := by
  have hes := nodup_map_fst_entries p.graph
  have hcopied := copyNodes_copied (fun _ => True) hg h hes
  have hnodes : ∀ k, k ∈ (p.instantiate id g h).1.nodes ↔
      k ∈ (copyNodes g h p.graph.entries).1.map Prod.snd := fun k => SortedSet.mem_ofList
  refine ⟨fun old hold => ?_, fun old hold old' hold' he => ?_, fun k hk => ?_⟩
  · obtain ⟨n, hn⟩ := Option.isSome_iff_exists.1 hold
    exact (hnodes _).2 (List.mem_map_of_mem (mem_of_lookup (lookup_copyOf hg h hn)))
  · obtain ⟨n, hn⟩ := Option.isSome_iff_exists.1 hold
    obtain ⟨n', hn'⟩ := Option.isSome_iff_exists.1 hold'
    exact lookup_injective hcopied.nodup (lookup_copyOf hg h hn)
      (he ▸ lookup_copyOf hg h hn')
  · obtain ⟨⟨old, new⟩, hq, rfl⟩ := List.mem_map.1 ((hnodes k).1 hk)
    have hkeys : ((copyNodes g h p.graph.entries).1.map Prod.fst).Nodup := hcopied.keys ▸ hes
    have hold : old ∈ p.graph.entries.map Prod.fst := hcopied.keys ▸ List.mem_map_of_mem hq
    obtain ⟨⟨old', n⟩, hn, rfl⟩ := List.mem_map.1 hold
    refine ⟨old', Option.isSome_iff_exists.2 ⟨n, Slots.mem_entries.1 hn⟩, ?_⟩
    simp [copyOf, lookup_eq_of_mem hkeys hq]

/-- A new instance is wired as its template, its outputs included. -/
theorem instantiate_copyOf (hp : p.WellMade t) (hplugged : Graph.Plugged p.graph) (id : Nat) :
    p.CopiedIn (p.instantiate id g h).2.1 (p.instantiate id g h).1 (p.copyOf g h) ∧
      ∀ old n port target, p.graph.get? old = some n →
        (Graph.Leads (p.instantiate id g h).2.1 ⟨p.copyOf g h old, port⟩ target ↔
          ∃ t, Graph.Leads p.graph ⟨old, port⟩ t ∧ target = t.rename (p.copyOf g h)) := by
  have hleads := fun old n port target (hn : p.graph.get? old = some n) =>
    leads_copyOf hg h hplugged id hn port target
  refine ⟨⟨bijOn_copyOf hg h id, ?_, ?_, fun old n hn => ?_, ?_⟩, hleads⟩
  · refine filterMap_lookup_eq fun b hb => ?_
    obtain ⟨n, hn⟩ := hp.inputs b hb
    exact lookup_copyOf hg h hn
  · refine filterMap_lookup_eq fun b hb => ?_
    obtain ⟨n, hn, -⟩ := hp.outputs b hb
    exact lookup_copyOf hg h hn
  · obtain ⟨c, hc, hform, -⟩ := get?_copyOf hg h id hn
    exact ⟨c, hc, hform.key, hform⟩
  · exact fun old n port target hn _ => hleads old n port target hn

end

theorem instantiate_copiedIn {t : Prototypes} {p : Prototype} {g : Graph} (hg : g.Tidy)
    (hp : p.WellMade t) (hplugged : Graph.Plugged p.graph) (id : Nat) (h : Heap) :
    ∃ f, p.CopiedIn (p.instantiate id g h).2.1 (p.instantiate id g h).1 f ∧
      ∀ old n port target, p.graph.get? old = some n →
        (Graph.Leads (p.instantiate id g h).2.1 ⟨f old, port⟩ target ↔
          ∃ t, Graph.Leads p.graph ⟨old, port⟩ t ∧ target = t.rename f) :=
  ⟨p.copyOf g h, instantiate_copyOf hg h hp hplugged id⟩

end Prototype

/-! ## What keeps the likeness -/

/-- The nodes of an instance are still there with their forms, those that are not its outputs with
their connections. -/
def Instance.Kept (g g' : Graph) (i : Instance) : Prop :=
  ∀ m ∈ i.nodes, ∀ c, g.get? m = some c →
    ∃ c', g'.get? m = some c' ∧ c.SameForm c' ∧ (m ∉ i.outputs → c'.outputs = c.outputs)

namespace Instance.Kept

variable {g g' g'' : Graph} {i : Instance}

theorem refl (g : Graph) (i : Instance) : i.Kept g g := fun _ _ c hc =>
  ⟨c, hc, .refl c, fun _ => rfl⟩

theorem of_eq (h : ∀ m ∈ i.nodes, g'.get? m = g.get? m) : i.Kept g g' := fun m hm c hc =>
  ⟨c, (h m hm).trans hc, .refl c, fun _ => rfl⟩

theorem trans (h : i.Kept g g') (h' : i.Kept g' g'') : i.Kept g g'' := by
  intro m hm c hc
  obtain ⟨c', hc', hform, hout⟩ := h m hm c hc
  obtain ⟨c'', hc'', hform', hout'⟩ := h' m hm c' hc'
  exact ⟨c'', hc'', hform.trans hform', fun ho => (hout' ho).trans (hout ho)⟩

end Instance.Kept

namespace Prototype.CopiedIn

variable {p q : Prototype} {g g' : Graph} {i : Instance} {f : NodeId → NodeId}

theorem of_kept {t : Prototypes} (h : p.CopiedIn g i f) (hp : p.WellMade t) (hk : i.Kept g g') :
    p.CopiedIn g' i f where
  bijOn := h.bijOn
  inputs := h.inputs
  outputs := h.outputs
  form := by
    intro id n hn
    obtain ⟨c, hc, -, hform⟩ := h.form id n hn
    have hid := h.bijOn.mapsTo (Option.isSome_iff_exists.2 ⟨n, hn⟩)
    obtain ⟨c', hc', hform', -⟩ := hk (f id) hid c hc
    exact ⟨c', hc', (hform.trans hform').key, hform.trans hform'⟩
  leads := by
    intro id n port target hn hid
    rw [← h.leads id n port target hn hid]
    have hin : (p.graph.get? id).isSome = true := Option.isSome_iff_exists.2 ⟨n, hn⟩
    -- only outputs of the template become outputs of the instance
    have hout : f id ∉ i.outputs := by
      rw [h.outputs]
      intro hm
      obtain ⟨b, hb, hfb⟩ := List.mem_map.1 hm
      obtain ⟨m, hm, -⟩ := hp.outputs b hb
      have hbid := h.bijOn.injOn (Option.isSome_iff_exists.2 ⟨m, hm⟩) hin hfb
      exact hid (hbid ▸ hb)
    obtain ⟨c, hc, -⟩ := h.form id n hn
    obtain ⟨c', hc', -, ho⟩ := hk (f id) (h.bijOn.mapsTo hin) c hc
    exact Graph.leads_congr (s := ⟨f id, port⟩) hc hc' (ho hout)

/-- The likeness depends on the template and the placeholders only. -/
theorem congr (h : p.CopiedIn g i f) (hg : q.graph = p.graph) (hi : q.inputs = p.inputs)
    (ho : q.outputs = p.outputs) : q.CopiedIn g i f := by
  obtain ⟨h₁, h₂, h₃, h₄, h₅⟩ := h
  rw [← hg] at h₁ h₄ h₅
  rw [← hi] at h₂
  rw [← ho] at h₃ h₅
  exact ⟨h₁, h₂, h₃, h₄, h₅⟩

end Prototype.CopiedIn

end PulseFlow
