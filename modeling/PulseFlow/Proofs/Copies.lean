import PulseFlow.Proofs.Forms
import PulseFlow.Proofs.Sound

/-!
# Copies of templates

An instance is made of one copy of each template node.  The copies take numbers that were not in use,
hold no signals, are bound to nothing, and lead only to one another; the rest of the graph stays as
it was (`Made`, `instantiate_made`).
-/

namespace PulseFlow

/-! ## Copies of single nodes -/

/-- A copy of a template node inside an instance. -/
structure Node.CopyOf (n c : Node) : Prop where
  inputs : c.inputs = List.replicate n.inputs.length none
  outputs : c.outputs.length = n.outputs.length
  scheduled : c.scheduled = false
  internal : c.internal = true
  body : (∃ l l', n.body = .native l ∧ c.body = .native l' ∧ l.SameKind l') ∨
    ∃ k b, n.body = .reference k b ∧ c.body = .reference k none

namespace Node

variable {n c : Node}

theorem copyOf_duplicate (n : Node) (h : Heap) : n.CopyOf (n.duplicate h).1 := by
  refine ⟨rfl, List.length_replicate, rfl, rfl, ?_⟩
  show (∃ l l', n.body = .native l ∧ (n.body.duplicate h).1 = .native l' ∧ l.SameKind l') ∨
    ∃ k b, n.body = .reference k b ∧ (n.body.duplicate h).1 = .reference k none
  cases hb : n.body with
  | native l => exact .inl ⟨l, _, rfl, rfl, l.sameKind_duplicate h⟩
  | reference k b => exact .inr ⟨k, b, rfl, rfl⟩

theorem leadsTo_duplicate (P : NodeId → Prop) (n : Node) (h : Heap) :
    (n.duplicate h).1.LeadsTo P := by
  intro f hf s hs
  obtain ⟨-, rfl⟩ := List.mem_replicate.1 (show f ∈ List.replicate n.outputs.length ∅ from hf)
  exact absurd hs (SortedSet.not_mem_empty s)

namespace CopyOf

theorem instance? (h : n.CopyOf c) : c.instance? = none := by
  rcases h.body with ⟨l, l', -, hb, -⟩ | ⟨k, b, -, hb⟩
  · exact instance?_of_native hb
  · exact instance?_of_reference hb

theorem empty (h : n.CopyOf c) : ∀ s ∈ c.inputs, s = none := by
  intro s hs
  rw [h.inputs] at hs
  exact (List.mem_replicate.1 hs).2

theorem ready (h : n.CopyOf c) : c.ready = false := by
  rw [Node.ready, h.inputs]
  cases n.inputs.length with
  | zero => rfl
  | succ k => simp [List.replicate_succ]

theorem placeholder (h : n.CopyOf c) (hp : n.IsPlaceholder) : c.IsPlaceholder := by
  obtain ⟨⟨l, hl⟩, ho⟩ := hp
  rcases h.body with ⟨-, l', -, hb, -⟩ | ⟨k, b, hb, -⟩
  · exact ⟨⟨l', hb⟩, h.outputs.trans ho⟩
  · rw [hl] at hb
    cases hb

theorem registered {t : Prototypes} (h : n.CopyOf c) (hr : n.Registered t) : c.Registered t := by
  rcases h.body with ⟨l, l', -, hb, -⟩ | ⟨k, b, hb, hb'⟩
  · exact registered_native hb
  · intro k' b' hk
    rw [hb'] at hk
    cases hk
    rw [h.outputs, h.inputs, List.length_replicate]
    exact hr k b hb

theorem sameForm (h : n.CopyOf c) : n.SameForm c where
  body := by
    rcases h.body with ⟨l, l', hb, hb', hl⟩ | ⟨k, b, hb, hb'⟩
    · rw [hb, hb']
      exact .native hl
    · rw [hb, hb']
      exact .reference k b none
  inputs := by rw [h.inputs, List.length_replicate]
  outputs := h.outputs

/-- Leading the outputs of a copy elsewhere leaves it a copy. -/
theorem rewire (h : n.CopyOf c) (f : Fan → Fan) :
    n.CopyOf { c with outputs := n.outputs.map f } :=
  ⟨h.inputs, List.length_map f, h.scheduled, h.internal, h.body⟩

end CopyOf

end Node

/-! ## Copies of a list of nodes -/

namespace Prototype

/-- `r` gives the nodes `es` of a template copies in `g'`, which was `g` before; the copies lead to
nodes of which `P` holds. -/
structure Copied (P : NodeId → Prop) (g g' : Graph) (es : List (NodeId × Node)) (r : Renaming) :
    Prop where
  tidy : g'.Tidy
  keys : r.map Prod.fst = es.map Prod.fst
  nodup : (r.map Prod.snd).Nodup
  fresh : ∀ k ∈ r.map Prod.snd, g.get? k = none
  keep : ∀ k, k ∉ r.map Prod.snd → g'.get? k = g.get? k
  copy : ∀ old n, (old, n) ∈ es → ∀ new, (old, new) ∈ r →
    ∃ c, g'.get? new = some c ∧ n.CopyOf c ∧ c.LeadsTo P

theorem copyNodes_copied (P : NodeId → Prop) {g : Graph} (hg : g.Tidy) (h : Heap)
    {es : List (NodeId × Node)} (hes : (es.map Prod.fst).Nodup) :
    Copied P g (copyNodes g h es).2.1 es (copyNodes g h es).1 := by
  induction es generalizing g h with
  | nil => exact ⟨hg, rfl, List.nodup_nil, by simp [copyNodes], fun _ _ => rfl, by simp⟩
  | cons entry es ih =>
    obtain ⟨old, n⟩ := entry
    obtain ⟨hold, hes⟩ := List.nodup_cons.1 hes
    let c := (n.duplicate h).1
    have htidy := Slots.tidy_add hg c
    have hrest := ih htidy (n.duplicate h).2 hes
    have hself : (g.add c).2.get? (g.add c).1 = some c := Slots.get?_add_self hg c
    show Copied P g (copyNodes (g.add c).2 (n.duplicate h).2 es).2.1 ((old, n) :: es)
      ((old, (g.add c).1) :: (copyNodes (g.add c).2 (n.duplicate h).2 es).1)
    generalize copyNodes (g.add c).2 (n.duplicate h).2 es = result at hrest
    obtain ⟨r, g', h'⟩ := result
    -- the number just taken is in use, so it is not taken again
    have hnot : (g.add c).1 ∉ r.map Prod.snd := by
      intro hm
      have := hrest.fresh _ hm
      rw [hself] at this
      cases this
    refine ⟨hrest.tidy, ?_, List.nodup_cons.2 ⟨hnot, hrest.nodup⟩, ?_, ?_, ?_⟩
    · exact congrArg (old :: ·) hrest.keys
    · intro k hk
      rcases List.mem_cons.1 hk with rfl | hk
      · exact Slots.get?_add_fst hg c
      · have hne : (g.add c).1 ≠ k := fun he => hnot (he ▸ hk)
        rw [← Slots.get?_add_of_ne hg c hne]
        exact hrest.fresh k hk
    · intro k hk
      rw [List.map_cons, List.mem_cons, not_or] at hk
      have hne : (g.add c).1 ≠ k := fun he => hk.1 he.symm
      rw [hrest.keep k hk.2, Slots.get?_add_of_ne hg c hne]
    · intro old' m hm new hnew
      have hkeys : r.map Prod.fst = es.map Prod.fst := hrest.keys
      rcases List.mem_cons.1 hm with hm | hm
      · cases hm
        rcases List.mem_cons.1 hnew with hnew | hnew
        · cases hnew
          exact ⟨c, (hrest.keep _ hnot).trans hself, n.copyOf_duplicate h, n.leadsTo_duplicate P h⟩
        · exact absurd (hkeys ▸ List.mem_map_of_mem hnew) hold
      · rcases List.mem_cons.1 hnew with hnew | hnew
        · cases hnew
          exact absurd (List.mem_map_of_mem hm) hold
        · exact hrest.copy old' m hm new hnew

theorem mem_of_lookup {r : Renaming} {old new : NodeId} (h : r.lookup old = some new) :
    (old, new) ∈ r := by
  obtain ⟨l, l', hl, -⟩ := List.lookup_eq_some_iff.1 h
  rw [hl]
  exact List.mem_append_right _ List.mem_cons_self

theorem lookup_of_mem {r : Renaming} {old : NodeId} (h : old ∈ r.map Prod.fst) :
    ∃ new, r.lookup old = some new := by
  obtain ⟨q, hq, hold⟩ := List.mem_map.1 h
  exact Option.isSome_iff_exists.1 (List.lookup_isSome_iff.2 ⟨q, hq, beq_iff_eq.2 hold.symm⟩)

/-- A renamed fan leads to copies. -/
theorem node_mem_of_mem_renameFan {r : Renaming} {f : Fan} {s : Socket} (h : s ∈ renameFan r f) :
    s.node ∈ r.map Prod.snd := by
  rw [renameFan, SortedSet.mem_ofList, List.mem_filterMap] at h
  obtain ⟨s', -, hs'⟩ := h
  rw [Option.map_eq_some_iff] at hs'
  obtain ⟨new, hnew, rfl⟩ := hs'
  exact List.mem_map_of_mem (mem_of_lookup hnew)

theorem Copied.wire {g g' : Graph} {es : List (NodeId × Node)} {r : Renaming}
    (h : Copied (· ∈ r.map Prod.snd) g g' es r) (hes : (es.map Prod.fst).Nodup)
    {old new : NodeId} {n : Node} (hn : (old, n) ∈ es) (hnew : (old, new) ∈ r) :
    Copied (· ∈ r.map Prod.snd) g
      (g'.modify new fun copy => { copy with outputs := n.outputs.map (renameFan r) }) es r := by
  refine ⟨Slots.tidy_modify h.tidy new _, h.keys, h.nodup, h.fresh, ?_, ?_⟩
  · intro k hk
    have hne : new ≠ k := fun he => hk (he ▸ List.mem_map_of_mem hnew)
    rw [Slots.get?_modify, if_neg hne]
    exact h.keep k hk
  · intro old' m hm new' hnew'
    obtain ⟨c, hc, hcopy, hleads⟩ := h.copy old' m hm new' hnew'
    rw [Slots.get?_modify]
    by_cases hne : new = new'
    · -- the copy belongs to one template node only
      have hpair : (old', new') = (old, new) :=
        List.inj_on_of_nodup_map h.nodup hnew' hnew hne.symm
      cases hpair
      have hentry : (old, m) = (old, n) := List.inj_on_of_nodup_map hes hm hn rfl
      cases hentry
      refine ⟨_, by rw [if_pos rfl, hc, Option.map_some], hcopy.rewire (renameFan r), ?_⟩
      intro f hf s hs
      obtain ⟨f', -, rfl⟩ := List.mem_map.1 hf
      exact node_mem_of_mem_renameFan hs
    · exact ⟨c, by rw [if_neg hne, hc], hcopy, hleads⟩

theorem wireCopies_copied {g g' : Graph} {es : List (NodeId × Node)} {r : Renaming}
    (h : Copied (· ∈ r.map Prod.snd) g g' es r) (hes : (es.map Prod.fst).Nodup)
    {todo : List (NodeId × Node)} (htodo : ∀ q ∈ todo, q ∈ es) :
    Copied (· ∈ r.map Prod.snd) g (wireCopies r g' todo) es r := by
  induction todo generalizing g' with
  | nil => exact h
  | cons entry todo ih =>
    obtain ⟨old, n⟩ := entry
    have hn := htodo _ List.mem_cons_self
    have htodo' : ∀ q ∈ todo, q ∈ es := fun q hq => htodo q (List.mem_cons_of_mem _ hq)
    rw [wireCopies, List.foldl_cons]
    dsimp only
    cases hl : r.lookup old with
    | none => exact ih h htodo'
    | some new => exact ih (h.wire hes hn (mem_of_lookup hl)) htodo'

/-! ## Instances -/

/-- A new instance of a template, in a graph that was `g` before. -/
structure Made (p : Prototype) (g g' : Graph) (i : Instance) : Prop where
  tidy : g'.Tidy
  current : i.revision = p.revision
  inputs : i.inputs.length = p.inputs.length
  outputs : i.outputs.length = p.outputs.length
  nodup : i.nodes.Nodup
  single : i.outputs.Nodup
  boundary : ∀ id, id ∈ i.inputs ∨ id ∈ i.outputs → id ∈ i.nodes
  fresh : ∀ k ∈ i.nodes, g.get? k = none
  keep : ∀ k, k ∉ i.nodes → g'.get? k = g.get? k
  copy : ∀ k ∈ i.nodes, ∃ old n c, p.graph.get? old = some n ∧ g'.get? k = some c ∧ n.CopyOf c ∧
    c.LeadsTo (· ∈ i.nodes)
  placeholder : ∀ o ∈ i.outputs, ∀ c, g'.get? o = some c → c.IsPlaceholder

theorem nodup_map_fst_entries {α : Type} (s : Slots α) : (s.entries.map Prod.fst).Nodup := by
  have hsub : (s.entries.map Prod.fst).Sublist (List.range s.cells.size) := by
    unfold Slots.entries
    generalize List.range s.cells.size = l
    induction l with
    | nil => exact List.Sublist.refl _
    | cons k l ih =>
      cases hk : s.get? k with
      | none =>
        rw [List.filterMap_cons_none (by rw [hk]; rfl)]
        exact ih.cons k
      | some a =>
        rw [List.filterMap_cons_some (by rw [hk]; rfl)]
        exact ih.cons_cons k
  exact hsub.nodup List.nodup_range

/-- Every template node has its copy, so looking up placeholders loses none. -/
theorem length_filterMap_lookup {r : Renaming} {l : List NodeId}
    (h : ∀ b ∈ l, b ∈ r.map Prod.fst) : (l.filterMap fun b => r.lookup b).length = l.length := by
  induction l with
  | nil => rfl
  | cons b l ih =>
    obtain ⟨new, hnew⟩ := lookup_of_mem (h b List.mem_cons_self)
    have hstep : ((b :: l).filterMap fun b => r.lookup b) =
        new :: l.filterMap fun b => r.lookup b := by
      simp only [List.filterMap_cons, hnew]
    rw [hstep, List.length_cons, List.length_cons,
      ih fun x hx => h x (List.mem_cons_of_mem b hx)]

theorem nodup_filterMap_lookup {r : Renaming} (hr : (r.map Prod.snd).Nodup) {l : List NodeId}
    (hl : l.Nodup) : (l.filterMap fun b => r.lookup b).Nodup := by
  refine hl.filterMap fun a b x ha hb => ?_
  have hpair : (a, x) = (b, x) :=
    List.inj_on_of_nodup_map hr (mem_of_lookup ha) (mem_of_lookup hb) rfl
  cases hpair
  rfl

theorem instantiate_made {t : Prototypes} {p : Prototype} {g : Graph} (hg : g.Tidy)
    (hp : p.WellMade t) (id : Nat) (h : Heap) :
    Made p g (p.instantiate id g h).2.1 (p.instantiate id g h).1 := by
  have hes := nodup_map_fst_entries p.graph
  have hr : ∀ b n, p.graph.get? b = some n → b ∈ (p.graph.entries.map Prod.fst) := fun b n hn =>
    List.mem_map_of_mem (Slots.mem_entries.2 hn)
  have hcopied := copyNodes_copied (· ∈ (copyNodes g h p.graph.entries).1.map Prod.snd) hg h hes
  unfold instantiate
  dsimp only
  generalize copyNodes g h p.graph.entries = result at hcopied ⊢
  obtain ⟨r, g', h'⟩ := result
  have hwired := wireCopies_copied hcopied hes fun q hq => hq
  dsimp only at hwired ⊢
  generalize wireCopies r g' p.graph.entries = g'' at hwired ⊢
  rw [← hwired.keys] at hr
  have hmem : ∀ k, k ∈ (SortedSet.ofList (r.map Prod.snd)).toList ↔ k ∈ r.map Prod.snd := fun k =>
    SortedSet.mem_ofList
  -- what is found at the copy of a placeholder
  have hout : ∀ o ∈ p.outputs.filterMap fun b => r.lookup b,
      ∃ b n, (b, o) ∈ r ∧ p.graph.get? b = some n ∧ n.IsPlaceholder := by
    intro o ho
    obtain ⟨b, hb, hlook⟩ := List.mem_filterMap.1 ho
    obtain ⟨n, hn, hpl⟩ := hp.outputs b hb
    exact ⟨b, n, mem_of_lookup hlook, hn, hpl⟩
  constructor
  · exact hwired.tidy
  · rfl
  · refine length_filterMap_lookup fun b hb => ?_
    obtain ⟨n, hn⟩ := hp.inputs b hb
    exact hr b n hn
  · refine length_filterMap_lookup fun b hb => ?_
    obtain ⟨n, hn, -⟩ := hp.outputs b hb
    exact hr b n hn
  · exact (SortedSet.ofList (r.map Prod.snd)).increasing.nodup
  · exact nodup_filterMap_lookup hwired.nodup hp.single
  · rintro k (hk | hk)
    · obtain ⟨b, -, hlook⟩ := List.mem_filterMap.1 hk
      exact (hmem k).2 (List.mem_map_of_mem (mem_of_lookup hlook))
    · obtain ⟨b, -, hbk, -⟩ := hout k hk
      exact (hmem k).2 (List.mem_map_of_mem hbk)
  · exact fun k hk => hwired.fresh k ((hmem k).1 hk)
  · exact fun k hk => hwired.keep k fun hk' => hk ((hmem k).2 hk')
  · intro k hk
    obtain ⟨⟨old, new⟩, hq, rfl⟩ := List.mem_map.1 ((hmem k).1 hk)
    have hold : old ∈ p.graph.entries.map Prod.fst := hwired.keys ▸ List.mem_map_of_mem hq
    obtain ⟨⟨old', n⟩, hn, rfl⟩ := List.mem_map.1 hold
    obtain ⟨c, hc, hcopy, hleads⟩ := hwired.copy old' n hn new hq
    exact ⟨old', n, c, Slots.mem_entries.1 hn, hc, hcopy, hleads.imp fun x hx => (hmem x).2 hx⟩
  · intro o ho c hc
    obtain ⟨b, n, hbo, hn, hpl⟩ := hout o ho
    obtain ⟨c', hc', hcopy, -⟩ := hwired.copy b n (Slots.mem_entries.2 hn) o hbo
    have hcc : c' = c := Option.some.inj (hc'.symm.trans hc)
    exact hcc ▸ hcopy.placeholder hpl

end Prototype

end PulseFlow
