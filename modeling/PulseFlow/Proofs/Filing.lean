import PulseFlow.Proofs.Drawings

/-!
# Nodes known by their names

A document names the nodes of a template, so a template can be saved only if the names say it all.
A logic in the catalog can be found under its own key, whatever key it was asked for by.  Where the
nodes of templates come from the catalog, are constants or stand for prototypes, it stays so
(`Change.filed`).

    Catalog.standard.SelfNamed                                        (selfNamed_standard)
-/

namespace PulseFlow

/-! ## Tables from lists -/

namespace Table

open Std

variable {κ α : Type} [Ord κ] [TransOrd κ] [LawfulEqOrd κ] [DecidableEq κ] {k : κ} {a : α}
  {l : List (κ × α)}

theorem mem_of_get?_foldl {t : Table κ α}
    (h : (l.foldl (fun t e => t.insert e.1 e.2) t).get? k = some a) :
    (k, a) ∈ l ∨ t.get? k = some a := by
  induction l generalizing t with
  | nil => exact .inr h
  | cons e l ih =>
    rcases ih h with hl | ht
    · exact .inl (List.mem_cons_of_mem e hl)
    · rw [get?_insert] at ht
      split at ht
      · next hk =>
        cases ht
        exact .inl (hk ▸ List.mem_cons_self)
      · exact .inr ht

/-- Only what is in the list can be found. -/
theorem mem_of_get?_ofList (h : (ofList l).get? k = some a) : (k, a) ∈ l := by
  rcases mem_of_get?_foldl h with hl | ht
  · exact hl
  · rw [get?_empty] at ht
    cases ht

/-- All that is in the list can be found if no key is there twice. -/
theorem get?_ofList_of_mem (hn : (l.map Prod.fst).Nodup) (h : (k, a) ∈ l) :
    (ofList l).get? k = some a := by
  have hkeep : ∀ (l : List (κ × α)) (t : Table κ α), k ∉ l.map Prod.fst →
      (l.foldl (fun t e => t.insert e.1 e.2) t).get? k = t.get? k := by
    intro l
    induction l with
    | nil => exact fun _ _ => rfl
    | cons e l ih =>
      intro t hk
      rw [List.map_cons, List.mem_cons, not_or] at hk
      rw [List.foldl_cons, ih _ hk.2, get?_insert, if_neg hk.1]
  unfold ofList
  generalize (∅ : Table κ α) = t
  induction l generalizing t with
  | nil => cases h
  | cons e l ih =>
    obtain ⟨he, hn⟩ := List.nodup_cons.1 hn
    rw [List.foldl_cons]
    rcases List.mem_cons.1 h with rfl | h
    · rw [hkeep l _ he, get?_insert_self]
    · exact ih hn h _

end Table

/-! ## The catalog -/

namespace Catalog

/-- Each logic is filed under its own key, too. -/
def SelfNamed (c : Catalog) : Prop := ∀ k l, c.get? k = some l → c.get? l.key = some l

/-- The built-in logics are found under their keys. -/
theorem get?_standard {l : Logic} (h : l ∈ builtins) : standard.get? l.key = some l := by
  have hnodup : ((builtins.map fun l => (l.key, l)) ++
      [((⟨"Array", "[]"⟩ : Key), Logic.array .index)]).map Prod.fst |>.Nodup := by
    decide +kernel
  exact Table.get?_ofList_of_mem hnodup (List.mem_append_left _ (List.mem_map_of_mem h))

theorem selfNamed_standard : standard.SelfNamed := by
  intro k l hl
  have hbuiltin : l ∈ builtins := by
    rcases List.mem_append.1 (Table.mem_of_get?_ofList hl) with hm | hm
    · obtain ⟨l', hl', he⟩ := List.mem_map.1 hm
      cases he
      exact hl'
    · -- brackets are a second name of a logic that is there anyway
      cases List.mem_singleton.1 hm
      simp [builtins, ArrayAction.all]
  exact get?_standard hbuiltin

theorem SelfNamed.insert {c : Catalog} (h : c.SelfNamed) {l : Logic} (hl : c.get? l.key = none) :
    SelfNamed (Table.insert c l.key l) := by
  intro k l' hl'
  rw [Table.get?_insert] at hl' ⊢
  split at hl'
  · cases hl'
    rw [if_pos rfl]
  · have hself := h k l' hl'
    have hne : l'.key ≠ l.key := fun he => by
      rw [he, hl] at hself
      cases hself
    rw [if_neg hne]
    exact hself

end Catalog

/-! ## Templates -/

/-- A node that its name describes, or the value of a constant. -/
def Node.Filed (c : Catalog) (n : Node) : Prop :=
  ∀ l, n.body = .native l → n.inputs.length = l.inputs ∧ n.outputs.length = l.outputs ∧
    ((∃ v, l = .constant v) ∨ c.get? l.key = some l)

theorem Node.Filed.native {c : Catalog} {l : Logic}
    (h : (∃ v, l = .constant v) ∨ c.get? l.key = some l) : (Node.native l).Filed c := by
  intro l' hl'
  cases hl'
  exact ⟨List.length_replicate, List.length_replicate, h⟩

/-- The placeholders need no names. -/
def Prototype.Filed (c : Catalog) (p : Prototype) : Prop :=
  ∀ id n, p.graph.get? id = some n → p.isBoundary id = false → n.Filed c

namespace Prototype.Filed

variable {c : Catalog} {p q : Prototype}

/-- Being filed depends on the template and the placeholders only. -/
theorem congr (h : p.Filed c) (hg : q.graph = p.graph) (hi : q.inputs = p.inputs)
    (ho : q.outputs = p.outputs) : q.Filed c := by
  intro id n hn hb
  rw [hg] at hn
  rw [isBoundary, hi, ho] at hb
  exact h id n hn hb

theorem of_bare (h : p.Filed c) (hb : q.bare = p.bare) : q.Filed c := by
  have hg : q.bare.graph = p.bare.graph := by rw [hb]
  have hi : q.bare.inputs = p.bare.inputs := by rw [hb]
  have ho : q.bare.outputs = p.bare.outputs := by rw [hb]
  exact h.congr hg hi ho

/-- Another template with the same placeholders whose nodes were there before but for their
connections. -/
theorem redraw (h : p.Filed c) (hi : q.inputs = p.inputs) (ho : q.outputs = p.outputs)
    (hrow : ∀ id n', q.graph.get? id = some n' → ∃ n, p.graph.get? id = some n ∧
      n'.body = n.body ∧ n'.inputs = n.inputs ∧ n'.outputs.length = n.outputs.length) :
    q.Filed c := by
  intro id n' hn' hb l hl
  obtain ⟨n, hn, hbody, hin, hout⟩ := hrow id n' hn'
  rw [isBoundary, hi, ho] at hb
  rw [hin, hout]
  exact h id n hn hb l (hbody ▸ hl)

theorem mono {c' : Catalog} (h : p.Filed c) (hc : ∀ k l, c.get? k = some l → c'.get? k = some l) :
    p.Filed c' := by
  intro id n hn hb l hl
  obtain ⟨hin, hout, hname⟩ := h id n hn hb l hl
  exact ⟨hin, hout, hname.imp_right (hc l.key l)⟩

end Prototype.Filed

theorem Prototype.Declared.filed {p : Prototype} (h : p.Declared) (c : Catalog) : p.Filed c := by
  intro id n hn hb
  have hmem := ((h.node id n).1 hn).1
  simp [isBoundary] at hb
  exact absurd hmem (by simp [hb])

/-! ## Actions on a draft -/

namespace Draft

variable {r : Registry} {d d' : Draft}

theorem addNode_filed (hm : d.prototype.WellMade r.prototypes) (h : d.prototype.Filed r.catalog)
    {n : Node} (hn : n.Filed r.catalog) : (d.addNode n).2.prototype.Filed r.catalog := by
  intro id m hm' hb
  have hget : (d.prototype.graph.add n).2.get? id = some m := hm'
  rw [Slots.get?_add hm.tidy] at hget
  split at hget
  · cases hget
    exact hn
  · exact h id m hget hb

theorem makeNode_filed (hc : r.catalog.SelfNamed) {key : Key} {heap heap' : Heap} {n : Node}
    (hn : r.makeNode key heap = .ok (n, heap')) : n.Filed r.catalog := by
  unfold Registry.makeNode at hn
  split at hn
  · next l heap hl =>
    cases hn
    obtain ⟨l₀, hl₀, hdup⟩ := Option.map_eq_some_iff.1 hl
    have hself := hc key l₀ hl₀
    refine .native ?_
    cases l₀ with
    | constant v =>
      cases hdup
      exact .inl ⟨_, rfl⟩
    | _ =>
      cases hdup
      exact .inr hself
  · split at hn
    · cases hn
      intro l hl
      cases hl
    · cases hn

/-- A row of a graph in which the fan of one output was changed. -/
theorem row_of_modifyFan {g : Graph} {source : Socket} {change : Fan → Fan} {b : NodeId} {n' : Node}
    (hn' : (g.modify source.node fun m => m.modifyFan source.port change).get? b = some n') :
    ∃ n, g.get? b = some n ∧ n'.body = n.body ∧ n'.inputs = n.inputs ∧
      n'.outputs.length = n.outputs.length := by
  rw [Slots.get?_modify] at hn'
  split at hn'
  · obtain ⟨n, hn, rfl⟩ := Option.map_eq_some_iff.1 hn'
    exact ⟨n, hn, rfl, rfl, by simp⟩
  · exact ⟨n', hn', rfl, rfl, rfl⟩

theorem row_of_bypass {g g' : Graph} {id b : NodeId} {n' : Node} (h : Graph.bypass g id = .ok g')
    (hn' : g'.get? b = some n') :
    ∃ n, g.get? b = some n ∧ n'.body = n.body ∧ n'.inputs = n.inputs ∧
      n'.outputs.length = n.outputs.length := by
  obtain ⟨m, -, h⟩ := ok_of_bind h
  cases h
  obtain ⟨-, c, hc, rfl⟩ := Graph.row_erase hn'
  rw [Slots.get?_map] at hc
  obtain ⟨n, hn, rfl⟩ := Option.map_eq_some_iff.1 hc
  exact ⟨n, hn, rfl, rfl, by simp [Node.forget, Node.mapFans]⟩

theorem perform_filed (hc : r.catalog.SelfNamed) (hm : d.prototype.WellMade r.prototypes)
    (h : d.prototype.Filed r.catalog) {a : Action} (ha : a.ByName) :
    (d.perform r a).2.prototype.Filed r.catalog := by
  have hsettle := settle_induct (fun d' => d'.prototype.Filed r.catalog) h
  cases a with
  | input port | output port | allocate items | targets source => exact h
  | add key =>
    rw [perform]
    cases hadd : d.add r key with
    | error err => exact h
    | ok made =>
      obtain ⟨⟨n, heap⟩, hn, hadd⟩ := ok_of_bind hadd
      cases hadd
      exact addNode_filed (d := { d with heap }) hm h (makeNode_filed hc hn)
  | addLogic l => exact addNode_filed hm h (.native (.inl ha))
  | connect source target =>
    refine hsettle _ fun d' hd' => ?_
    unfold connect at hd'
    split at hd'
    · cases hd'
    · obtain ⟨g, hg, hd'⟩ := ok_of_bind hd'
      cases hd'
      exact h.redraw rfl rfl fun id n' hn' => row_of_modifyFan (Engine.graph_connect_ok hg ▸ hn')
  | disconnect source =>
    refine hsettle _ fun d' hd' => ?_
    obtain ⟨g, hg, hd'⟩ := ok_of_bind hd'
    cases hd'
    exact h.redraw rfl rfl fun id n' hn' => row_of_modifyFan (Engine.graph_disconnect_ok hg ▸ hn')
  | remove id =>
    refine hsettle _ fun d' hd' => ?_
    unfold remove at hd'
    split at hd'
    · cases hd'
    · obtain ⟨g, hg, hd'⟩ := ok_of_bind hd'
      cases hd'
      exact h.redraw rfl rfl fun id n' hn' => row_of_bypass hg hn'
  | place id spot =>
    refine hsettle _ fun d' hd' => ?_
    obtain ⟨_, -, hd'⟩ := ok_of_bind hd'
    cases hd'
    exact h.congr rfl rfl rfl
  | setCanvas canvas => exact h.congr rfl rfl rfl

theorem Steps.filed (hs : Steps Action.ByName r d d') (hc : r.catalog.SelfNamed)
    (hm : d.prototype.WellMade r.prototypes) (h : d.prototype.Filed r.catalog) :
    d'.prototype.Filed r.catalog :=
  (hs.induct (P := fun d => d.prototype.WellMade r.prototypes ∧ d.prototype.Filed r.catalog)
    (fun _ a ha hd => ⟨(perform_redraws hd.1 a).made, perform_filed hc hd.1 hd.2 ha⟩) ⟨hm, h⟩).2

end Draft

/-! ## All templates of an engine -/

namespace Engine

variable {e e' : Engine}

/-- Changes in which nodes get into templates by their names. -/
def Scope.byName : Scope := ⟨Draft.Action.ByName, True, True, True, True⟩

structure Filed (e : Engine) : Prop where
  selfNamed : e.registry.catalog.SelfNamed
  /-- No key is in the catalog and among the prototypes. -/
  apart : ∀ k l, e.registry.catalog.get? k = some l → e.prototype? k = none
  templates : ∀ k p, e.prototype? k = some p → p.Filed e.registry.catalog

theorem filed_fresh (settings : Settings) (console : Console) : (fresh settings console).Filed :=
  ⟨Catalog.selfNamed_standard, fun _ _ _ => rfl, fun k p hp => by cases hp⟩

/-- The catalog stays as it is or gets a logic more. -/
theorem Change.catalog {scope : Scope} (h : Sound (.rest e)) (hc : Change scope e e') :
    e'.registry.catalog = e.registry.catalog ∨
      ∃ l, e.registry.contains l.key = false ∧
        e'.registry = { e.registry with catalog := e.registry.catalog.insert l.key l } := by
  cases hc with
  | feed _ _ registry => exact .inl (registry ▸ rfl)
  | @file l fresh _ registry => exact .inr ⟨l, fresh, registry⟩
  | @bind id n k _ get body _ engaged =>
    obtain ⟨p, hp, -⟩ := prototype?_of_reference h get body
    rw [engage_eq get body hp] at engaged
    cases engaged
    exact .inl (catalog_acquire e id p)
  | tear moves _ => exact .inl moves.catalog
  | place _ _ _ registry => exact .inl (registry ▸ rfl)
  | relead _ _ _ _ _ registry => exact .inl (registry ▸ rfl)
  | erase _ _ _ _ registry => exact .inl (registry ▸ rfl)
  | declare _ _ registry => exact .inl (registry ▸ rfl)
  | replace _ _ _ _ _ registry => exact .inl (registry ▸ rfl)

theorem Change.filed (h : Sound (.rest e)) (hc : Change .byName e e') (hf : e.Filed) :
    e'.Filed := by
  rcases hc.catalog h with hcat | ⟨l, hfresh, hreg⟩
  · refine ⟨hcat ▸ hf.selfNamed, fun k l hl => ?_, fun k q hq => ?_⟩
    · rw [hcat] at hl
      cases hq : e'.prototype? k with
      | none => rfl
      | some q =>
        have hnone := hf.apart k l hl
        rcases hc.template h hq with ⟨p, hp, -⟩ | ⟨inputs, outputs, hfresh, -⟩ | ⟨p, _, _, hp, -⟩
        · rw [hnone] at hp
          cases hp
        · simp [Registry.contains, Table.contains, hl] at hfresh
        · rw [hnone] at hp
          cases hp
    · rw [hcat]
      rcases hc.template h hq with
        ⟨p, hp, hb⟩ | ⟨inputs, outputs, -, rfl⟩ | ⟨p, heap, d, hp, hs, rfl⟩
      · exact (hf.templates k p hp).of_bare hb
      · exact (Prototype.declared_declare k inputs outputs).filed _
      · exact (hs.filed hf.selfNamed (h.templates k p hp) (hf.templates k p hp)).congr rfl rfl rfl
  · have hnone : e.registry.catalog.get? l.key = none ∧ e.prototype? l.key = none := by
      simpa [Registry.contains, Table.contains, prototype?] using hfresh
    have hproto : ∀ k, e'.prototype? k = e.prototype? k := fun k => by
      rw [prototype?, hreg, prototype?]
    have hget : ∀ k, e'.registry.catalog.get? k =
        if k = l.key then some l else e.registry.catalog.get? k := fun k => by
      rw [hreg]
      exact Table.get?_insert _ _ _ _
    refine ⟨?_, fun k l' hl' => ?_, fun k p hp => ?_⟩
    · rw [hreg]
      exact hf.selfNamed.insert hnone.1
    · rw [hproto]
      rw [hget] at hl'
      split at hl'
      · next hk => exact hk ▸ hnone.2
      · exact hf.apart k l' hl'
    · rw [hproto] at hp
      refine (hf.templates k p hp).mono fun k' l' hl' => ?_
      rw [hget, if_neg]
      · exact hl'
      · rintro rfl
        rw [hnone.1] at hl'
        cases hl'

end Engine

end PulseFlow
