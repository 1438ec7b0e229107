import PulseFlow.Proofs.Renaming
import PulseFlow.Proofs.Sessions
import PulseFlow.Proofs.WellFormed

/-!
# Which documents are taken in

A document is loaded if and only if it is well formed: its keys are new and distinct, and each
template is well formed where every key, known before or declared by the document, has its numbers
of inputs and outputs (`Project.WellFormed`).  These numbers stay the same while the templates are
filled one after the other (`Outlined`), so each is decided as if it were alone.

A document that is taken in adds its templates, each under its key (`Imported`).  One that is
refused leaves no trace but in the report, and arrays that were made for nodes which are gone:

    (e.importProject p).1 = .ok () ↔ p.WellFormed e.registry                  (importProject_ok_iff)
    (e.importProject p).1 = .error err → e.Untouched (e.importProject p).2    (importProject_undone)
-/

namespace PulseFlow

open Document

/-! ## Well-formed documents -/

namespace Document.Project

/-- The numbers of inputs and outputs of what a key stands for once the prototypes of a document
are declared. -/
def arity? (p : Project) (r : Registry) (key : Key) : Option (Nat × Nat) :=
  (r.arity? key).or ((p.prototypes.find? fun t => t.key == key).map fun t =>
    (t.inputs.length, t.outputs.length))

/-- A document that can be loaded in view of what is registered. -/
structure WellFormed (r : Registry) (p : Project) : Prop where
  distinct : (p.prototypes.map Template.key).Nodup
  fresh : ∀ t ∈ p.prototypes, r.contains t.key = false
  templates : ∀ t ∈ p.prototypes, t.WellFormed (p.arity? r)

end Document.Project

theorem Registry.arity?_eq (r : Registry) (key : Key) :
    r.arity? key = ((r.catalog.get? key).map fun l => (l.inputs, l.outputs)).or
      (Prototypes.arity? r.prototypes key) := by
  unfold arity? signature? Prototypes.arity?
  cases r.catalog.get? key with
  | some l => rfl
  | none => cases r.prototypes.get? key <;> rfl

/-- Nodes are made from the catalog and the numbers of inputs and outputs of prototypes. -/
theorem Registry.makeNode_congr {r r' : Registry} (hcatalog : r.catalog = r'.catalog)
    (harity : ∀ k, Prototypes.arity? r.prototypes k = Prototypes.arity? r'.prototypes k) :
    r.makeNode = r'.makeNode := by
  funext k h
  have hk := harity k
  unfold Prototypes.arity? at hk
  unfold makeNode
  rw [hcatalog]
  cases r'.catalog.create? k h with
  | some made => exact rfl
  | none =>
    dsimp only
    cases hp : r.prototypes.get? k with
    | none =>
      rw [hp] at hk
      rw [Option.map_eq_none_iff.1 hk.symm]
    | some p =>
      rw [hp] at hk
      obtain ⟨p', hp', hlengths⟩ := Option.map_eq_some_iff.1 hk.symm
      obtain ⟨hins, houts⟩ := Prod.mk.inj hlengths
      rw [hp']
      dsimp only
      rw [hins, houts]

theorem Registry.contains_eq_false {r : Registry} {key : Key} :
    r.contains key = false ↔ r.catalog.get? key = none ∧ r.prototypes.get? key = none := by
  simp [contains, Table.contains]

namespace Engine

variable {e e' : Engine} {t : Template} {ts todo : List Template} {p : Project}

/-! ## Declarations -/

/-- What can be declared is new, and the keys are distinct. -/
theorem fresh_of_declareAll {u : Unit} (h : (e.declareAll ts).1 = .ok u) :
    (ts.map Template.key).Nodup ∧ ∀ t ∈ ts, e.registry.contains t.key = false := by
  induction ts generalizing e with
  | nil => simp
  | cons t ts ih =>
    rw [declareAll] at h
    cases hc : e.registry.contains t.key with
    | true =>
      rw [declare, hc] at h
      cases h
    | false =>
      rw [declare, hc] at h
      obtain ⟨hnodup, hnew⟩ := ih h
      -- the key declared before is not among the rest, and the others were not known before it
      have hrest : ∀ s ∈ ts, s.key ≠ t.key ∧ e.registry.contains s.key = false := by
        intro s hs
        obtain ⟨hcat, hnone⟩ := Registry.contains_eq_false.1 (hnew s hs)
        have hget : (if s.key = t.key then some _ else e.prototype? s.key) = none :=
          (Table.get?_insert _ _ _ _).symm.trans hnone
        split at hget
        · cases hget
        · next hne => exact ⟨hne, Registry.contains_eq_false.2 ⟨hcat, hget⟩⟩
      refine ⟨List.nodup_cons.2 ⟨fun hmem => ?_, hnodup⟩, List.forall_mem_cons.2
        ⟨hc, fun s hs => (hrest s hs).2⟩⟩
      obtain ⟨s, hs, he⟩ := List.mem_map.1 hmem
      exact (hrest s hs).1 he

/-- The prototypes of a document are declared if and only if their keys are new and distinct. -/
theorem declareAll_decides (e : Engine) (ts : List Template) :
    Decides ((ts.map Template.key).Nodup ∧ ∀ t ∈ ts, e.registry.contains t.key = false)
      (e.declareAll ts).1 fun _ => Outlines ts e (e.declareAll ts).2.2 := by
  constructor
  · rintro ⟨hkeys, hnew⟩
    obtain ⟨keys, e', hdeclare, hout⟩ := declareAll_ok hkeys hnew
    rw [hdeclare]
    exact ⟨(), rfl, hout⟩
  · intro hnot
    cases hd : (e.declareAll ts).1 with
    | error err => exact ⟨err, rfl⟩
    | ok u => exact absurd (fresh_of_declareAll hd) hnot

/-! ## Templates -/

/-- The prototype that a filled template is kept as. -/
def filed (x : Template × Draft) : Prototype :=
  { x.2.prototype with revision := x.1.outline.revision + 1, pool := [] }

/-- An engine while the templates in `todo` are still to be filled, and nodes are made as by `r`. -/
structure Outlined (r : Registry) (todo : List Template) (e : Engine) : Prop where
  settled : e.Settled
  makes : e.registry.makeNode = r.makeNode
  blank : ∀ t ∈ todo, e.prototype? t.key = some t.outline

/-- Once all is declared, every key has its numbers of inputs and outputs. -/
theorem Outlines.arity?_eq (h : Outlines p.prototypes e e')
    (hnew : ∀ t ∈ p.prototypes, e.registry.contains t.key = false) :
    e'.registry.arity? = p.arity? e.registry := by
  funext k
  rw [Project.arity?]
  cases hfind : p.prototypes.find? fun t => t.key == k with
  | some t =>
    have ht : t ∈ p.prototypes := List.mem_of_find?_eq_some hfind
    have hk : t.key = k := by simpa using List.find?_some hfind
    subst hk
    obtain ⟨hcat, hnone⟩ := Registry.contains_eq_false.1 (hnew t ht)
    have hget : e'.registry.prototypes.get? t.key = _ := h.new t ht
    rw [Registry.arity?_eq, Registry.arity?_eq, h.catalog, hcat, Prototypes.arity?, hget,
      Prototypes.arity?, hnone]
    exact congrArg some (Prod.ext (Prototype.length_addPlaceholders _ _)
      (Prototype.length_addPlaceholders _ _))
  | none =>
    have hk : k ∉ p.prototypes.map Template.key := fun hmem => by
      obtain ⟨t, ht, he⟩ := List.mem_map.1 hmem
      have hnot := List.find?_eq_none.1 hfind t ht
      simp [he] at hnot
    have hget : e'.registry.prototypes.get? k = e.registry.prototypes.get? k := h.keep k hk
    rw [Option.map_none, Option.or_none, Registry.arity?_eq, Registry.arity?_eq, h.catalog,
      Prototypes.arity?, hget, Prototypes.arity?]

/-- A template keeps its placeholders, so its key stands for as many inputs and outputs. -/
theorem arity?_redrawn {q : Prototype} {d : Draft} (hq : e.prototype? d.prototype.key = some q)
    (hi : d.prototype.inputs = q.inputs) (ho : d.prototype.outputs = q.outputs) (k : Key) :
    Prototypes.arity? (e.redrawn q d).registry.prototypes k =
      Prototypes.arity? e.registry.prototypes k := by
  let filled : Prototype := { d.prototype with revision := q.revision + 1, pool := [] }
  have hins : filled.inputs.length = q.inputs.length := congrArg List.length hi
  have houts : filled.outputs.length = q.outputs.length := congrArg List.length ho
  exact Prototypes.arity?_insert_same hq hins houts k

/-- A template that has only its placeholders is filled if and only if it is well formed, and is
kept under its key. -/
theorem Outlined.loadTemplate {r : Registry} (h : Outlined r (t :: todo) e)
    (ht : t.key ∉ todo.map Template.key) :
    Decides (t.WellFormed r.arity?) (e.loadTemplate t).1 fun _ =>
      ∃ d, t.load r ⟨t.outline, e.world.heap⟩ = .ok d ∧ Outlined r todo (e.loadTemplate t).2 ∧
        (e.loadTemplate t).2.world.heap = d.heap ∧ ∀ k, (e.loadTemplate t).2.prototype? k =
          if k = t.key then some (filed (t, d)) else e.prototype? k := by
  have hblank := h.blank t List.mem_cons_self
  have hsettled := (loadTemplate_serves h.settled t).settled
  have hfill : t.outline.Redraws e.registry.prototypes
      (fill t e.registry ⟨t.outline, e.world.heap⟩).2.prototype :=
    fill_redraws (d := ⟨t.outline, e.world.heap⟩) (h.settled.sound.templates t.key _ hblank)
  have hload : Decides (t.WellFormed r.arity?) (t.load r ⟨t.outline, e.world.heap⟩) fun _ => True :=
    Template.load_decides (Prototype.declared_declare _ _ _) (Prototype.length_addPlaceholders _ _)
      (Prototype.length_addPlaceholders _ _)
  rw [loadTemplate_eq hblank rfl rfl] at hsettled ⊢
  rw [fill, t.load_congr h.makes] at hsettled hfill ⊢
  constructor
  · intro hwell
    obtain ⟨d, hd, -⟩ := hload.accepts hwell
    rw [hd] at hsettled hfill ⊢
    have hkey : d.prototype.key = t.key := hfill.key
    have hget : ∀ k, (e.redrawn t.outline d).prototype? k =
        if k = t.key then some (filed (t, d)) else e.prototype? k := fun k => by
      rw [prototype?_redrawn, hkey]
      rfl
    refine ⟨(), rfl, d, rfl, ⟨hsettled, ?_, fun s hs => ?_⟩, rfl, hget⟩
    · rw [← h.makes]
      exact Registry.makeNode_congr rfl
        (arity?_redrawn (hkey ▸ hblank) hfill.inputs hfill.outputs)
    · have hne : s.key ≠ t.key := fun he => ht (he ▸ List.mem_map_of_mem hs)
      rw [hget, if_neg hne]
      exact h.blank s (List.mem_cons_of_mem t hs)
  · intro hnot
    obtain ⟨err, herr⟩ := hload.refuses hnot
    rw [herr]
    exact ⟨err, rfl⟩

theorem loadAll_cons_fst (e : Engine) (t : Template) (ts : List Template) :
    (e.loadAll (t :: ts)).1 =
      ((e.loadTemplate t).1 >>= fun _ => ((e.loadTemplate t).2.loadAll ts).1) := by
  rw [Engine.loadAll]
  cases e.loadTemplate t with
  | mk result e₁ => cases result <;> rfl

theorem loadAll_cons_snd {u : Unit} (h : (e.loadTemplate t).1 = .ok u) (ts : List Template) :
    (e.loadAll (t :: ts)).2 = ((e.loadTemplate t).2.loadAll ts).2 := by
  rw [Engine.loadAll]
  cases hl : e.loadTemplate t with
  | mk result e₁ =>
    rw [hl] at h
    cases h
    rfl

/-- Templates are filled one after the other if and only if all are well formed, and each is kept
under its key. -/
theorem Outlined.loadAll {r : Registry} (h : Outlined r ts e)
    (hkeys : (ts.map Template.key).Nodup) :
    Decides (∀ t ∈ ts, t.WellFormed r.arity?) (e.loadAll ts).1 fun _ =>
      ∃ xs, xs.map Prod.fst = ts ∧ Fills r e.world.heap xs (e.loadAll ts).2.world.heap ∧
        (∀ x ∈ xs, (e.loadAll ts).2.prototype? x.1.key = some (filed x)) ∧
        ∀ k, k ∉ ts.map Template.key → (e.loadAll ts).2.prototype? k = e.prototype? k := by
  induction ts generalizing e with
  | nil => exact ⟨fun _ => ⟨(), rfl, [], rfl, .nil _, by simp, fun _ _ => rfl⟩,
      fun hnot => absurd (by simp) hnot⟩
  | cons t ts ih =>
    obtain ⟨hkey, hkeys⟩ := List.nodup_cons.1 hkeys
    have hfirst := (h.loadTemplate hkey).and fun _ hok => hok
    rw [loadAll_cons_fst]
    refine (hfirst.bind ?_).congr List.forall_mem_cons.symm
    rintro u ⟨⟨d, hload, hnext, hheap, hget⟩, hok⟩
    rw [loadAll_cons_snd hok]
    refine (ih hnext hkeys).imp ?_
    rintro _ ⟨xs, hxs, hfills, hnew, hkeep⟩
    rw [hheap] at hfills
    refine ⟨(t, d) :: xs, by rw [List.map_cons, hxs], .cons hload hfills, ?_, fun k hk => ?_⟩
    · refine List.forall_mem_cons.2 ⟨?_, hnew⟩
      rw [hkeep t.key hkey, hget, if_pos rfl]
    · rw [List.map_cons, List.mem_cons, not_or] at hk
      rw [hkeep k hk.2, hget, if_neg hk.1]

/-! ## Documents -/

/-- The answer to a load is that of the declarations and then of the templates. -/
theorem importProject_fst (e : Engine) (p : Project) :
    (e.importProject p).1 = ((e.declareAll p.prototypes).1 >>= fun _ =>
      ((e.declareAll p.prototypes).2.2.loadAll p.prototypes).1) := by
  unfold importProject
  generalize e.declareAll p.prototypes = declared
  obtain ⟨result, keys, e₁⟩ := declared
  cases result with
  | error err => rfl
  | ok u =>
    dsimp only
    generalize e₁.loadAll p.prototypes = loaded
    obtain ⟨result, e₂⟩ := loaded
    cases result <;> rfl

theorem heap_declareAll (e : Engine) (ts : List Template) :
    (e.declareAll ts).2.2.world.heap = e.world.heap := by
  induction ts generalizing e with
  | nil => rfl
  | cons t ts ih =>
    rw [declareAll, declare]
    cases e.registry.contains t.key with
    | true => rfl
    | false => exact ih _

/-- What a document that was taken in left in the engine: each template stands under its key as it
was filled, from the first to the last, where nodes are made as by `r`, and nothing else is new. -/
structure Imported (r : Registry) (xs : List (Template × Draft)) (e e' : Engine) : Prop where
  revises : e.Revises e'
  fills : Fills r e.world.heap xs e'.world.heap
  new : ∀ x ∈ xs, e'.prototype? x.1.key = some (filed x)
  keep : ∀ k, k ∉ (xs.map Prod.fst).map Template.key → e'.prototype? k = e.prototype? k

/-- A document is loaded if and only if it is well formed, and all its templates are taken in. -/
theorem importProject_decides (h : e.Settled) (p : Project) :
    Decides (p.WellFormed e.registry) (e.importProject p).1 fun _ =>
      Outlines p.prototypes e (e.declareAll p.prototypes).2.2 ∧
        ∃ xs, xs.map Prod.fst = p.prototypes ∧
          Imported (e.declareAll p.prototypes).2.2.registry xs e (e.importProject p).2 := by
  have hs := (declareAll_spec h p.prototypes).1.settled
  have hdeclare := (declareAll_decides e p.prototypes).and fun _ hd => fresh_of_declareAll hd
  have hwell : Outlines p.prototypes e (e.declareAll p.prototypes).2.2 ∧
      (p.prototypes.map Template.key).Nodup ∧
        (∀ t ∈ p.prototypes, e.registry.contains t.key = false) →
      ((∀ t ∈ p.prototypes, t.WellFormed (e.declareAll p.prototypes).2.2.registry.arity?) ↔
        ∀ t ∈ p.prototypes, t.WellFormed (p.arity? e.registry)) :=
    fun hout => by rw [hout.1.arity?_eq hout.2.2]
  have hboth := hdeclare.bind fun _ hout =>
    ((Outlined.loadAll ⟨hs, rfl, hout.1.new⟩ hout.2.1).imp fun _ hx => And.intro hout.1 hx).congr
      (hwell hout)
  rw [← importProject_fst] at hboth
  refine ((hboth.and fun _ hok => hok).imp ?_).congr ⟨fun hc => ?_, fun hc => ?_⟩
  · rintro _ ⟨⟨hout, xs, hxs, hfills, hnew, hkeep⟩, hok⟩
    refine ⟨hout, xs, hxs, ?_⟩
    rw [heap_declareAll] at hfills
    obtain ⟨keys, e₁, hloads, ⟨v, rfl, himport⟩ | ⟨err, v, himport⟩⟩ := importProject_cases h p
    · rw [himport]
      refine ⟨hloads.revises.report v, hfills, hnew, fun k hk => ?_⟩
      rw [hxs] at hk
      exact (hkeep k hk).trans (hout.keep k hk)
    · rw [himport] at hok
      cases hok
  · exact ⟨hc.1.1, hc.1.2, hc.2⟩
  · exact ⟨⟨hc.distinct, hc.fresh⟩, hc.templates⟩

theorem importProject_ok_iff (h : e.Settled) :
    (e.importProject p).1 = .ok () ↔ p.WellFormed e.registry := by
  refine ⟨fun hok => ((importProject_decides h p).of_ok hok).1, fun hp => ?_⟩
  obtain ⟨u, hok, -⟩ := (importProject_decides h p).accepts hp
  exact hok

end Engine

/-! ## What a document that is refused leaves behind -/

namespace Engine

variable {e e' : Engine}

/-- Nothing differs but new arrays and what was reported since. -/
def Untouched (e e' : Engine) : Prop :=
  ∃ heap events, e' = { e with world := { e.world with heap, events } } ∧
    e.world.heap.Grows heap ∧ e.world.events.toList <+: events.toList

theorem Revises.untouched (h : e.Revises e') (ht : e'.registry.prototypes = e.registry.prototypes) :
    e.Untouched e' := by
  obtain ⟨prototypes, heap, events, rfl, hheap, hevents⟩ := h
  have ht : prototypes = e.registry.prototypes := ht
  subst ht
  exact ⟨heap, events, rfl, hheap, hevents⟩

/-- A document that is refused is undone. -/
theorem importProject_undone (h : e.Settled) {p : Project} {err : Error}
    (herr : (e.importProject p).1 = .error err) : e.Untouched (e.importProject p).2 := by
  obtain ⟨keys, e₁, hload, ⟨v, -, hok⟩ | ⟨_, v, hfail⟩⟩ := importProject_cases h p
  · rw [hok] at herr
    cases herr
  · rw [hfail]
    exact ((hload.revises.report v).dropPrototypes keys).untouched (hload.drafting.report v).drop

/-- In every engine that commands lead to, a document is taken in if it is well formed, and else it
is refused and undone.  What is taken in are its templates, filled in their order where all of them
are declared. -/
theorem importProject_after (settings : Settings) (console : Console) (commands : List Command)
    (p : Project) :
    let e := (fresh settings console).after commands
    ((e.importProject p).1 = .ok () ↔ p.WellFormed e.registry) ∧
      (∀ err, (e.importProject p).1 = .error err → e.Untouched (e.importProject p).2) ∧
      ((e.importProject p).1 = .ok () → ∃ xs, xs.map Prod.fst = p.prototypes ∧
        Imported (e.declareAll p.prototypes).2.2.registry xs e (e.importProject p).2) := by
  intro e
  have h : e.Settled := settled_after settings console commands
  refine ⟨importProject_ok_iff h, fun err herr => importProject_undone h herr, fun hok => ?_⟩
  exact ((importProject_decides h p).of_ok hok).2.2

end Engine

end PulseFlow
