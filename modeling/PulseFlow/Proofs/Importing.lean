import PulseFlow.Document.Import
import PulseFlow.Proofs.Templates

/-!
# Loading documents into a settled engine

A document is loaded by declarations and edits, so a load that succeeds leaves a settled engine.  One
that fails gives the table of prototypes back as it was: what it declared was new and had nothing
pooled, and nothing else was touched (`Drafting`) but the report and the heap, which has new arrays
at most (`Revises`).

    ∃ keys e₁, Loads keys e e₁ ∧ …, and a load that fails drops `keys`   (importProject_cases)
    e.Settled → Serves e (e.importProject p).2                          (importProject_serves)
-/

namespace PulseFlow

/-! ## Filling templates -/

namespace Document.Loading

variable {t : Template} {r : Registry} {l l' : Loading}

/-- Filing a node leaves the draft as it is. -/
theorem draft_claim {index : Nat} {id : NodeId} (h : l.claim t index id = .ok l') :
    l'.draft = l.draft := by
  unfold claim at h
  split at h
  · cases h
  · cases h
    rfl

variable {ok : Draft.Action → Prop}

/-- A fold takes the actions that its steps take. -/
theorem foldlM_steps {α : Type} {f : Loading → α → Except Error Loading}
    (hf : ∀ l a l', f l a = .ok l' → Draft.Steps ok r l.draft l'.draft) {xs : List α}
    (hl : xs.foldlM f l = .ok l') : Draft.Steps ok r l.draft l'.draft := by
  induction xs generalizing l with
  | nil =>
    cases hl
    exact .refl
  | cons x xs ih =>
    rw [List.foldlM_cons] at hl
    obtain ⟨l₁, hx, hl⟩ := ok_of_bind hl
    exact (hf l x l₁ hx).trans (ih hl)

theorem claimBoundary_steps {port? : Prototype → Nat → Except Error NodeId}
    {placed : List PlacedNode} (hl : l.claimBoundary t port? placed = .ok l') :
    Draft.Steps ok r l.draft l'.draft := by
  refine foldlM_steps (fun l a l' hl => ?_) hl
  obtain ⟨id, -, hl⟩ := ok_of_bind hl
  rw [draft_claim hl]

theorem addNamed_steps (hok : ∀ a : Draft.Action, a.ByName → ok a) {n : PlacedNode}
    (hl : l.addNamed t r n = .ok l') : Draft.Steps ok r l.draft l'.draft := by
  unfold addNamed at hl
  split at hl
  · next category identifier _ _ =>
    dsimp only at hl
    split at hl
    · next id d hadd =>
      rw [draft_claim hl]
      refine .single ⟨.add ⟨category, identifier⟩, hok _ trivial, ?_⟩
      rw [Draft.perform, hadd]
    · cases hl
    · cases hl
  · cases hl

theorem addConstant_steps (hok : ∀ a : Draft.Action, a.ByName → ok a) {n : PlacedNode}
    {value : Signal} (hl : l.addConstant t n value = .ok l') :
    Draft.Steps ok r l.draft l'.draft := by
  unfold addConstant at hl
  rw [draft_claim hl]
  exact .single ⟨.addLogic (.constant value), hok _ ⟨value, rfl⟩, rfl⟩

theorem wireEdge_steps (hok : ∀ a : Draft.Action, a.ByName → ok a) {source : PlacedNode}
    {id : NodeId} {port : Nat} {edge : Edge} (hl : l.wireEdge t source id port edge = .ok l') :
    Draft.Steps ok r l.draft l'.draft := by
  unfold wireEdge at hl
  split at hl
  · next target _ =>
    obtain ⟨d, hc, hl⟩ := ok_of_bind hl
    cases hl
    refine .single ⟨.connect ⟨id, port⟩ ⟨target, edge.socket⟩, hok _ trivial, ?_⟩
    rw [Draft.perform, hc]
    rfl
  · cases hl

theorem wireNode_steps (hok : ∀ a : Draft.Action, a.ByName → ok a) {n : PlacedNode}
    (hl : l.wireNode t n = .ok l') : Draft.Steps ok r l.draft l'.draft := by
  unfold wireNode at hl
  split at hl
  · cases hl
    exact .refl
  · next id _ =>
    obtain ⟨d, hp, hl⟩ := ok_of_bind hl
    have hplace : Draft.Steps ok r l.draft d := by
      refine .single ⟨.place id ⟨n.x, n.y⟩, hok _ trivial, ?_⟩
      rw [Draft.perform, hp]
      rfl
    refine hplace.trans (foldlM_steps (l := { l with draft := d }) ?_ hl)
    exact fun l a l' hl => foldlM_steps (fun l a l' hl => wireEdge_steps hok hl) hl

end Document.Loading

/-- A template is filled by actions, and its nodes get in by their names. -/
theorem Document.Template.load_steps {ok : Draft.Action → Prop}
    (hok : ∀ a : Draft.Action, a.ByName → ok a) {t : Template} {r : Registry} {d d' : Draft}
    (hl : t.load r d = .ok d') : Draft.Steps ok r d d' := by
  unfold Template.load at hl
  obtain ⟨l₁, hl₁, hl⟩ := ok_of_bind hl
  obtain ⟨l₂, hl₂, hl⟩ := ok_of_bind hl
  obtain ⟨l₃, hl₃, hl⟩ := ok_of_bind hl
  obtain ⟨l₄, hl₄, hl⟩ := ok_of_bind hl
  obtain ⟨l₅, hl₅, hl⟩ := ok_of_bind hl
  obtain ⟨l₆, hl₆, hl⟩ := ok_of_bind hl
  obtain ⟨l₇, hl₇, hl⟩ := ok_of_bind hl
  obtain ⟨l₈, hl₈, hl⟩ := ok_of_bind hl
  cases hl
  have hboundary : Draft.Steps ok r d l₂.draft :=
    (Loading.claimBoundary_steps (l := ⟨d, []⟩) hl₁).trans (Loading.claimBoundary_steps hl₂)
  have hnamed : Draft.Steps ok r l₂.draft l₃.draft :=
    Loading.foldlM_steps (fun _ _ _ => Loading.addNamed_steps hok) hl₃
  have hconst : ∀ {α : Type} {xs : List α} {node : α → PlacedNode} {value : α → Signal}
      {l l' : Loading}, xs.foldlM (fun l x => l.addConstant t (node x) (value x)) l = .ok l' →
      Draft.Steps ok r l.draft l'.draft :=
    Loading.foldlM_steps fun _ _ _ => Loading.addConstant_steps hok
  have hconstants : Draft.Steps ok r l₃.draft l₇.draft :=
    (((hconst hl₄).trans (hconst hl₅)).trans (hconst hl₆)).trans (hconst hl₇)
  have hcanvas : Draft.Steps ok r l₇.draft (l₇.draft.setCanvas t.canvas) :=
    .single ⟨.setCanvas t.canvas, hok _ trivial, rfl⟩
  have hwires : Draft.Steps ok r (l₇.draft.setCanvas t.canvas) l₈.draft :=
    Loading.foldlM_steps (l := { l₇ with draft := l₇.draft.setCanvas t.canvas })
      (fun _ _ _ => Loading.wireNode_steps hok) hl₈
  exact (((hboundary.trans hnamed).trans hconstants).trans hcanvas).trans hwires

/-! ## New arrays -/

/-- The arrays that were there are there as they were. -/
def Heap.Grows (h h' : Heap) : Prop := ∃ more, h'.arrays = h.arrays ++ more

namespace Heap

variable {h h' h'' : Heap}

theorem Grows.refl (h : Heap) : h.Grows h := ⟨#[], by simp⟩

theorem Grows.trans (hg : h.Grows h') (hg' : h'.Grows h'') : h.Grows h'' := by
  obtain ⟨more, hmore⟩ := hg
  obtain ⟨more', hmore'⟩ := hg'
  exact ⟨more ++ more', by rw [hmore', hmore, Array.append_assoc]⟩

theorem alloc_grows (h : Heap) (l : List Signal) : h.Grows (h.alloc l).2 :=
  ⟨#[l], Array.push_eq_append⟩

theorem copy_grows (h : Heap) (s : Signal) : h.Grows (h.copy s).2 := by
  cases s with
  | array i => exact ⟨_, rfl⟩
  | _ => exact .refl h

end Heap

theorem Logic.duplicate_grows (l : Logic) (h : Heap) : h.Grows (l.duplicate h).2 := by
  cases l with
  | constant v => exact h.copy_grows v
  | _ => exact .refl h

theorem Registry.makeNode_grows {r : Registry} {key : Key} {h h' : Heap} {n : Node}
    (hmake : r.makeNode key h = .ok (n, h')) : h.Grows h' := by
  unfold makeNode Catalog.create? at hmake
  cases hl : r.catalog.get? key with
  | some l =>
    rw [hl] at hmake
    cases hmake
    exact l.duplicate_grows h
  | none =>
    rw [hl] at hmake
    cases hp : r.prototypes.get? key with
    | some p =>
      rw [hp] at hmake
      cases hmake
      exact .refl h
    | none =>
      rw [hp] at hmake
      cases hmake

namespace Draft

/-- An action makes arrays at most. -/
theorem perform_grows (r : Registry) (d : Draft) (a : Action) :
    d.heap.Grows (d.perform r a).2.heap := by
  have hsettle := settle_induct (fun d' => d.heap.Grows d'.heap) (.refl d.heap)
  cases a with
  | input port => exact .refl _
  | output port => exact .refl _
  | targets source => exact .refl _
  | addLogic l => exact .refl _
  | setCanvas canvas => exact .refl _
  | allocate items => exact d.heap.alloc_grows items
  | add key =>
    rw [perform]
    cases hadd : d.add r key with
    | error err => exact .refl _
    | ok made =>
      obtain ⟨⟨n, heap⟩, hmake, hmade⟩ := ok_of_bind hadd
      cases hmade
      exact Registry.makeNode_grows hmake
  | connect source target =>
    refine hsettle _ fun d' hd => ?_
    unfold connect at hd
    split at hd
    · cases hd
    · obtain ⟨g, -, hd⟩ := ok_of_bind hd
      cases hd
      exact .refl _
  | disconnect source =>
    refine hsettle _ fun d' hd => ?_
    obtain ⟨g, -, hd⟩ := ok_of_bind hd
    cases hd
    exact .refl _
  | remove id =>
    refine hsettle _ fun d' hd => ?_
    unfold remove at hd
    split at hd
    · cases hd
    · obtain ⟨g, -, hd⟩ := ok_of_bind hd
      cases hd
      exact .refl _
  | place id placement =>
    refine hsettle _ fun d' hd => ?_
    obtain ⟨n, -, hd⟩ := ok_of_bind hd
    cases hd
    exact .refl _

theorem Steps.grows {ok : Action → Prop} {r : Registry} {d d' : Draft} (h : Steps ok r d d') :
    d.heap.Grows d'.heap :=
  h.induct (P := fun d' => d.heap.Grows d'.heap)
    (fun d' a _ hd => hd.trans (d'.perform_grows r a)) (.refl _)

end Draft

/-! ## What a load may leave behind -/

theorem Table.get?_foldl_erase {α : Type} (keys : List Key) (t : Table Key α) (k : Key) :
    (keys.foldl Table.erase t).get? k = if k ∈ keys then none else t.get? k := by
  induction keys generalizing t with
  | nil => simp
  | cons key keys ih =>
    rw [List.foldl_cons, ih, Table.get?_erase]
    by_cases hk : k ∈ keys
    · simp [hk]
    · simp [hk]

namespace Engine

open Document

variable {e e₀ e₁ : Engine} {keys : List Key}

/-- Nothing differs but the prototypes, new arrays and what was reported since. -/
def Revises (e e' : Engine) : Prop :=
  ∃ prototypes heap events, e' = { e with
    registry := { e.registry with prototypes }
    world := { e.world with heap, events } } ∧
    e.world.heap.Grows heap ∧ e.world.events.toList <+: events.toList

/-- An engine to which prototypes with certain keys were added and in which nothing else was done
than to edit these. -/
structure Drafting (keys : List Key) (e₀ e : Engine) : Prop where
  graph : e.graph = e₀.graph
  pending : e.pending = e₀.pending
  watch : e.watch = e₀.watch
  nextInstance : e.nextInstance = e₀.nextInstance
  settings : e.settings = e₀.settings
  catalog : e.registry.catalog = e₀.registry.catalog
  new : ∀ k ∈ keys, e₀.prototype? k = none
  idle : ∀ k ∈ keys, ∀ p, e.prototype? k = some p → p.pool = []
  keep : ∀ k, k ∉ keys → e.prototype? k = e₀.prototype? k

theorem declare_drafting {key : Key} {inputs outputs : Nat} {u : Unit}
    (h : e.declare key inputs outputs = (.ok u, e₁)) : Drafting [key] e e₁ := by
  unfold declare at h
  by_cases hc : e.registry.contains key = true
  · rw [if_pos hc] at h
    cases h
  · rw [if_neg hc] at h
    cases h
    have hget : ∀ k, ((e.report (.declared key inputs outputs)).putPrototype
        (Prototype.declare key inputs outputs)).prototype? k =
          if k = key then some (Prototype.declare key inputs outputs) else e.prototype? k :=
      fun k => Table.get?_insert _ _ _ _
    refine ⟨rfl, rfl, rfl, rfl, rfl, rfl, fun k hk => ?_, fun k hk p hp => ?_, fun k hk => ?_⟩
    · rw [List.mem_singleton.1 hk]
      exact prototype?_of_not_contains hc
    · rw [hget, if_pos (List.mem_singleton.1 hk)] at hp
      cases hp
      rfl
    · rw [hget, if_neg fun he => hk (List.mem_singleton.2 he)]

/-- Declarations one after the other add their keys. -/
theorem Drafting.cons {key : Key} (h : Drafting [key] e e₁) {e₂ : Engine}
    (h' : Drafting keys e₁ e₂) : Drafting (key :: keys) e e₂ where
  graph := h'.graph.trans h.graph
  pending := h'.pending.trans h.pending
  watch := h'.watch.trans h.watch
  nextInstance := h'.nextInstance.trans h.nextInstance
  settings := h'.settings.trans h.settings
  catalog := h'.catalog.trans h.catalog
  new := by
    intro k hk
    by_cases hkey : k = key
    · exact h.new k (List.mem_singleton.2 hkey)
    · rw [← h.keep k fun he => hkey (List.mem_singleton.1 he)]
      exact h'.new k ((List.mem_cons.1 hk).resolve_left hkey)
  idle := by
    intro k hk p hp
    by_cases hkeys : k ∈ keys
    · exact h'.idle k hkeys p hp
    · have hkey := (List.mem_cons.1 hk).resolve_right hkeys
      rw [h'.keep k hkeys] at hp
      exact h.idle k (List.mem_singleton.2 hkey) p hp
  keep := by
    intro k hk
    have hkeys : k ∉ keys := fun hm => hk (List.mem_cons_of_mem key hm)
    have hkey : k ∉ [key] := fun hm => hk (List.mem_singleton.1 hm ▸ List.mem_cons_self)
    rw [h'.keep k hkeys, h.keep k hkey]

theorem Drafting.refl (e : Engine) : Drafting [] e e :=
  ⟨rfl, rfl, rfl, rfl, rfl, rfl, by simp, by simp, fun _ _ => rfl⟩

namespace Revises

variable {e' e'' : Engine}

theorem refl (e : Engine) : e.Revises e :=
  ⟨_, _, _, rfl, .refl _, List.prefix_rfl⟩

theorem trans (h : e.Revises e') (h' : e'.Revises e'') : e.Revises e'' := by
  obtain ⟨_, _, _, rfl, hheap, hevents⟩ := h
  obtain ⟨_, _, _, rfl, hheap', hevents'⟩ := h'
  exact ⟨_, _, _, rfl, hheap.trans hheap', hevents.trans hevents'⟩

theorem report (h : e.Revises e') (v : Event) : e.Revises (e'.report v) := by
  obtain ⟨_, _, events, rfl, hheap, hevents⟩ := h
  refine ⟨_, _, _, rfl, hheap, hevents.trans ?_⟩
  rw [Array.toList_push]
  exact List.prefix_append _ _

theorem putPrototype (h : e.Revises e') (q : Prototype) : e.Revises (e'.putPrototype q) := by
  obtain ⟨_, _, _, rfl, hheap, hevents⟩ := h
  exact ⟨_, _, _, rfl, hheap, hevents⟩

theorem dropPrototypes (h : e.Revises e') (keys : List Key) :
    e.Revises (e'.dropPrototypes keys) := by
  obtain ⟨_, _, _, rfl, hheap, hevents⟩ := h
  exact ⟨_, _, _, rfl, hheap, hevents⟩

end Revises

theorem declareAll_revises (e : Engine) (ts : List Template) :
    e.Revises (e.declareAll ts).2.2 := by
  induction ts generalizing e with
  | nil => exact .refl e
  | cons t ts ih =>
    rw [declareAll, declare]
    split
    · next hd =>
      split at hd
      · cases hd
        exact .refl e
      · cases hd
    · next hd =>
      split at hd
      · cases hd
      · cases hd
        exact (((Revises.refl e).report _).putPrototype _).trans (ih _)

theorem declareAll_spec (h : e.Settled) (ts : List Template) :
    Serves e (e.declareAll ts).2.2 ∧ Drafting (e.declareAll ts).2.1 e (e.declareAll ts).2.2 ∧
      (∀ u, (e.declareAll ts).1 = .ok u → ∀ t ∈ ts, t.key ∈ (e.declareAll ts).2.1) := by
  induction ts generalizing e with
  | nil => exact ⟨.refl h, .refl e, by simp⟩
  | cons t ts ih =>
    have hserves := declare_serves h t.key t.inputs.length t.outputs.length
    rw [declareAll]
    cases hd : e.declare t.key t.inputs.length t.outputs.length with
    | mk result e₁ =>
      rw [hd] at hserves
      cases result with
      | error err =>
        have hsame : e₁ = e := by
          unfold declare at hd
          split at hd
          · cases hd
            rfl
          · cases hd
        subst hsame
        exact ⟨hserves, .refl e₁, by simp⟩
      | ok u =>
        obtain ⟨hs, hdraft, hkeys⟩ := ih hserves.settled
        refine ⟨hserves.trans hs, (declare_drafting hd).cons hdraft, fun u hu t' ht' => ?_⟩
        rcases List.mem_cons.1 ht' with rfl | ht'
        · exact List.mem_cons_self
        · exact List.mem_cons_of_mem _ (hkeys u hu t' ht')

/-- Once they are declared, templates have only their placeholders. -/
structure Outlines (ts : List Template) (e e' : Engine) : Prop where
  catalog : e'.registry.catalog = e.registry.catalog
  new : ∀ t ∈ ts, e'.prototype? t.key =
    some (Prototype.declare t.key t.inputs.length t.outputs.length)
  keep : ∀ k, k ∉ ts.map Template.key → e'.prototype? k = e.prototype? k

/-- Templates can be declared if their keys are new and distinct. -/
theorem declareAll_ok {ts : List Template} (hkeys : (ts.map Template.key).Nodup)
    (hnew : ∀ t ∈ ts, e.registry.contains t.key = false) :
    ∃ keys e', e.declareAll ts = (.ok (), keys, e') ∧ Outlines ts e e' := by
  induction ts generalizing e with
  | nil => exact ⟨[], e, rfl, rfl, by simp, fun _ _ => rfl⟩
  | cons t ts ih =>
    obtain ⟨hkey, hkeys⟩ := List.nodup_cons.1 hkeys
    let e₁ := (e.report (.declared t.key t.inputs.length t.outputs.length)).putPrototype
      (Prototype.declare t.key t.inputs.length t.outputs.length)
    have hget : ∀ k, e₁.prototype? k =
        if k = t.key then some (Prototype.declare t.key t.inputs.length t.outputs.length)
        else e.prototype? k := fun k => Table.get?_insert _ _ _ _
    have hdeclare : e.declare t.key t.inputs.length t.outputs.length = (.ok (), e₁) := by
      rw [declare, hnew t List.mem_cons_self]
      rfl
    have hnew₁ : ∀ s ∈ ts, e₁.registry.contains s.key = false := fun s hs => by
      have hne : s.key ≠ t.key := fun he => hkey (he ▸ List.mem_map_of_mem hs)
      have hold : (e.registry.catalog.contains s.key || (e.prototype? s.key).isSome) = false :=
        hnew s (List.mem_cons_of_mem t hs)
      show (e.registry.catalog.contains s.key || (e₁.prototype? s.key).isSome) = false
      rw [hget, if_neg hne]
      exact hold
    obtain ⟨keys, e₂, h₂, hcat, hall, hkeep⟩ := ih hkeys hnew₁
    refine ⟨t.key :: keys, e₂, ?_, hcat, fun s hs => ?_, fun k hk => ?_⟩
    · rw [declareAll, hdeclare]
      dsimp only
      rw [h₂]
    · rcases List.mem_cons.1 hs with rfl | hs
      · rw [hkeep _ hkey, hget, if_pos rfl]
      · exact hall s hs
    · rw [List.map_cons, List.mem_cons, not_or] at hk
      rw [hkeep k hk.2, hget, if_neg hk.1]

/-- What loading a template does to its draft. -/
def fill (t : Template) (r : Registry) (d : Draft) : Except Error Unit × Draft :=
  match t.load r d with
  | .ok d => (.ok (), d)
  | .error err => (.error err, d)

/-- The result of a load from that of the edit that made it. -/
def loaded : Except Error (Except Error Unit) × Engine → Except Error Unit × Engine
  | (.ok result, e) => (result, e)
  | (.error err, e) => (.error err, e)

theorem fill_steps {ok : Draft.Action → Prop} (hok : ∀ a : Draft.Action, a.ByName → ok a)
    (t : Template) (r : Registry) (d : Draft) : Draft.Steps ok r d (fill t r d).2 := by
  unfold fill
  cases hl : t.load r d with
  | error err => exact .refl
  | ok d' => exact Template.load_steps hok hl

theorem fill_redraws {t : Template} {r : Registry} {d : Draft}
    (h : d.prototype.WellMade r.prototypes) :
    d.prototype.Redraws r.prototypes (fill t r d).2.prototype := by
  have hsteps : Draft.Steps (fun _ => True) r d (fill t r d).2 :=
    fill_steps (fun _ _ => trivial) t r d
  exact hsteps.redraws h

theorem loadTemplate_snd (e : Engine) (t : Template) :
    (e.loadTemplate t).2 = (e.editBy t.key (fill t e.registry)).2 := by
  have hfill : e.loadTemplate t = loaded (e.editBy t.key (fill t e.registry)) := rfl
  rw [hfill]
  cases e.editBy t.key (fill t e.registry) with
  | mk result e₁ => cases result <;> rfl

theorem loadTemplate_serves (h : e.Settled) (t : Template) : Serves e (e.loadTemplate t).2 := by
  rw [loadTemplate_snd]
  exact editBy_serves h t.key fun d hd => fill_redraws hd

/-- An engine in which prototype `p` was edited into draft `d` and had no instances to free. -/
def redrawn (e : Engine) (p : Prototype) (d : Draft) : Engine :=
  (Engine.report { e with world := { e.world with heap := d.heap } }
    (.edited p.key (p.revision + 1) 0)).putPrototype
      { d.prototype with revision := p.revision + 1, pool := [] }

theorem prototype?_redrawn (e : Engine) (p : Prototype) (d : Draft) (k : Key) :
    (e.redrawn p d).prototype? k = if k = d.prototype.key then
      some { d.prototype with revision := p.revision + 1, pool := [] } else e.prototype? k :=
  Table.get?_insert _ _ _ _

theorem redrawn_revises {q : Prototype} {d : Draft} (h : e.world.heap.Grows d.heap) :
    e.Revises (e.redrawn q d) := by
  have hheap : e.Revises { e with world := { e.world with heap := d.heap } } :=
    ⟨_, _, _, rfl, h, List.prefix_rfl⟩
  exact (hheap.report _).putPrototype _

theorem loadTemplate_eq {t : Template} {p : Prototype} (hp : e.prototype? t.key = some p)
    (hkey : p.key = t.key) (hidle : p.pool = []) :
    e.loadTemplate t = ((fill t e.registry ⟨p, e.world.heap⟩).1,
      e.redrawn p (fill t e.registry ⟨p, e.world.heap⟩).2) := by
  have hfill : e.loadTemplate t = loaded (e.editBy t.key (fill t e.registry)) := rfl
  rw [hfill, editBy, hp]
  dsimp only
  rw [hidle, redrawn, hkey]
  rfl

/-- Filling the template of one of the added prototypes, which has no instances to free. -/
theorem Drafting.loadTemplate (h : Drafting keys e₀ e) (hs : e.Settled) {t : Template}
    (ht : t.key ∈ keys) : Drafting keys e₀ (e.loadTemplate t).2 := by
  cases hp : e.prototype? t.key with
  | none =>
    rw [loadTemplate_snd, Engine.editBy, hp]
    exact h
  | some p =>
    have hnamed : p.key = t.key := hs.sound.named t.key p hp
    have hfill : p.Redraws e.registry.prototypes (fill t e.registry ⟨p, e.world.heap⟩).2.prototype :=
      fill_redraws (d := ⟨p, e.world.heap⟩) (hs.sound.templates t.key p hp)
    have hkey := hfill.key.trans hnamed
    rw [loadTemplate_eq hp hnamed (h.idle t.key ht p hp)]
    refine ⟨h.graph, h.pending, h.watch, h.nextInstance, h.settings, h.catalog, h.new, ?_, ?_⟩
    · intro k hk q hq
      rw [prototype?_redrawn] at hq
      split at hq
      · cases hq
        rfl
      · exact h.idle k hk q hq
    · intro k hk
      have hne : k ≠ (fill t e.registry ⟨p, e.world.heap⟩).2.prototype.key := by
        rintro rfl
        exact hk (hkey ▸ ht)
      rw [prototype?_redrawn, if_neg hne]
      exact h.keep k hk

theorem Drafting.loadTemplate_revises (h : Drafting keys e₀ e) (hs : e.Settled) {t : Template}
    (ht : t.key ∈ keys) : e.Revises (e.loadTemplate t).2 := by
  cases hp : e.prototype? t.key with
  | none =>
    rw [loadTemplate_snd, editBy, hp]
    exact .refl e
  | some q =>
    rw [loadTemplate_eq hp (hs.sound.named t.key q hp) (h.idle t.key ht q hp)]
    have hsteps : Draft.Steps (fun _ => True) e.registry ⟨q, e.world.heap⟩
        (fill t e.registry ⟨q, e.world.heap⟩).2 := fill_steps (fun _ _ => trivial) t _ _
    exact redrawn_revises hsteps.grows

/-- What filling one template keeps is kept by filling all. -/
theorem loadAll_induct {P : Engine → Prop} {ts : List Template}
    (hP : ∀ t ∈ ts, ∀ e, P e → P (e.loadTemplate t).2) (he : P e) : P (e.loadAll ts).2 := by
  induction ts generalizing e with
  | nil => exact he
  | cons t ts ih =>
    have hfirst := hP t List.mem_cons_self e he
    rw [Engine.loadAll]
    cases hl : e.loadTemplate t with
    | mk result e₁ =>
      rw [hl] at hfirst
      cases result with
      | error err => exact hfirst
      | ok u => exact ih (fun s hs => hP s (List.mem_cons_of_mem t hs)) hfirst

/-- A document on its way into an engine: what was declared and filled so far may still be dropped. -/
structure Loads (keys : List Key) (e₀ e : Engine) : Prop where
  serves : Serves e₀ e
  drafting : Drafting keys e₀ e
  revises : e₀.Revises e

theorem Loads.loadAll (h : Loads keys e₀ e) {ts : List Template} (hts : ∀ t ∈ ts, t.key ∈ keys) :
    Loads keys e₀ (e.loadAll ts).2 := by
  refine loadAll_induct (P := Loads keys e₀) (fun t ht e' h' => ?_) h
  have hs := h'.serves.settled
  exact ⟨h'.serves.trans (loadTemplate_serves hs t), h'.drafting.loadTemplate hs (hts t ht),
    h'.revises.trans (h'.drafting.loadTemplate_revises hs (hts t ht))⟩

/-- Dropping what was added gives the prototypes back as they were. -/
theorem Drafting.drop (h : Drafting keys e₀ e) :
    (e.dropPrototypes keys).registry.prototypes = e₀.registry.prototypes := by
  refine Table.ext_get? fun k => ?_
  show (keys.foldl Table.erase e.registry.prototypes).get? k = _
  rw [Table.get?_foldl_erase]
  by_cases hk : k ∈ keys
  · rw [if_pos hk]
    exact (h.new k hk).symm
  · rw [if_neg hk]
    exact h.keep k hk

theorem Drafting.report (h : Drafting keys e₀ e) (v : Event) : Drafting keys e₀ (e.report v) :=
  ⟨h.graph, h.pending, h.watch, h.nextInstance, h.settings, h.catalog, h.new, h.idle, h.keep⟩

/-- A load that failed has changed nothing that callers can notice. -/
theorem Drafting.serves_drop (h : Drafting keys e₀ e) (hs : e₀.Settled) (v : Event) :
    Serves e₀ ((e.report v).dropPrototypes keys) := by
  have ht := (h.report v).drop
  refine ⟨hs.of_eq h.graph ht h.pending h.watch h.nextInstance h.settings, h.settings, ?_, ?_⟩
  · intro k p i hp hi
    rw [prototype?, ht] at hp
    exact ⟨p, hp, hi⟩
  · intro id _
    show Graph.held? e.graph id = _
    rw [h.graph]

/-- A load that fails drops what it declared; one that succeeds keeps it. -/
theorem importProject_cases (h : e.Settled) (p : Project) :
    ∃ keys e₁, Loads keys e e₁ ∧
      ((∃ v, e₁ = ((e.declareAll p.prototypes).2.2.loadAll p.prototypes).2 ∧
          e.importProject p = (.ok (), e₁.report v)) ∨
        ∃ err v, e.importProject p = (.error err, (e₁.report v).dropPrototypes keys)) := by
  obtain ⟨hs, hdraft, hkeys⟩ := declareAll_spec h p.prototypes
  have hloads : Loads _ e _ := ⟨hs, hdraft, declareAll_revises e p.prototypes⟩
  unfold importProject
  generalize e.declareAll p.prototypes = declared at hkeys hloads ⊢
  obtain ⟨result, keys, e₁⟩ := declared
  dsimp only at hkeys hloads ⊢
  cases result with
  | error err => exact ⟨keys, e₁, hloads, .inr ⟨err, _, rfl⟩⟩
  | ok u =>
    have hall := hloads.loadAll (hkeys u rfl)
    dsimp only
    generalize e₁.loadAll p.prototypes = loaded at hall ⊢
    obtain ⟨result, e₂⟩ := loaded
    cases result with
    | error err => exact ⟨keys, e₂, hall, .inr ⟨err, _, rfl⟩⟩
    | ok u => exact ⟨keys, e₂, hall, .inl ⟨_, rfl, rfl⟩⟩

theorem importProject_serves (h : e.Settled) (p : Project) : Serves e (e.importProject p).2 := by
  obtain ⟨keys, e₁, hload, ⟨v, -, hok⟩ | ⟨err, v, hfail⟩⟩ := importProject_cases h p
  · rw [hok]
    exact hload.serves.trans (serves_world hload.serves.settled _)
  · rw [hfail]
    exact hload.drafting.serves_drop h v

end Engine

end PulseFlow
