import PulseFlow.Proofs.Numbering

/-!
# Saving a project and loading it again

All prototypes of a project are declared before any template is filled, so each template is filled
while every key it may refer to stands for as many inputs and outputs as before (`Underway`).

The document names a node by its key.  A logic that was put into a template as it is, and not by its
key, would not be found again; so nodes have to get into templates by their names (`Scope.byName`).
Then the document can be loaded into any engine with the same catalog and no prototypes, which has
the same templates afterwards, but for the numbers of their nodes (`Reproduces`).
-/

namespace PulseFlow

open Document

/-! ## Names that can be resolved -/

/-- Nodes are made from their names as they were, if each key still stands for the same number of
inputs and outputs. -/
theorem Prototype.WellMade.nameable {p : Prototype} {r r' : Registry}
    (h : p.WellMade r.prototypes) (hf : p.Filed r.catalog)
    (hapart : ∀ k l, r.catalog.get? k = some l → r.prototypes.get? k = none)
    (hcat : r'.catalog = r.catalog)
    (harity : ∀ k a, Prototypes.arity? r.prototypes k = some a →
      Prototypes.arity? r'.prototypes k = some a) : p.Nameable r' := by
  intro id n hn hinner hconst heap
  cases hb : n.body with
  | native l =>
    obtain ⟨hi, ho, ⟨v, rfl⟩ | hl⟩ := hf id n hn hinner l hb
    · rw [hb] at hconst
      cases hconst
    · have hdup : l.duplicate heap = (l, heap) := by
        rw [hb] at hconst
        cases l with
        | constant v => cases hconst
        | _ => rfl
      refine ⟨Node.native l, heap, ?_, ⟨hb.symm, ?_, ?_⟩, Node.leadsTo_make _ _ _ _ _⟩
      · have hkey : n.key = l.key := by rw [Node.key, hb, Body.key]
        rw [Registry.makeNode, Catalog.create?, hcat, hkey, hl, Option.map_some, hdup]
      · exact List.length_replicate.trans hi.symm
      · exact List.length_replicate.trans ho.symm
  | reference k i =>
    have hunbound : i = none := by
      have hnone := h.unbound id n hn
      rwa [Node.instance?, hb] at hnone
    subst hunbound
    have hold := h.registered id n hn k none hb
    obtain ⟨p, hp, -⟩ := Option.map_eq_some_iff.1 hold
    obtain ⟨q, hq, hsize⟩ := Option.map_eq_some_iff.1 (harity k _ hold)
    obtain ⟨hi, ho⟩ := Prod.mk.inj hsize
    have hfree : r.catalog.get? k = none := by
      cases hl : r.catalog.get? k with
      | none => rfl
      | some l =>
        rw [hapart k l hl] at hp
        cases hp
    refine ⟨Node.reference k q.inputs.length q.outputs.length, heap, ?_, ⟨hb.symm, ?_, ?_⟩,
      Node.leadsTo_make _ _ _ _ _⟩
    · have hkey : n.key = k := by rw [Node.key, hb, Body.key]
      rw [Registry.makeNode, Catalog.create?, hcat, hkey, hfree, Option.map_none, hq]
    · exact List.length_replicate.trans hi
    · exact List.length_replicate.trans ho

/-- What loading the document of a template gives: the same template, with its nodes numbered as they
stand in the document. -/
def Prototype.Reloads (p q : Prototype) : Prop :=
  ∃ t f, p.save = .ok t ∧ p.IsomorphicBy q f ∧ p.Follows t f

/-- A template that has only its placeholders, as many as another has. -/
structure Prototype.Outlined (p q : Prototype) : Prop where
  declared : q.Declared
  key : q.key = p.key
  inputs : q.inputs.length = p.inputs.length
  outputs : q.outputs.length = p.outputs.length
  idle : q.pool = []

namespace Engine

variable {e b b' : Engine} {p : Prototype} {t : Template} {k : Key}

/-! ## Templates -/

/-- The same keys, each with a template that is the same but for the numbers of its nodes. -/
def Reproduces (e b : Engine) : Prop :=
  ∀ k, Option.Rel (fun p q => ∃ f, p.IsomorphicBy q f) (e.prototype? k) (b.prototype? k)

/-- An engine with the same keys, in which the templates for `todo` are still to be filled. -/
structure Underway (e : Engine) (todo : List Key) (b : Engine) : Prop where
  catalog : b.registry.catalog = e.registry.catalog
  templates : ∀ k, Option.Rel (fun p q => if k ∈ todo then p.Outlined q else p.Reloads q)
    (e.prototype? k) (b.prototype? k)

theorem Underway.get {todo : List Key} (h : Underway e todo b) (hp : e.prototype? k = some p) :
    ∃ q, b.prototype? k = some q ∧ if k ∈ todo then p.Outlined q else p.Reloads q := by
  have hrel := h.templates k
  rw [hp] at hrel
  generalize b.prototype? k = o at hrel
  cases hrel with
  | some hpq => exact ⟨_, rfl, hpq⟩

/-- All the while each key stands for the same number of inputs and outputs. -/
theorem Underway.arity {todo : List Key} (h : Underway e todo b) {a : Nat × Nat}
    (ha : Prototypes.arity? e.registry.prototypes k = some a) :
    Prototypes.arity? b.registry.prototypes k = some a := by
  obtain ⟨p, hp, rfl⟩ := Option.map_eq_some_iff.1 ha
  obtain ⟨q, hq, hpq⟩ := h.get hp
  have hsize : q.inputs.length = p.inputs.length ∧ q.outputs.length = p.outputs.length := by
    split at hpq
    · exact ⟨hpq.inputs, hpq.outputs⟩
    · obtain ⟨t, f, -, hf, -⟩ := hpq
      rw [hf.inputs, hf.outputs, List.length_map, List.length_map]
      exact ⟨rfl, rfl⟩
  refine Option.map_eq_some_iff.2 ⟨q, hq, ?_⟩
  rw [hsize.1, hsize.2]

/-- One template more is filled. -/
theorem Underway.loadTemplate {todo : List Key} (h : Underway e (k :: todo) b) (hk : k ∉ todo)
    (hsound : Sound (.rest e)) (hfiled : e.Filed) (hdrawn : e.Drawn)
    (hp : e.prototype? k = some p) (hsave : p.save = .ok t) :
    ∃ b', b.loadTemplate t = (.ok (), b') ∧ Underway e todo b' := by
  have hs := Prototype.save_saves hsave
  have hkey : p.key = k := hsound.named k p hp
  obtain ⟨q, hq, hpq⟩ := h.get hp
  rw [if_pos List.mem_cons_self] at hpq
  have hnames : p.Nameable b.registry :=
    (hsound.templates k p hp).nameable (hfiled.templates k p hp) hfiled.apart h.catalog
      fun _ _ => h.arity
  obtain ⟨d, hload, f, hiso, hfollows⟩ := hs.load_follows (hdrawn k p hp)
    (h.catalog ▸ hfiled.templates k p hp) hnames (d := ⟨q, b.world.heap⟩) hpq.declared hpq.key
    hpq.inputs hpq.outputs
  let filled : Prototype := { d.prototype with revision := q.revision + 1, pool := [] }
  let b' := (Engine.report { b with world := { b.world with heap := d.heap } }
    (.edited k (q.revision + 1) 0)).putPrototype filled
  have hfilled : p.IsomorphicBy filled f :=
    ⟨⟨hiso.key, hiso.canvas, hiso.bijOn, hiso.inputs, hiso.outputs, hiso.node⟩, hiso.placement,
      hiso.leads⟩
  have hget : ∀ j, b'.prototype? j = if j = k then some filled else b.prototype? j := fun j => by
    rw [← hkey, ← hfilled.key]
    exact Table.get?_insert _ _ _ _
  refine ⟨b', ?_, h.catalog, fun j => ?_⟩
  · rw [Engine.loadTemplate, Engine.editBy, hs.key, hkey, hq]
    dsimp only
    rw [hload, hpq.idle]
    rfl
  · rw [hget]
    by_cases hj : j = k
    · rw [if_pos hj, hj, hp]
      refine .some ?_
      rw [if_neg hk]
      exact ⟨t, f, hsave, hfilled, hfollows⟩
    · rw [if_neg hj]
      have hrel := h.templates j
      simpa only [List.mem_cons, hj, false_or] using hrel

theorem Underway.loadAll {ps : List Prototype} {ts : List Template}
    (h : Underway e (ps.map Prototype.key) b) (hkeys : (ps.map Prototype.key).Nodup)
    (hsound : Sound (.rest e)) (hfiled : e.Filed) (hdrawn : e.Drawn)
    (hps : ∀ p ∈ ps, e.prototype? p.key = some p)
    (hts : List.Forall₂ (fun p t => p.save = .ok t) ps ts) :
    ∃ b', b.loadAll ts = (.ok (), b') ∧ Underway e [] b' := by
  induction hts generalizing b with
  | nil => exact ⟨b, rfl, h⟩
  | @cons p t ps ts hp _ ih =>
    obtain ⟨hkey, hkeys⟩ := List.nodup_cons.1 hkeys
    obtain ⟨b₁, h₁, hunder⟩ := Underway.loadTemplate h hkey hsound hfiled hdrawn
      (hps p List.mem_cons_self) hp
    obtain ⟨b₂, h₂, hall⟩ := ih hunder hkeys fun q hq => hps q (List.mem_cons_of_mem p hq)
    refine ⟨b₂, ?_, hall⟩
    rw [Engine.loadAll, h₁]
    exact h₂

/-! ## Projects -/

/-- The prototypes of an engine, in the order of their keys. -/
theorem mem_prototypes (h : Sound (.rest e)) :
    p ∈ e.registry.prototypes.values ↔ e.prototype? p.key = some p := by
  rw [prototype?, Table.get?_eq_some_iff, Table.values, List.mem_map]
  constructor
  · rintro ⟨⟨k, p'⟩, hmem, rfl⟩
    have hnamed : p'.key = k := h.named k p' (Table.get?_eq_some_iff.2 hmem)
    exact hnamed ▸ hmem
  · intro hmem
    exact ⟨(p.key, p), hmem, rfl⟩

theorem nodup_prototypes (h : Sound (.rest e)) :
    (e.registry.prototypes.values.map Prototype.key).Nodup := by
  have hkeys : e.registry.prototypes.values.map Prototype.key = e.registry.prototypes.keys := by
    rw [Table.values, Table.keys, List.map_map]
    exact List.map_congr_left fun x hx =>
      h.named x.1 x.2 (Table.get?_eq_some_iff.2 hx)
  rw [hkeys]
  exact e.registry.prototypes.increasing.nodup

theorem map_key_of_saves {ps : List Prototype} {ts : List Template}
    (h : List.Forall₂ Prototype.Saves ps ts) : ps.map Prototype.key = ts.map Template.key := by
  induction h with
  | nil => rfl
  | cons hp _ ih => rw [List.map_cons, List.map_cons, hp.key, ih]

/-- Declared and not yet filled, an engine has the same keys. -/
theorem underway_of_declared {ps : List Prototype}
    (hps : ∀ p, p ∈ ps ↔ e.prototype? p.key = some p)
    (hnamed : ∀ k p, e.prototype? k = some p → p.key = k)
    (hcat : b.registry.catalog = e.registry.catalog)
    (hall : ∀ p ∈ ps, b.prototype? p.key =
      some (Prototype.declare p.key p.inputs.length p.outputs.length))
    (hnone : ∀ k, k ∉ ps.map Prototype.key → b.prototype? k = none) :
    Underway e (ps.map Prototype.key) b := by
  refine ⟨hcat, fun k => ?_⟩
  cases hp : e.prototype? k with
  | none =>
    have hk : k ∉ ps.map Prototype.key := fun hk => by
      obtain ⟨p, hmem, rfl⟩ := List.mem_map.1 hk
      rw [(hps p).1 hmem] at hp
      cases hp
    rw [hnone k hk]
    exact .none
  | some p =>
    have hkey := hnamed k p hp
    subst hkey
    have hmem : p ∈ ps := (hps p).2 hp
    rw [hall p hmem]
    refine .some ?_
    rw [if_pos (List.mem_map_of_mem hmem)]
    exact ⟨Prototype.declared_declare _ _ _, rfl, Prototype.length_addPlaceholders _ _,
      Prototype.length_addPlaceholders _ _, rfl⟩

/-- The document of an engine, loaded into one with the same catalog and no prototypes. -/
theorem importProject_reloads {d : Project} (hsound : Sound (.rest e)) (hfiled : e.Filed)
    (hdrawn : e.Drawn) (hd : e.exportProject = .ok d)
    (hb : b.registry = { catalog := e.registry.catalog }) :
    (b.importProject d).1 = .ok () ∧ Underway e [] (b.importProject d).2 := by
  obtain ⟨ts, hts, hd⟩ := ok_of_bind hd
  cases hd
  have hsaved := forall₂_of_mapM hts
  have hsaves : List.Forall₂ Prototype.Saves e.registry.prototypes.values ts :=
    hsaved.imp fun _ _ => Prototype.save_saves
  have hps : ∀ p, p ∈ e.registry.prototypes.values ↔ e.prototype? p.key = some p :=
    fun p => mem_prototypes hsound
  have hkeys := nodup_prototypes hsound
  have hnew : ∀ p ∈ e.registry.prototypes.values, b.registry.contains p.key = false := by
    intro p hp
    rw [hb]
    show (e.registry.catalog.contains p.key || false) = false
    rw [Bool.or_false, Table.contains]
    cases hl : e.registry.catalog.get? p.key with
    | none => rfl
    | some l =>
      have hnone := hfiled.apart p.key l hl
      rw [(hps p).1 hp] at hnone
      cases hnone
  have hnames := map_key_of_saves hsaves
  have hfresh : ∀ t ∈ ts, b.registry.contains t.key = false := fun t ht => by
    obtain ⟨p, hp, hs⟩ := exists_mem_of_forall₂_right hsaves ht
    rw [hs.key]
    exact hnew p hp
  obtain ⟨keys, b₁, h₁, hout⟩ := declareAll_ok (hnames ▸ hkeys) hfresh
  have hall : ∀ p ∈ e.registry.prototypes.values, b₁.prototype? p.key =
      some (Prototype.declare p.key p.inputs.length p.outputs.length) := fun p hp => by
    obtain ⟨t, ht, hs⟩ := exists_mem_of_forall₂ hsaves hp
    rw [← hs.key, hout.new t ht, hs.inputs.length_eq, hs.outputs.length_eq]
  have hunder : Underway e (e.registry.prototypes.values.map Prototype.key) b₁ := by
    refine underway_of_declared hps hsound.named ?_ hall fun k hk => ?_
    · rw [hout.catalog, hb]
    · rw [hout.keep k (hnames ▸ hk), prototype?, hb]
      rfl
  obtain ⟨b₂, h₂, hall⟩ := hunder.loadAll hkeys hsound hfiled hdrawn
    (fun p hp => (hps p).1 hp) hsaved
  have himport : b.importProject ⟨ts⟩ = (.ok (), b₂.report (.imported ts.length)) := by
    rw [importProject, h₁]
    dsimp only
    rw [h₂]
  rw [himport]
  exact ⟨rfl, hall.catalog, hall.templates⟩

theorem importProject_exported {d : Project} (hsound : Sound (.rest e)) (hfiled : e.Filed)
    (hdrawn : e.Drawn) (hd : e.exportProject = .ok d)
    (hb : b.registry = { catalog := e.registry.catalog }) :
    (b.importProject d).1 = .ok () ∧ e.Reproduces (b.importProject d).2 := by
  obtain ⟨hok, hall⟩ := importProject_reloads hsound hfiled hdrawn hd hb
  refine ⟨hok, fun k => ?_⟩
  cases hp : e.prototype? k with
  | none =>
    have hrel := hall.templates k
    rw [hp] at hrel
    generalize (b.importProject d).2.prototype? k = o at hrel
    cases hrel
    exact .none
  | some p =>
    obtain ⟨q, hq, t, f, -, hiso, -⟩ := hall.get hp
    rw [hq]
    exact .some ⟨f, hiso⟩

/-- Where nodes get into templates by their names, a project that can be saved can be loaded. -/
theorem reproduces_after (settings : Settings) (console : Console) (commands : List Command)
    (hnames : (fresh settings console).Within .byName commands) (d : Project)
    (hd : ((fresh settings console).after commands).exportProject = .ok d) (b : Engine)
    (hb : b.registry =
      { catalog := ((fresh settings console).after commands).registry.catalog }) :
    (b.importProject d).1 = .ok () ∧
      ((fresh settings console).after commands).Reproduces (b.importProject d).2 := by
  have hsettled := fresh_settled settings console
  have hchanges : Changes .byName (fresh settings console) _ :=
    after_changes (fun _ ha => ha) trivial hsettled hnames
  obtain ⟨hfiled, hdrawn⟩ := hchanges.induct (P := fun e => e.Filed ∧ e.Drawn)
    (fun h _ hc he => ⟨hc.filed h he.1, hc.drawn h he.2⟩)
    ⟨filed_fresh settings console, drawn_fresh settings console⟩
  exact importProject_exported (settled_after settings console commands).sound hfiled hdrawn hd hb

def scaleKey : Key := ⟨"User", "Scale"⟩

/-- The constant stands before the named nodes here and after them in a document, so nodes get other
numbers. -/
def scaleCourse : Edit Unit :=
  .act (.addLogic (.constant (.int 2))) fun _ =>
  .act (.add ⟨"Math", "Multiply"⟩) fun _ =>
  .act (.add scaleKey) fun _ =>
  .act (.connect ⟨0, 0⟩ ⟨2, 0⟩) fun _ =>
  .act (.connect ⟨0, 0⟩ ⟨3, 0⟩) fun _ =>
  .act (.connect ⟨2, 0⟩ ⟨3, 1⟩) fun _ =>
  .act (.connect ⟨3, 0⟩ ⟨1, 0⟩) fun _ =>
  .act (.connect ⟨4, 0⟩ ⟨4, 0⟩) fun _ =>
  .act (.place 3 ⟨40, 60⟩) fun _ =>
  .act (.setCanvas ⟨1024, 768⟩) fun _ =>
  .finish ()

def scaleSession : List Command := [.call (.register scaleKey 1 1 scaleCourse)]

theorem within_scaleSession : (fresh {} (.script {})).Within .byName scaleSession := by
  refine ⟨fun p _ => ?_, trivial⟩
  exact ⟨⟨.int 2, rfl⟩, trivial, trivial, trivial, trivial, trivial, trivial, trivial, trivial,
    trivial, trivial⟩

theorem exports_scaleSession :
    ∃ d, ((fresh {} (.script {})).after scaleSession).exportProject = .ok d := by
  have hok : ((fresh {} (.script {})).after scaleSession).exportProject.isOk = true := by
    decide +kernel
  cases hd : ((fresh {} (.script {})).after scaleSession).exportProject with
  | error err =>
    rw [hd] at hok
    cases hok
  | ok d => exact ⟨d, rfl⟩

theorem reproduces_after_scale :
    ∃ d, ((fresh {} (.script {})).after scaleSession).exportProject = .ok d ∧
      ((fresh {} (.script {})).importProject d).1 = .ok () ∧
      ((fresh {} (.script {})).after scaleSession).Reproduces
        ((fresh {} (.script {})).importProject d).2 := by
  obtain ⟨d, hd⟩ := exports_scaleSession
  exact ⟨d, hd, reproduces_after {} (.script {}) scaleSession within_scaleSession d hd _ rfl⟩

end Engine

end PulseFlow
