import PulseFlow.Proofs.RoundTrip

/-!
# Saving again what was loaded

Loading a document and saving it again (`resave`) renumbers nodes: the constants come after the
nodes known by their names, whatever order they were made in.  Done once more it changes nothing, as
nodes that stand in the order of the document keep their numbers (`Arranged.fixed`), and templates
that differ in no number have the same document.

    p.IsomorphicBy q f → (∀ a, f a = a) → q.save = p.save                  (IsomorphicBy.save_eq)
    e.exportProject = .ok d → ∃ d', b.resave d = .ok d' ∧ b'.resave d' = .ok d'    (resave_fixed)
-/

namespace PulseFlow

open Document

/-- A value that has a form in a document. -/
def Signal.Storable : Signal → Prop
  | .real v => Decimal.isFinite v = true
  | .array _ => False
  | _ => True

theorem mapM_ok {α β : Type} {f : α → Except Error β} {l : List α}
    (h : ∀ a ∈ l, ∃ b, f a = .ok b) : ∃ l', l.mapM f = .ok l' := by
  induction l with
  | nil => exact ⟨[], rfl⟩
  | cons a l ih =>
    obtain ⟨b, hb⟩ := h a List.mem_cons_self
    obtain ⟨l', hl'⟩ := ih fun a' ha' => h a' (List.mem_cons_of_mem a ha')
    refine ⟨b :: l', ?_⟩
    rw [List.mapM_cons, hb, hl']
    rfl

/-- A fold succeeds if each of its steps does, whatever came before. -/
theorem foldlM_succeeds {α σ : Type} {f : σ → α → Except Error σ} {l : List α}
    (h : ∀ a ∈ l, ∀ s, ∃ s', f s a = .ok s') (s : σ) : ∃ s', l.foldlM f s = .ok s' := by
  induction l generalizing s with
  | nil => exact ⟨s, rfl⟩
  | cons a l ih =>
    obtain ⟨s₁, hs₁⟩ := h a List.mem_cons_self s
    rw [List.foldlM_cons, hs₁]
    exact ih (fun b hb => h b (List.mem_cons_of_mem a hb)) s₁

/-! ## Templates with the same numbers -/

namespace Prototype

variable {p q : Prototype} {t : Template} {f : NodeId → NodeId} {a : NodeId} {n m : Node}

/-- No node of the template is renamed. -/
def Fixes (p : Prototype) (f : NodeId → NodeId) : Prop := ∀ a n, p.graph.get? a = some n → f a = a

theorem SameNodes.live_eq (h : p.SameNodes q f) (hfix : p.Fixes f) (a : NodeId) :
    (q.graph.get? a).isSome = (p.graph.get? a).isSome := by
  rw [Bool.eq_iff_iff]
  have himage := Set.ext_iff.1 h.bijOn.image_eq a
  constructor
  · intro ha
    obtain ⟨b, hb, hba⟩ := himage.2 ha
    obtain ⟨n, hn⟩ := Option.isSome_iff_exists.1 hb
    rwa [← hba, hfix b n hn]
  · intro ha
    obtain ⟨n, hn⟩ := Option.isSome_iff_exists.1 ha
    exact himage.1 ⟨a, ha, hfix a n hn⟩

theorem SameNodes.boundary_eq (h : p.SameNodes q f) (hfix : p.Fixes f) (hp : p.Drawn) :
    q.inputs = p.inputs ∧ q.outputs = p.outputs := by
  have hmap : ∀ ids : List NodeId, (∀ b ∈ ids, b ∈ p.inputs ++ p.outputs) → ids.map f = ids := by
    intro ids hids
    calc ids.map f = ids.map id := List.map_congr_left fun b hb => by
          obtain ⟨n, hn, -⟩ := hp.sockets b (hids b hb)
          exact hfix b n hn
      _ = ids := List.map_id ids
  rw [h.inputs, h.outputs]
  exact ⟨hmap _ fun b hb => List.mem_append_left _ hb,
    hmap _ fun b hb => List.mem_append_right _ hb⟩

theorem SameNodes.saveOrder_eq (h : p.SameNodes q f) (hfix : p.Fixes f) (hp : p.Drawn) :
    q.innerNodes = p.innerNodes ∧ q.saveOrder = p.saveOrder := by
  obtain ⟨hin, hout⟩ := h.boundary_eq hfix hp
  have hids : q.graph.ids = p.graph.ids :=
    q.graph.increasing_ids.eq_of_mem_iff p.graph.increasing_ids fun a => by
      rw [Slots.mem_ids, Slots.mem_ids, h.live_eq hfix]
  have hinner : q.innerNodes = p.innerNodes := by
    unfold innerNodes isBoundary
    rw [hids, hin, hout]
  exact ⟨hinner, by rw [saveOrder, saveOrder, hinner, hin, hout]⟩

theorem IsomorphicBy.leads_iff (h : p.IsomorphicBy q f) (hfix : p.Fixes f) (hp : p.Drawn)
    {source target : Socket} :
    Graph.Leads q.graph source target ↔ Graph.Leads p.graph source target := by
  have hrename : ∀ s t, Graph.Leads p.graph s t → s.rename f = s ∧ t.rename f = t := by
    intro s t hl
    obtain ⟨n, hn⟩ := hl.live
    obtain ⟨m, hm⟩ := (hp.plugged s t hl).live
    simp [Socket.rename, hfix _ n hn, hfix _ m hm]
  rw [h.leads]
  constructor
  · rintro ⟨s, t, hl, rfl, rfl⟩
    rwa [(hrename s t hl).1, (hrename s t hl).2]
  · intro hl
    exact ⟨source, target, hl, (hrename _ _ hl).1.symm, (hrename _ _ hl).2.symm⟩

/-- Nodes lead to the same sockets. -/
theorem IsomorphicBy.outputs_eq (h : p.IsomorphicBy q f) (hfix : p.Fixes f) (hp : p.Drawn)
    (hn : p.graph.get? a = some n) :
    ∃ m, q.graph.get? a = some m ∧ m.body = n.body ∧ m.outputs = n.outputs := by
  obtain ⟨m, hm, htwin⟩ := h.node a n hn
  rw [hfix a n hn] at hm
  refine ⟨m, hm, htwin.body, List.ext_getElem htwin.outputs fun k hk hk' => ?_⟩
  apply SortedSet.ext_mem
  intro s
  have hq := Graph.leads_of_get? (s := ⟨a, k⟩) (t := s) hm
  have hp : Graph.Leads q.graph ⟨a, k⟩ s ↔ ∃ f, n.fan? k = some f ∧ s ∈ f :=
    (h.leads_iff hfix hp).trans (Graph.leads_of_get? (s := ⟨a, k⟩) hn)
  have hfan : m.fan? k = some m.outputs[k] := List.getElem?_eq_getElem hk
  have hfan' : n.fan? k = some n.outputs[k] := List.getElem?_eq_getElem hk'
  simpa [hfan, hfan'] using hq.symm.trans hp

/-- Templates that differ in no number have the same document. -/
theorem IsomorphicBy.save_eq (h : p.IsomorphicBy q f) (hfix : p.Fixes f) (hp : p.Drawn) :
    q.save = p.save := by
  obtain ⟨hin, hout⟩ := h.boundary_eq hfix hp
  obtain ⟨hinner, horder⟩ := h.saveOrder_eq hfix hp
  have hfan : q.saveFan = p.saveFan := by
    unfold saveFan saveIndex?
    rw [horder]
  have hnode : q.saveNode = p.saveNode := by
    funext a
    unfold saveNode
    cases hn : p.graph.get? a with
    | none =>
      have hlive := h.live_eq hfix a
      rw [hn, Option.isSome_none, Option.isSome_eq_false_iff, Option.isNone_iff_eq_none] at hlive
      rw [Graph.find, Graph.find, hn, hlive]
      rfl
    | some n =>
      obtain ⟨m, hm, -, houtputs⟩ := h.outputs_eq hfix hp hn
      have hspot : q.placement a = p.placement a := by
        rw [← h.placement a n hn, hfix a n hn]
      unfold saveIndex?
      rw [Graph.find, Graph.find, hn, hm, hspot, hfan, horder]
      simp only [bind, Except.bind, houtputs]
  have hentry : q.saveInner = p.saveInner := by
    funext nodes a
    unfold saveInner
    rw [hnode, h.key]
    cases hn : p.graph.get? a with
    | none =>
      have hlive := h.live_eq hfix a
      rw [hn, Option.isSome_none, Option.isSome_eq_false_iff, Option.isNone_iff_eq_none] at hlive
      rw [Graph.find, Graph.find, hn, hlive]
    | some n =>
      obtain ⟨m, hm, hbody, -⟩ := h.outputs_eq hfix hp hn
      rw [Graph.find, Graph.find, hn, hm]
      simp only [bind, Except.bind, hbody, Node.key]
  unfold save
  rw [hin, hout, hinner, hnode, hentry, h.key, h.canvas]

/-! ## Templates that can be saved -/

theorem saveInner_storable {nodes nodes' : InnerNodes} (h : p.saveInner nodes a = .ok nodes')
    {v : Signal} (hv : p.constant? a = some v) : v.Storable := by
  obtain ⟨x, -, h⟩ := ok_of_bind h
  obtain ⟨n, hn, h⟩ := ok_of_bind h
  rw [constant?, Graph.find_ok hn, Option.bind_some] at hv
  rw [hv] at h
  cases v with
  | real v =>
    by_contra hfinite
    have hfinite : Decimal.isFinite v = false := by simpa [Signal.Storable] using hfinite
    simp only [hfinite] at h
    cases h
  | array i => cases h
  | _ => trivial

theorem saveNode_ok (hn : p.graph.get? a = some n) : ∃ x, p.saveNode a = .ok x := by
  rw [saveNode, Graph.find, hn]
  exact ⟨_, rfl⟩

theorem saveInner_ok (hn : p.graph.get? a = some n)
    (hv : ∀ v, p.constant? a = some v → v.Storable) (nodes : InnerNodes) :
    ∃ nodes', p.saveInner nodes a = .ok nodes' := by
  obtain ⟨x, hx⟩ := saveNode_ok hn
  have hfind : Graph.find p.graph a = .ok n := by rw [Graph.find, hn]
  rw [constant?, hn, Option.bind_some] at hv
  rw [saveInner, hx, hfind]
  cases hc : n.body.constant? with
  | none => exact ⟨_, by simp only [bind, Except.bind, hc]; rfl⟩
  | some v =>
    have hv := hv v hc
    cases v with
    | real v =>
      have hv : Decimal.isFinite v = true := hv
      exact ⟨_, by simp only [bind, Except.bind, hc, hv]; rfl⟩
    | array i => exact hv.elim
    | _ => exact ⟨_, by simp only [bind, Except.bind, hc]; rfl⟩

/-- A template can be saved if every constant in it has a form in a document. -/
theorem save_ok_iff (hp : p.Drawn) : (∃ t, p.save = .ok t) ↔
    ∀ a ∈ p.innerNodes, ∀ v, p.constant? a = some v → v.Storable := by
  constructor
  · rintro ⟨t, h⟩
    obtain ⟨inputs, -, h⟩ := ok_of_bind h
    obtain ⟨outputs, -, h⟩ := ok_of_bind h
    obtain ⟨nodes, h, -⟩ := ok_of_bind h
    generalize p.innerNodes = ids at h
    generalize ({} : InnerNodes) = start at h
    induction ids generalizing start with
    | nil => exact fun a ha => absurd ha List.not_mem_nil
    | cons b ids ih =>
      rw [List.foldlM_cons] at h
      obtain ⟨nodes₁, hb, h⟩ := ok_of_bind h
      intro a ha v hv
      rcases List.mem_cons.1 ha with rfl | ha
      · exact saveInner_storable hb hv
      · exact ih nodes₁ h a ha v hv
  · intro hv
    have hmap : ∀ ids : List NodeId, (∀ a ∈ ids, a ∈ p.inputs ++ p.outputs) →
        ∃ xs, ids.mapM p.saveNode = .ok xs := fun ids hids => mapM_ok fun a ha => by
      obtain ⟨n, hn, -⟩ := hp.sockets a (hids a ha)
      exact saveNode_ok hn
    obtain ⟨inputs, hin⟩ := hmap p.inputs fun a ha => List.mem_append_left _ ha
    obtain ⟨outputs, hout⟩ := hmap p.outputs fun a ha => List.mem_append_right _ ha
    have hstep : ∀ a ∈ p.innerNodes, ∀ nodes, ∃ nodes', p.saveInner nodes a = .ok nodes' := by
      intro a ha nodes
      obtain ⟨n, hn⟩ := Option.isSome_iff_exists.1 (mem_innerNodes.1 ha).1
      exact saveInner_ok hn (hv a ha) nodes
    obtain ⟨nodes, hnodes⟩ := foldlM_succeeds hstep {}
    refine ⟨{ key := p.key, canvas := p.canvas, inputs, outputs, nodes }, ?_⟩
    rw [save, hin, hout, hnodes]
    rfl

/-- What was loaded can be saved. -/
theorem Reloads.save_ok (h : p.Reloads q) (hp : p.Drawn) (hq : q.Drawn) :
    ∃ t, q.save = .ok t := by
  obtain ⟨t, f, hsave, hiso, -⟩ := h
  have hp := (save_ok_iff hp).1 ⟨t, hsave⟩
  refine (save_ok_iff hq).2 fun a ha v hv => ?_
  obtain ⟨hlive, hinner⟩ := mem_innerNodes.1 ha
  obtain ⟨b, hb, rfl⟩ := hiso.bijOn.surjOn hlive
  obtain ⟨n, hn⟩ := Option.isSome_iff_exists.1 hb
  rw [hiso.constant?_eq hn] at hv
  refine hp b (mem_innerNodes.2 ⟨hb, ?_⟩) v hv
  rw [← Bool.not_eq_true, isBoundary_iff] at hinner ⊢
  rw [hiso.inputs, hiso.outputs, ← List.map_append] at hinner
  exact fun hmem => hinner (List.mem_map_of_mem hmem)

/-- Loaded once more, a template that was loaded has the same document. -/
theorem Reloads.save_eq {r : Prototype} (h : p.Reloads q) (h' : q.Reloads r) (hp : p.Drawn)
    (hq : q.Drawn) : r.save = q.save := by
  obtain ⟨t, f, hsave, hiso, hfollows⟩ := h
  obtain ⟨t', f', hsave', hiso', hfollows'⟩ := h'
  have harranged := (save_saves hsave).arranged hp hiso.toSameNodes hfollows
  exact hiso'.save_eq (fun a n hn => harranged.fixed hq hsave' hfollows' hn) hq

end Prototype

/-! ## Projects -/

/-- Tables with the same keys, walked together. -/
theorem Table.forall₂_values {κ α β : Type} [Ord κ] [Std.TransOrd κ] [Std.LawfulEqOrd κ]
    {R : α → β → Prop} {t : Table κ α} {u : Table κ β}
    (h : ∀ k, Option.Rel R (t.get? k) (u.get? k)) : List.Forall₂ R t.values u.values := by
  have hsome : ∀ k, (t.get? k).isSome = (u.get? k).isSome := fun k => by
    have hk := h k
    generalize t.get? k = o at hk
    generalize u.get? k = o' at hk
    cases hk <;> rfl
  have hmem : ∀ k, k ∈ t.keys ↔ k ∈ u.keys := fun k => by
    have ht : k ∈ t.keys ↔ (t.get? k).isSome = true := by
      simp [keys, Option.isSome_iff_exists, get?_eq_some_iff]
    have hu : k ∈ u.keys ↔ (u.get? k).isSome = true := by
      simp [keys, Option.isSome_iff_exists, get?_eq_some_iff]
    rw [ht, hu, hsome]
  have hkeys : t.keys = u.keys := t.increasing.eq_of_mem_iff u.increasing hmem
  have hlen : t.entries.length = u.entries.length := by
    simpa [keys] using congrArg List.length hkeys
  unfold values
  rw [List.forall₂_map_left_iff, List.forall₂_map_right_iff, List.forall₂_iff_get]
  refine ⟨hlen, fun i hi hi' => ?_⟩
  have hkey : t.entries[i].1 = u.entries[i].1 := by
    have hget := List.getElem_of_eq hkeys (i := i) (by simpa [keys] using hi)
    simpa [keys] using hget
  have hrel := h t.entries[i].1
  have ht : t.get? t.entries[i].1 = some t.entries[i].2 :=
    get?_eq_some_iff.2 (List.getElem_mem hi)
  have hu : u.get? t.entries[i].1 = some u.entries[i].2 :=
    hkey ▸ get?_eq_some_iff.2 (List.getElem_mem hi')
  rw [ht, hu] at hrel
  cases hrel with
  | some hR => exact hR

theorem mapM_congr {α β : Type} {f : α → Except Error β} {l l' : List α}
    (h : List.Forall₂ (fun a a' => f a' = f a) l l') : l'.mapM f = l.mapM f := by
  induction h with
  | nil => rfl
  | cons ha _ ih => rw [List.mapM_cons, List.mapM_cons, ha, ih]

namespace Engine

variable {e b b' : Engine} {d : Project}

/-- Loads a document and saves it again. -/
def resave (b : Engine) (d : Project) : Except Error Project :=
  match b.importProject d with
  | (.ok _, b) => b.exportProject
  | (.error err, _) => .error err

theorem resave_of_ok (h : (b.importProject d).1 = .ok ()) :
    b.resave d = (b.importProject d).2.exportProject := by
  rw [resave]
  generalize b.importProject d = loaded at h
  obtain ⟨result, e⟩ := loaded
  cases h
  rfl

/-- What a session leads to if nodes get into templates by their names. -/
structure ByName (e : Engine) : Prop where
  settled : e.Settled
  filed : e.Filed
  drawn : e.Drawn

theorem ByName.importProject (h : e.ByName) (d : Project) : (e.importProject d).2.ByName := by
  have hchanges : Changes .byName e (e.importProject d).2 :=
    importProject_changes (fun _ ha => ha) h.settled d
  obtain ⟨hfiled, hdrawn⟩ := hchanges.induct (P := fun e => e.Filed ∧ e.Drawn)
    (fun h _ hc he => ⟨hc.filed h he.1, hc.drawn h he.2⟩) ⟨h.filed, h.drawn⟩
  exact ⟨(importProject_serves h.settled d).settled, hfiled, hdrawn⟩

/-- An engine that a session leads to, with a certain catalog and no prototypes. -/
def Blank (c : Catalog) (b : Engine) : Prop :=
  b.registry = { catalog := c } ∧
    ∃ settings console commands, b = (fresh settings console).after commands

theorem Blank.byName (h : b.Blank e.registry.catalog) (he : e.Filed) : b.ByName := by
  obtain ⟨hb, settings, console, commands, rfl⟩ := h
  have hnone : ∀ k, ((fresh settings console).after commands).prototype? k = none := fun k => by
    rw [prototype?, hb]
    rfl
  refine ⟨settled_after settings console commands, ⟨?_, fun k _ _ => hnone k, fun k p hp => ?_⟩,
    fun k p hp => ?_⟩
  · rw [hb]
    exact he.selfNamed
  · rw [hnone] at hp
    cases hp
  · rw [hnone] at hp
    cases hp

/-- Each template that was loaded comes from one of the document. -/
theorem Underway.origin (h : Underway e [] b) {k : Key} {q : Prototype}
    (hq : b.prototype? k = some q) : ∃ p, e.prototype? k = some p ∧ p.Reloads q := by
  cases hp : e.prototype? k with
  | none =>
    have hrel := h.templates k
    rw [hp, hq] at hrel
    cases hrel
  | some p =>
    obtain ⟨q', hq', hreloads⟩ := h.get hp
    cases hq.symm.trans hq'
    exact ⟨p, rfl, hreloads⟩

/-- What a document leads to can be saved. -/
theorem Underway.export_ok (h : Underway e [] b) (he : e.ByName) (hb : b.ByName) :
    ∃ d, b.exportProject = .ok d := by
  obtain ⟨ts, hts⟩ := mapM_ok (f := Prototype.save) (l := b.registry.prototypes.values)
    fun q hq => by
      have hq := (mem_prototypes hb.settled.sound).1 hq
      obtain ⟨p, hp, hreloads⟩ := h.origin hq
      exact hreloads.save_ok (he.drawn _ p hp) (hb.drawn _ q hq)
  refine ⟨⟨ts⟩, ?_⟩
  rw [exportProject, hts]
  rfl

/-- Loaded twice, a project has the document it has when loaded once. -/
theorem Underway.export_eq {b₁ b₂ : Engine} (h : Underway e [] b₁) (h' : Underway b₁ [] b₂)
    (he : e.ByName) (hb : b₁.ByName) : b₂.exportProject = b₁.exportProject := by
  have hsave : List.Forall₂ (fun q r : Prototype => r.save = q.save)
      b₁.registry.prototypes.values b₂.registry.prototypes.values := by
    refine Table.forall₂_values fun k => ?_
    change Option.Rel _ (b₁.prototype? k) (b₂.prototype? k)
    have hrel := h'.templates k
    cases hq : b₁.prototype? k with
    | none =>
      rw [hq] at hrel
      generalize b₂.prototype? k = o at hrel
      cases hrel
      exact .none
    | some q =>
      obtain ⟨r, hr, hreloads'⟩ := h'.get hq
      obtain ⟨p, hp, hreloads⟩ := h.origin hq
      rw [hr]
      exact .some (hreloads.save_eq hreloads' (he.drawn k p hp) (hb.drawn k q hq))
  rw [exportProject, exportProject, mapM_congr hsave]

/-- Where nodes get into templates by their names, loading the document of a project and saving it
again gives a document that loading and saving does not change any more. -/
theorem resave_fixed (settings : Settings) (console : Console) (commands : List Command)
    (hnames : (fresh settings console).Within .byName commands) (d : Project)
    (hd : ((fresh settings console).after commands).exportProject = .ok d) (b b' : Engine)
    (hb : b.Blank ((fresh settings console).after commands).registry.catalog)
    (hb' : b'.Blank ((fresh settings console).after commands).registry.catalog) :
    ∃ d', b.resave d = .ok d' ∧ b'.resave d' = .ok d' := by
  set e := (fresh settings console).after commands
  have he : e.ByName := by
    have hchanges : Changes .byName (fresh settings console) e :=
      after_changes (fun _ ha => ha) trivial (fresh_settled settings console) hnames
    obtain ⟨hfiled, hdrawn⟩ := hchanges.induct (P := fun e => e.Filed ∧ e.Drawn)
      (fun h _ hc he => ⟨hc.filed h he.1, hc.drawn h he.2⟩)
      ⟨filed_fresh settings console, drawn_fresh settings console⟩
    exact ⟨settled_after settings console commands, hfiled, hdrawn⟩
  obtain ⟨hok, hunder⟩ := importProject_reloads he.settled.sound he.filed he.drawn hd hb.1
  have hb₁ : (b.importProject d).2.ByName := (hb.byName he.filed).importProject d
  obtain ⟨d', hd'⟩ := hunder.export_ok he hb₁
  refine ⟨d', (resave_of_ok hok).trans hd', ?_⟩
  obtain ⟨hok', hunder'⟩ := importProject_reloads (b := b') hb₁.settled.sound hb₁.filed hb₁.drawn
    hd' (by rw [hb'.1, hunder.catalog])
  rw [resave_of_ok hok', hunder.export_eq hunder' he hb₁, hd']

theorem resave_fixed_scale :
    ∃ d d', ((fresh {} (.script {})).after scaleSession).exportProject = .ok d ∧
      (fresh {} (.script {})).resave d = .ok d' ∧ (fresh {} (.script {})).resave d' = .ok d' := by
  obtain ⟨d, hd⟩ := exports_scaleSession
  have hblank : (fresh {} (.script {})).Blank
      ((fresh {} (.script {})).after scaleSession).registry.catalog :=
    ⟨rfl, {}, .script {}, [], rfl⟩
  obtain ⟨d', hd'⟩ := resave_fixed {} (.script {}) scaleSession within_scaleSession d hd _ _ hblank
    hblank
  exact ⟨d, d', hd, hd'⟩

end Engine

end PulseFlow
