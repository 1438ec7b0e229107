import PulseFlow.Proofs.Likeness
import PulseFlow.Proofs.Reloading

/-!
# Connecting what was loaded

Once a node is there for every entry, the connections are made, entry by entry.  What is drawn so
far comes from the template (`Traced`), what was drawn stays (`Extends`), and each entry adds all
that its node leads to (`Finished`).  So in the end the two templates are the same but for the
numbers of their nodes (`IsomorphicBy`).

    p.Saves t → ∃ l d', t.build r d = .ok l ∧ t.load r d = .ok d' ∧
      p.IsomorphicBy d'.prototype fun a => (l.copy? p a).getD 0                   (Saves.load_by)
-/

namespace PulseFlow

open Document

/-- A fold in which every step goes through and brings about something that lasts. -/
theorem foldlM_ok {α σ : Type} {f : σ → α → Except Error σ} {P : σ → Prop} {R : σ → σ → Prop}
    {Q : α → σ → Prop} (hrefl : ∀ s, R s s) (htrans : ∀ a b c, R a b → R b c → R a c)
    (hlast : ∀ x s s', R s s' → Q x s → Q x s') {xs : List α}
    (hstep : ∀ x ∈ xs, ∀ s, P s → ∃ s', f s x = .ok s' ∧ P s' ∧ R s s' ∧ Q x s') {s : σ}
    (hs : P s) : ∃ s', xs.foldlM f s = .ok s' ∧ P s' ∧ R s s' ∧ ∀ x ∈ xs, Q x s' := by
  induction xs generalizing s with
  | nil => exact ⟨s, rfl, hs, hrefl s, fun x hx => absurd hx List.not_mem_nil⟩
  | cons x xs ih =>
    obtain ⟨s₁, h₁, hs₁, hR₁, hQ⟩ := hstep x List.mem_cons_self s hs
    obtain ⟨s₂, h₂, hs₂, hR₂, hQs⟩ := ih (fun y hy => hstep y (List.mem_cons_of_mem x hy)) hs₁
    refine ⟨s₂, ?_, hs₂, htrans s s₁ s₂ hR₁ hR₂, fun y hy => ?_⟩
    · rw [List.foldlM_cons, h₁]
      exact h₂
    · rcases List.mem_cons.1 hy with rfl | hy
      · exact hlast y s₁ s₂ hR₂ hQ
      · exact hQs y hy

/-- A connection succeeds if both ends are there. -/
theorem Graph.connect_ok {g : Graph} {s t : Socket} {n : Node} (hn : g.get? s.node = some n)
    (hs : s.port < n.outputs.length) (ht : HasInput g t) : ∃ g', connect g s t = .ok g' := by
  obtain ⟨m, hm, htarget⟩ := ht
  have hout : checkOutput g s = .ok () := by
    simp only [checkOutput, find, hn]
    exact if_pos hs
  have hin : checkInput g t = .ok () := by
    simp only [checkInput, find, hm]
    exact if_pos htarget
  rw [connect, hout, hin]
  exact ⟨_, rfl⟩

/-! ## Templates that are the same but for the numbers of their nodes -/

/-- Two templates have the same nodes, if node `id` is renamed to `f id`. -/
structure Prototype.SameNodes (p q : Prototype) (f : NodeId → NodeId) : Prop where
  key : q.key = p.key
  canvas : q.canvas = p.canvas
  bijOn : Set.BijOn f {id | (p.graph.get? id).isSome = true} {id | (q.graph.get? id).isSome = true}
  inputs : q.inputs = p.inputs.map f
  outputs : q.outputs = p.outputs.map f
  node : ∀ id n, p.graph.get? id = some n → ∃ m, q.graph.get? (f id) = some m ∧ n.Twin m

/-- They also have the same connections and are drawn alike. -/
structure Prototype.IsomorphicBy (p q : Prototype) (f : NodeId → NodeId) : Prop
    extends p.SameNodes q f where
  placement : ∀ id n, p.graph.get? id = some n → q.placement (f id) = p.placement id
  leads : ∀ source target, Graph.Leads q.graph source target ↔
    ∃ s t, Graph.Leads p.graph s t ∧ source = s.rename f ∧ target = t.rename f

namespace Prototype.SameNodes

variable {p q q' : Prototype} {f : NodeId → NodeId} {a b : NodeId} {n n' : Node}

theorem injOn (h : p.SameNodes q f) (ha : p.graph.get? a = some n) (hb : p.graph.get? b = some n')
    (hf : f a = f b) : a = b :=
  h.bijOn.injOn (by simp [ha]) (by simp [hb]) hf

/-- A change that touches nothing but connections. -/
theorem rewire (h : p.SameNodes q f) {g : Graph}
    (hrow : ∀ id n, q.graph.get? id = some n → ∃ n', g.get? id = some n' ∧
      n'.body = n.body ∧ n'.inputs = n.inputs ∧ n'.outputs.length = n.outputs.length)
    (hback : ∀ id n', g.get? id = some n' → ∃ n, q.graph.get? id = some n) :
    p.SameNodes { q with graph := g } f where
  key := h.key
  canvas := h.canvas
  bijOn := by
    have hlive : {id | (g.get? id).isSome = true} = {id | (q.graph.get? id).isSome = true} := by
      ext id
      show (g.get? id).isSome = true ↔ (q.graph.get? id).isSome = true
      rw [Option.isSome_iff_exists, Option.isSome_iff_exists]
      constructor
      · rintro ⟨n', hn'⟩
        exact hback id n' hn'
      · rintro ⟨n, hn⟩
        obtain ⟨n', hn', -⟩ := hrow id n hn
        exact ⟨n', hn'⟩
    show Set.BijOn f _ {id | (g.get? id).isSome = true}
    rw [hlive]
    exact h.bijOn
  inputs := h.inputs
  outputs := h.outputs
  node := by
    intro id n hn
    obtain ⟨m, hm, htwin⟩ := h.node id n hn
    obtain ⟨m', hm', hbody, hi, ho⟩ := hrow (f id) m hm
    exact ⟨m', hm', hbody.trans htwin.body, (congrArg List.length hi).trans htwin.inputs,
      ho.trans htwin.outputs⟩

end Prototype.SameNodes

namespace Document.Loading

variable {p : Prototype} {t : Template} {r : Registry} {f : NodeId → NodeId} {l l' : Loading}
  {a : NodeId} {q : PlacedNode}

/-! ## Connections -/

/-- A draft that has all nodes of the template; node `f a` was added for node `a`. -/
structure Traced (p : Prototype) (f : NodeId → NodeId) (l : Loading) : Prop where
  same : p.SameNodes l.draft.prototype f
  copy : ∀ a n, p.graph.get? a = some n → l.copy? p a = some (f a)
  sound : ∀ source target, Graph.Leads l.draft.prototype.graph source target →
    ∃ s t, Graph.Leads p.graph s t ∧ source = s.rename f ∧ target = t.rename f

/-- What was drawn as in the template stays so. -/
structure Extends (p : Prototype) (f : NodeId → NodeId) (l l' : Loading) : Prop where
  leads : ∀ s t, Graph.Leads l.draft.prototype.graph s t → Graph.Leads l'.draft.prototype.graph s t
  placement : ∀ a n, p.graph.get? a = some n →
    l.draft.prototype.placement (f a) = p.placement a →
    l'.draft.prototype.placement (f a) = p.placement a

theorem Extends.refl (l : Loading) : Extends p f l l := ⟨fun _ _ h => h, fun _ _ _ h => h⟩

theorem Extends.trans {l'' : Loading} (h : Extends p f l l') (h' : Extends p f l' l'') :
    Extends p f l l'' :=
  ⟨fun s t hl => h'.leads s t (h.leads s t hl),
    fun a n hn ha => h'.placement a n hn (h.placement a n hn ha)⟩

/-- All that an output leads to in the template has been drawn. -/
def Wired (p : Prototype) (f : NodeId → NodeId) (s : Socket) (l : Loading) : Prop :=
  ∀ t, Graph.Leads p.graph s t → Graph.Leads l.draft.prototype.graph (s.rename f) (t.rename f)

/-- A node of the template has been drawn. -/
structure Finished (p : Prototype) (f : NodeId → NodeId) (a : NodeId) (l : Loading) : Prop where
  wired : ∀ port, Wired p f ⟨a, port⟩ l
  placement : l.draft.prototype.placement (f a) = p.placement a

theorem Extends.wired {s : Socket} (h : Extends p f l l') (hw : Wired p f s l) : Wired p f s l' :=
  fun t ht => h.leads _ _ (hw t ht)

theorem Extends.finished {n : Node} (h : Extends p f l l') (hn : p.graph.get? a = some n)
    (hf : Finished p f a l) : Finished p f a l' :=
  ⟨fun port => h.wired (hf.wired port), h.placement a n hn hf.placement⟩

/-- A connection of the template can be drawn. -/
theorem Traced.connect (h : Traced p f l) (hp : p.Drawn) {source target : Socket}
    (hl : Graph.Leads p.graph source target) :
    ∃ d, l.draft.connect (source.rename f) (target.rename f) = .ok d ∧
      Traced p f { l with draft := d } ∧ Extends p f l { l with draft := d } ∧
      Graph.Leads d.prototype.graph (source.rename f) (target.rename f) := by
  obtain ⟨n, hn⟩ := hl.live
  obtain ⟨m, hm, htwin⟩ := h.same.node source.node n hn
  -- nothing leads out of an output, and no other node is renamed to one
  have hsource : f source.node ∉ l.draft.prototype.outputs := by
    rw [h.same.outputs, List.mem_map]
    rintro ⟨b, hb, hf⟩
    obtain ⟨n', hn', -⟩ := hp.sockets b (List.mem_append_right _ hb)
    exact hp.ends source target hl (h.same.injOn hn' hn hf ▸ hb)
  have hport : source.port < m.outputs.length := by
    obtain ⟨fan, hfan, -⟩ := (Graph.leads_of_get? hn).1 hl
    rw [htwin.outputs]
    exact (List.getElem?_eq_some_iff.1 hfan).1
  have htarget : Graph.HasInput l.draft.prototype.graph (target.rename f) := by
    obtain ⟨n', hn', hp'⟩ := hp.plugged source target hl
    obtain ⟨m', hm', htwin'⟩ := h.same.node target.node n' hn'
    exact ⟨m', hm', htwin'.inputs ▸ hp'⟩
  obtain ⟨g, hg⟩ := Graph.connect_ok (s := source.rename f) hm hport htarget
  have hleads : ∀ s t, Graph.Leads g s t ↔ Graph.Leads l.draft.prototype.graph s t ∨
      s = source.rename f ∧ t = target.rename f := fun s t => Graph.leads_connect hg
  refine ⟨{ l.draft with prototype := { l.draft.prototype with graph := g } }, ?_,
    ⟨?_, h.copy, ?_⟩, ⟨fun s t hst => (hleads s t).2 (.inl hst), fun _ _ _ ha => ha⟩,
    (hleads _ _).2 (.inr ⟨rfl, rfl⟩)⟩
  · have hcontains : l.draft.prototype.outputs.contains (source.rename f).node = false := by
      simpa [Socket.rename] using hsource
    rw [Draft.connect, hcontains, hg]
    rfl
  · have hgraph := Engine.graph_connect_ok hg
    refine h.same.rewire (fun id n hn => ?_) fun id n' hn' => ?_
    · rw [hgraph]
      exact Draft.row_modifyFan hn
    · rw [hgraph] at hn'
      obtain ⟨n, hn, -⟩ := Draft.row_of_modifyFan hn'
      exact ⟨n, hn⟩
  · intro s t hst
    rcases (hleads s t).1 hst with hst | ⟨rfl, rfl⟩
    · exact h.sound s t hst
    · exact ⟨source, target, hl, rfl, rfl⟩

theorem wireEdge_traced (h : Traced p f l) (hp : p.Drawn) (hq : p.Describes a q) {port : Nat}
    {edges : List Document.Edge} (hedges : q.outputs[port]? = some edges) {edge : Document.Edge}
    (hedge : edge ∈ edges) :
    ∃ l', wireEdge t q (f a) port l edge = .ok l' ∧ Traced p f l' ∧ Extends p f l l' ∧
      ∀ target, Graph.Leads p.graph ⟨a, port⟩ target → p.saveIndex? target.node = some edge.node →
        target.port = edge.socket →
        Graph.Leads l'.draft.prototype.graph (Socket.rename f ⟨a, port⟩) (target.rename f) := by
  obtain ⟨target, hl, hnode, hport⟩ := (hq.edges port edge).1 ⟨edges, hedges, hedge⟩
  obtain ⟨n, hn⟩ := (hp.plugged _ _ hl).live
  have hlookup : l.indices.lookup edge.node = some (f target.node) := by
    have hcopy := h.copy target.node n hn
    rwa [copy?, hnode, Option.bind_some] at hcopy
  obtain ⟨d, hd, htraced, hext, hdrawn⟩ := h.connect hp hl
  refine ⟨{ l with draft := d }, ?_, htraced, hext, fun target' _ hnode' hport' => ?_⟩
  · rw [wireEdge, hlookup, ← hport]
    exact congrArg (· >>= _) hd
  · have hsame : target' = target := by
      cases target'
      cases target
      cases Prototype.saveIndex?_injective hnode' hnode
      cases hport'.trans hport.symm
      rfl
    exact hsame ▸ hdrawn

theorem wirePort_traced (h : Traced p f l) (hp : p.Drawn) (hq : p.Describes a q) {port : Nat}
    {edges : List Document.Edge} (hedges : q.outputs[port]? = some edges) :
    ∃ l', edges.foldlM (wireEdge t q (f a) port) l = .ok l' ∧ Traced p f l' ∧ Extends p f l l' ∧
      Wired p f ⟨a, port⟩ l' := by
  obtain ⟨l', hfold, htraced, hext, hdrawn⟩ := foldlM_ok (P := Traced p f) (R := Extends p f)
    (Q := fun (edge : Document.Edge) l => ∀ target, Graph.Leads p.graph ⟨a, port⟩ target →
      p.saveIndex? target.node = some edge.node → target.port = edge.socket →
      Graph.Leads l.draft.prototype.graph (Socket.rename f ⟨a, port⟩) (target.rename f))
    Extends.refl (fun _ _ _ => Extends.trans)
    (fun _ _ _ hR hQ target hl hnode hport => hR.leads _ _ (hQ target hl hnode hport))
    (fun _ hedge _ hs => wireEdge_traced hs hp hq hedges hedge) h
  refine ⟨l', hfold, htraced, hext, fun target hl => ?_⟩
  obtain ⟨edges', i, hedges', hi, hmem⟩ := hq.edge_of_leads hp hl
  cases hedges.symm.trans hedges'
  exact hdrawn _ hmem target hl hi rfl

theorem Traced.place (h : Traced p f l) {n : Node} (hn : p.graph.get? a = some n) :
    ∃ d, l.draft.place (f a) (p.placement a) = .ok d ∧ Traced p f { l with draft := d } ∧
      Extends p f l { l with draft := d } ∧ d.prototype.placement (f a) = p.placement a := by
  obtain ⟨m, hm, -⟩ := h.same.node a n hn
  let placements := l.draft.prototype.placements.insert (f a) (p.placement a)
  have hget : ∀ id, ((placements.get? id).getD {} : Placement) =
      if id = f a then p.placement a else l.draft.prototype.placement id := fun id => by
    rw [Table.get?_insert]
    split <;> rfl
  refine ⟨{ l.draft with prototype := { l.draft.prototype with placements } }, ?_,
    ⟨⟨h.same.key, h.same.canvas, h.same.bijOn, h.same.inputs, h.same.outputs, h.same.node⟩, h.copy,
      h.sound⟩, ⟨fun _ _ hst => hst, fun b n' hn' hb => ?_⟩, ?_⟩
  · rw [Draft.place, Graph.find, hm]
    rfl
  · refine (hget (f b)).trans ?_
    split
    · next hf => rw [h.same.injOn hn' hn hf]
    · exact hb
  · exact (hget (f a)).trans (if_pos rfl)

/-- An entry of the document is carried out. -/
theorem wireNode_traced (h : Traced p f l) (hp : p.Drawn) (hq : p.Describes a q) {n : Node}
    (hn : p.graph.get? a = some n) :
    ∃ l', wireNode t l q = .ok l' ∧ Traced p f l' ∧ Extends p f l l' ∧ Finished p f a l' := by
  obtain ⟨d, hplace, htraced, hext, hspot⟩ := h.place hn
  obtain ⟨l', hfold, htraced', hext', hwired⟩ := foldlM_ok (P := Traced p f) (R := Extends p f)
    (f := fun l (x : List Document.Edge × Nat) => x.1.foldlM (wireEdge t q (f a) x.2) l)
    (Q := fun x => Wired p f ⟨a, x.2⟩) Extends.refl (fun _ _ _ => Extends.trans)
    (fun _ _ _ => Extends.wired)
    (fun x hx _ hs => wirePort_traced hs hp hq (List.mk_mem_zipIdx_iff_getElem?.1 hx)) htraced
  refine ⟨l', ?_, htraced', hext.trans hext', fun port target hl => ?_, ?_⟩
  · have hlookup : l.indices.lookup q.index = some (f a) :=
      (lookup_eq_copy? hq).trans (h.copy a n hn)
    rw [wireNode, hlookup, hq.spot]
    exact (congrArg (· >>= _) hplace).trans hfold
  · obtain ⟨edges, i, hedges, -⟩ := hq.edge_of_leads hp hl
    exact hwired (edges, port) (List.mk_mem_zipIdx_iff_getElem?.2 hedges) target hl
  · exact hext'.placement a n hn hspot

/-- The connections can be made once all nodes are there. -/
theorem Built.traced {done : List NodeId} (h : Built p done l)
    (hdone : ∀ a, a ∈ done ↔ (p.graph.get? a).isSome = true) {canvas : Canvas}
    (hcanvas : canvas = p.canvas) :
    Traced p (fun a => (l.copy? p a).getD 0) { l with draft := l.draft.setCanvas canvas } := by
  have hnode : ∀ a n, p.graph.get? a = some n → ∃ new m, l.copy? p a = some new ∧
      l.draft.prototype.graph.get? new = some m ∧ n.Twin m := fun a n hn =>
    h.node a n hn ((hdone a).2 (by rw [hn, Option.isSome_some]))
  have hlive : ∀ a new, l.copy? p a = some new → ∃ n, p.graph.get? a = some n := fun a new ha => by
    refine Option.isSome_iff_exists.1 ((hdone a).1 ?_)
    by_contra hmem
    rw [h.fresh a hmem] at ha
    cases ha
  have hlist : ∀ ids news : List NodeId, ids.map (l.copy? p) = news.map some →
      news = ids.map fun a => (l.copy? p a).getD 0 := fun ids news hpairs => by
    have hget := congrArg (List.map fun o : Option NodeId => o.getD 0) hpairs
    simpa [Function.comp_def] using hget.symm
  refine ⟨⟨h.key, hcanvas, ⟨?_, ?_, ?_⟩, hlist _ _ h.inputs, hlist _ _ h.outputs, ?_⟩, ?_, ?_⟩
  · intro a ha
    obtain ⟨n, hn⟩ := Option.isSome_iff_exists.1 ha
    obtain ⟨new, m, hcopy, hm, -⟩ := hnode a n hn
    show (l.draft.prototype.graph.get? ((l.copy? p a).getD 0)).isSome = true
    rw [hcopy, Option.getD_some, hm, Option.isSome_some]
  · intro a ha b hb hab
    obtain ⟨n, hn⟩ := Option.isSome_iff_exists.1 ha
    obtain ⟨n', hn'⟩ := Option.isSome_iff_exists.1 hb
    obtain ⟨new, m, hcopy, -⟩ := hnode a n hn
    obtain ⟨new', m', hcopy', -⟩ := hnode b n' hn'
    dsimp only at hab
    rw [hcopy, hcopy', Option.getD_some, Option.getD_some] at hab
    exact h.injective a b new hcopy (hab ▸ hcopy')
  · intro new hnew
    obtain ⟨m, hm⟩ := Option.isSome_iff_exists.1 hnew
    obtain ⟨a, ha⟩ := h.onto new m hm
    obtain ⟨n, hn⟩ := hlive a new ha
    refine ⟨a, ?_, by dsimp only; rw [ha, Option.getD_some]⟩
    show (p.graph.get? a).isSome = true
    rw [hn, Option.isSome_some]
  · intro a n hn
    obtain ⟨new, m, hcopy, hm, htwin⟩ := hnode a n hn
    dsimp only
    rw [hcopy, Option.getD_some]
    exact ⟨m, hm, htwin⟩
  · intro a n hn
    obtain ⟨new, m, hcopy, -⟩ := hnode a n hn
    show l.copy? p a = some ((l.copy? p a).getD 0)
    rw [hcopy, Option.getD_some]
  · exact fun source target hl => (h.bare source target hl).elim

end Document.Loading

/-! ## Loading as a whole -/

/-- The inner nodes are added in one round. -/
theorem Document.Template.load_eq (t : Template) (r : Registry) (d : Draft) :
    t.load r d = (do
      let l ← Loading.claimBoundary t Prototype.boundaryInput ⟨d, []⟩ t.inputs
      let l ← l.claimBoundary t Prototype.boundaryOutput t.outputs
      let l ← t.nodes.entries.foldlM (Loading.addEntry t r) l
      let l ← t.placed.foldlM (Loading.wireNode t) { l with draft := l.draft.setCanvas t.canvas }
      return l.draft) := by
  simp only [load, InnerNodes.entries, List.foldlM_append, List.foldlM_map, bind_assoc]
  rfl

/-- The placeholders are filed and the inner nodes added, and nothing is connected yet. -/
def Document.Template.build (t : Template) (r : Registry) (d : Draft) : Except Error Loading := do
  let l ← Loading.claimBoundary t Prototype.boundaryInput ⟨d, []⟩ t.inputs
  let l ← l.claimBoundary t Prototype.boundaryOutput t.outputs
  t.nodes.entries.foldlM (Loading.addEntry t r) l

/-- A template that was saved can be loaded, and gives the same template but for the numbers of its
nodes, which are those under which they were filed. -/
theorem Prototype.Saves.load_by {p : Prototype} {t : Template} (hs : p.Saves t) (hp : p.Drawn)
    {r : Registry} (hfiled : p.Filed r.catalog) (hnames : p.Nameable r) {d : Draft}
    (hd : d.prototype.Declared) (hkey : d.prototype.key = p.key)
    (hin : d.prototype.inputs.length = p.inputs.length)
    (hout : d.prototype.outputs.length = p.outputs.length) :
    ∃ l d', t.build r d = .ok l ∧ t.load r d = .ok d' ∧
      p.IsomorphicBy d'.prototype fun a => (l.copy? p a).getD 0 := by
  obtain ⟨l₁, l₂, h₁, h₂, hbuilt⟩ := Loading.built_boundary hd hkey hin hout hp hs
  obtain ⟨ids, hperm, hxs⟩ := hs.inner
  have hboundary : ∀ a ∈ ids, a ∉ p.inputs ++ p.outputs := fun a ha hmem => by
    have hfalse := (mem_innerNodes.1 (hperm.mem_iff.1 ha)).2
    rw [isBoundary_iff.2 hmem] at hfalse
    cases hfalse
  have hnodup : ids.Nodup :=
    hperm.nodup_iff.2 (List.nodup_append.1 (nodup_saveOrder hp)).2.1
  obtain ⟨l₃, h₃, hbuilt⟩ := Loading.entries_built (t := t) hbuilt hfiled hnames hnodup
    (fun a ha => hperm.mem_iff.1 ha) hboundary hxs
  have hdone : ∀ a, a ∈ ids ++ (p.inputs ++ p.outputs) ↔ (p.graph.get? a).isSome = true := by
    intro a
    rw [← mem_saveOrder hp, saveOrder, List.mem_append, hperm.mem_iff, Or.comm, ← List.mem_append]
  have htraced := hbuilt.traced hdone hs.canvas
  set f := fun a => (l₃.copy? p a).getD 0
  obtain ⟨order, horder, hdesc⟩ := hs.describes
  have hstep : ∀ q ∈ t.placed, ∀ l, Loading.Traced p f l → ∃ l', Loading.wireNode t l q = .ok l' ∧
      Loading.Traced p f l' ∧ Loading.Extends p f l l' ∧
      ∀ a n, p.graph.get? a = some n → p.Describes a q → Loading.Finished p f a l' := by
    intro q hq l hl
    obtain ⟨a, ha, hqa⟩ := exists_mem_of_forall₂_right hdesc hq
    obtain ⟨n, hn⟩ := Option.isSome_iff_exists.1 ((mem_saveOrder hp).1 ((horder a).1 ha))
    obtain ⟨l', hl', htraced, hext, hfin⟩ := Loading.wireNode_traced hl hp hqa hn
    refine ⟨l', hl', htraced, hext, fun b _ _ hqb => ?_⟩
    rwa [saveIndex?_injective hqb.index hqa.index]
  obtain ⟨l₄, h₄, htraced, -, hfinished⟩ := foldlM_ok Loading.Extends.refl
    (fun _ _ _ => Loading.Extends.trans)
    (fun _ _ _ hext hfin a n hn hq => hext.finished hn (hfin a n hn hq)) hstep htraced
  have hall : ∀ a n, p.graph.get? a = some n → Loading.Finished p f a l₄ := fun a n hn => by
    have ha := (horder a).2 ((mem_saveOrder hp).2 (by rw [hn, Option.isSome_some]))
    obtain ⟨q, hq, hqa⟩ := exists_mem_of_forall₂ hdesc ha
    exact hfinished q hq a n hn hqa
  refine ⟨l₃, l₄.draft, ?_, ?_, htraced.same, fun a n hn => (hall a n hn).placement,
    fun source target => ⟨htraced.sound source target, ?_⟩⟩
  · simp only [Template.build, h₁, h₂, h₃, bind, Except.bind]
  · simp only [Template.load_eq, h₁, h₂, h₃, h₄, bind, Except.bind, pure, Except.pure]
  · rintro ⟨s, target', hl, rfl, rfl⟩
    obtain ⟨n, hn⟩ := hl.live
    exact (hall s.node n hn).wired s.port target' hl

end PulseFlow
