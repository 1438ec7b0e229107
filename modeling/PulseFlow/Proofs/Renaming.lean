import PulseFlow.Document.Import

/-!
# Templates up to the places of arrays

Loading a template reads the heap in one place only: a constant that holds an array is copied from
the catalog with its arrays.  Two loads of one document therefore take the same course whatever the
heaps are, and the templates they lead to differ in the places of arrays at most.

What two drafts have in common all through a load is a relation that each step of the load keeps
(`Kept`).  One such relation is that the templates are the same once arrays are renamed (`Alike`).

    Draft.Kept r r' S → S d d' → Agree S (t.load r d) (t.load r' d')             (load_agree)
    … → Draft.Kept r r' (Draft.Alike ρ ρ' H)                                     (kept_alike)
-/

namespace PulseFlow

/-! ## Results that agree -/

/-- Two computations that fail alike, or succeed with related results. -/
inductive Agree {α β : Type} (R : α → β → Prop) : Except Error α → Except Error β → Prop
  | ok {a : α} {b : β} (h : R a b) : Agree R (.ok a) (.ok b)
  | error (err : Error) : Agree R (.error err) (.error err)

namespace Agree

variable {α β γ δ σ τ : Type} {R : α → β → Prop} {S : γ → δ → Prop} {x : Except Error α}
  {y : Except Error β}

theorem bind (h : Agree R x y) {f : α → Except Error γ} {g : β → Except Error δ}
    (hfg : ∀ a b, R a b → Agree S (f a) (g b)) : Agree S (x >>= f) (y >>= g) := by
  cases h with
  | ok hab => exact hfg _ _ hab
  | error err => exact .error err

theorem refl (x : Except Error α) : Agree Eq x x := by
  cases x with
  | error err => exact .error err
  | ok a => exact .ok rfl

theorem eq {y : Except Error α} (h : Agree Eq x y) : x = y := by
  cases h with
  | ok hab => rw [hab]
  | error err => rfl

theorem of_map_eq {f : α → γ} {g : β → γ} (h : x.map f = y.map g) :
    Agree (fun a b => f a = g b) x y := by
  cases x with
  | error err =>
    cases y with
    | error err' =>
      cases h
      exact .error err
    | ok b => cases h
  | ok a =>
    cases y with
    | error err => cases h
    | ok b => exact .ok (Except.ok.inj h)

theorem foldlM {R : σ → τ → Prop} {f : σ → α → Except Error σ} {g : τ → α → Except Error τ}
    (hfg : ∀ a s u, R s u → Agree R (f s a) (g u a)) (xs : List α) {s : σ} {u : τ} (h : R s u) :
    Agree R (xs.foldlM f s) (xs.foldlM g u) := by
  induction xs generalizing s u with
  | nil => exact .ok h
  | cons x xs ih =>
    rw [List.foldlM_cons, List.foldlM_cons]
    exact (hfg x s u h).bind fun _ _ h' => ih h'

theorem imp {R' : α → β → Prop} (h : Agree R x y) (hR : ∀ a b, R a b → R' a b) :
    Agree R' x y := by
  cases h with
  | ok hab => exact .ok (hR _ _ hab)
  | error err => exact .error err

theorem and {P : α → Prop} (h : Agree R x y) (hP : ∀ a, x = .ok a → P a) :
    Agree (fun a b => R a b ∧ P a) x y := by
  cases h with
  | ok hab => exact .ok ⟨hab, hP _ rfl⟩
  | error err => exact .error err

/-- Where one succeeds, so does the other. -/
theorem ok_right (h : Agree R x y) {a : α} (hx : x = .ok a) : ∃ b, y = .ok b ∧ R a b := by
  subst hx
  cases h with
  | ok hab => exact ⟨_, rfl, hab⟩

theorem ok_left (h : Agree R x y) {b : β} (hy : y = .ok b) : ∃ a, x = .ok a ∧ R a b := by
  subst hy
  cases h with
  | ok hab => exact ⟨_, rfl, hab⟩

end Agree

/-! ## Renaming arrays -/

/-- A signal with its array at another place. -/
def Signal.renameArrays (ρ : ArrayId → ArrayId) : Signal → Signal
  | .array i => .array (ρ i)
  | s => s

/-- Only constants hold arrays of their own. -/
def Logic.renameArrays (ρ : ArrayId → ArrayId) : Logic → Logic
  | .constant v => .constant (v.renameArrays ρ)
  | l => l

def Body.renameArrays (ρ : ArrayId → ArrayId) : Body → Body
  | .native l => .native (l.renameArrays ρ)
  | b => b

def Node.renameArrays (ρ : ArrayId → ArrayId) (n : Node) : Node :=
  { n with body := n.body.renameArrays ρ }

def Prototype.renameArrays (ρ : ArrayId → ArrayId) (p : Prototype) : Prototype :=
  { p with graph := p.graph.map (Node.renameArrays ρ) }

theorem Node.renameArrays_native (ρ : ArrayId → ArrayId) (l : Logic) :
    (Node.native l).renameArrays ρ = Node.native (l.renameArrays ρ) := by
  cases l <;> rfl

theorem Slots.add_map {α : Type} (s : Slots α) (f : α → α) (a : α) :
    (s.map f).add (f a) = ((s.add a).1, (s.add a).2.map f) := by
  unfold add map
  cases s.vacant with
  | nil => simp
  | cons i rest =>
    simp only [Prod.mk.injEq, true_and, mk.injEq, and_true]
    refine Array.ext_getElem? fun j => ?_
    simp only [Array.getElem?_setIfInBounds, Array.getElem?_map, Array.size_map]
    split
    · split <;> rfl
    · rfl

theorem Slots.modify_map {α : Type} (s : Slots α) {f g : α → α} (i : Nat)
    (h : ∀ a, f (g a) = g (f a)) : (s.map g).modify i f = (s.modify i f).map g := by
  unfold modify map
  simp only [mk.injEq, and_true]
  refine Array.ext_getElem? fun j => ?_
  simp only [Array.getElem?_modify, Array.getElem?_map]
  split
  · cases s.cells[j]? with
    | none => rfl
    | some o => cases o <;> simp [h]
  · rfl

namespace Graph

variable (ρ : ArrayId → ArrayId) (g : Graph)

theorem find_map (id : NodeId) :
    find (g.map (Node.renameArrays ρ)) id = (find g id).map (Node.renameArrays ρ) := by
  rw [find, find, Slots.get?_map]
  cases g.get? id <;> rfl

theorem checkOutput_map (s : Socket) :
    checkOutput (g.map (Node.renameArrays ρ)) s = checkOutput g s := by
  rw [checkOutput, checkOutput, find_map]
  cases find g s.node <;> rfl

theorem checkInput_map (s : Socket) :
    checkInput (g.map (Node.renameArrays ρ)) s = checkInput g s := by
  rw [checkInput, checkInput, find_map]
  cases find g s.node <;> rfl

theorem connect_map (s t : Socket) : connect (g.map (Node.renameArrays ρ)) s t =
    (connect g s t).map fun g => g.map (Node.renameArrays ρ) := by
  rw [connect, connect, checkOutput_map, checkInput_map]
  cases checkOutput g s with
  | error err => rfl
  | ok u =>
    cases checkInput g t with
    | error err => rfl
    | ok u =>
      exact congrArg Except.ok (Slots.modify_map g s.node fun n => rfl)

end Graph

/-! ## Arrays that a template names -/

theorem Slots.map_congr {α : Type} {s : Slots α} {f g : α → α}
    (h : ∀ i a, s.get? i = some a → f a = g a) : s.map f = s.map g := by
  unfold map
  congr 1
  refine Array.ext_getElem? fun i => ?_
  rw [Array.getElem?_map, Array.getElem?_map]
  cases hi : s.cells[i]? with
  | none => rfl
  | some o =>
    cases o with
    | none => rfl
    | some a =>
      have ha := h i a (by rw [get?_eq_join, hi, Option.join_some])
      simp [ha]

theorem Slots.map_map {α : Type} (s : Slots α) (f g : α → α) :
    (s.map f).map g = s.map (g ∘ f) := by
  simp [map, Function.comp_def]

theorem Slots.get?_of_add {α : Type} {s : Slots α} {a b : α} {i : Nat}
    (h : (s.add a).2.get? i = some b) : b = a ∨ s.get? i = some b := by
  unfold add at h
  cases hv : s.vacant with
  | nil =>
    simp only [hv, get?_eq_join, Array.getElem?_push] at h
    split at h
    · exact .inl (by simpa using h.symm)
    · exact .inr (by rw [get?_eq_join, h])
  | cons j rest =>
    simp only [hv, get?_eq_join, Array.getElem?_setIfInBounds] at h
    split at h
    · split at h
      · exact .inl (by simpa using h.symm)
      · cases h
    · exact .inr (by rw [get?_eq_join, h])

namespace Prototype

variable {p : Prototype} {ρ ρ' : ArrayId → ArrayId}

/-- A constant of the template holds the array. -/
def Names (p : Prototype) (a : ArrayId) : Prop := ∃ id, p.constant? id = some (.array a)

/-- Only arrays that are named matter. -/
theorem renameArrays_congr (h : ∀ a, p.Names a → ρ a = ρ' a) :
    p.renameArrays ρ = p.renameArrays ρ' := by
  have hgraph : p.graph.map (Node.renameArrays ρ) = p.graph.map (Node.renameArrays ρ') := by
    refine Slots.map_congr fun id n hn => ?_
    have hbody : n.body.renameArrays ρ = n.body.renameArrays ρ' := by
      cases hb : n.body with
      | reference k i => rfl
      | native l =>
        cases l with
        | constant v =>
          cases v with
          | array a =>
            have ha := h a ⟨id, by rw [constant?, hn, Option.bind_some, hb]; rfl⟩
            simp [Body.renameArrays, Logic.renameArrays, Signal.renameArrays, ha]
          | _ => rfl
        | _ => rfl
    rw [Node.renameArrays, Node.renameArrays, hbody]
  rw [renameArrays, renameArrays, hgraph]

theorem renameArrays_comp (p : Prototype) (ρ ρ' : ArrayId → ArrayId) :
    (p.renameArrays ρ).renameArrays ρ' = p.renameArrays (ρ' ∘ ρ) := by
  have hnode : Node.renameArrays ρ' ∘ Node.renameArrays ρ = Node.renameArrays (ρ' ∘ ρ) := by
    funext n
    have hbody : (n.body.renameArrays ρ).renameArrays ρ' = n.body.renameArrays (ρ' ∘ ρ) := by
      cases n.body with
      | reference k i => rfl
      | native l =>
        cases l with
        | constant v => cases v <;> rfl
        | _ => rfl
    exact congrArg (fun b => { n with body := b }) hbody
  unfold renameArrays
  rw [Slots.map_map, hnode]

theorem renameArrays_id (p : Prototype) : p.renameArrays id = p := by
  have hnode : Node.renameArrays id = id := by
    funext n
    have hbody : n.body.renameArrays id = n.body := by
      cases n.body with
      | reference k i => rfl
      | native l =>
        cases l with
        | constant v => cases v <;> rfl
        | _ => rfl
    exact congrArg (fun b => { n with body := b }) hbody
  have hmap : p.graph.map id = p.graph := by simp [Slots.map]
  rw [renameArrays, hnode, hmap]

end Prototype

/-! ## Loading -/

/-- A relation between drafts that the steps of a load keep. -/
structure Draft.Kept (r r' : Registry) (S : Draft → Draft → Prop) : Prop where
  key : ∀ {d d'}, S d d' → d.prototype.key = d'.prototype.key
  inputs : ∀ {d d'}, S d d' → d.prototype.inputs = d'.prototype.inputs
  outputs : ∀ {d d'}, S d d' → d.prototype.outputs = d'.prototype.outputs
  connect : ∀ {d d'}, S d d' → ∀ s t, Agree S (d.connect s t) (d'.connect s t)
  place : ∀ {d d'}, S d d' → ∀ id spot, Agree S (d.place id spot) (d'.place id spot)
  setCanvas : ∀ {d d'}, S d d' → ∀ canvas, S (d.setCanvas canvas) (d'.setCanvas canvas)
  add : ∀ {d d'}, S d d' → ∀ key, Agree (fun x x' => x.1 = x'.1 ∧ S x.2 x'.2) (d.add r key)
    (d'.add r' key)
  constant : ∀ {d d'}, S d d' → ∀ v, v.asArray? = none →
    (d.addLogic (.constant v)).1 = (d'.addLogic (.constant v)).1 ∧
      S (d.addLogic (.constant v)).2 (d'.addLogic (.constant v)).2

/-- A property of drafts that the steps of a load keep. -/
structure Draft.Stays (r : Registry) (P : Draft → Prop) : Prop where
  connect : ∀ {d d'}, P d → ∀ s t, d.connect s t = .ok d' → P d'
  place : ∀ {d d'}, P d → ∀ id spot, d.place id spot = .ok d' → P d'
  setCanvas : ∀ {d}, P d → ∀ canvas, P (d.setCanvas canvas)
  add : ∀ {d d' id}, P d → ∀ key, d.add r key = .ok (id, d') → P d'
  constant : ∀ {d}, P d → ∀ v, v.asArray? = none → P (d.addLogic (.constant v)).2

theorem Draft.Kept.and {r r' : Registry} {S : Draft → Draft → Prop} {P : Draft → Prop}
    (hS : Draft.Kept r r' S) (hP : Draft.Stays r P) :
    Draft.Kept r r' fun d d' => S d d' ∧ P d where
  key h := hS.key h.1
  inputs h := hS.inputs h.1
  outputs h := hS.outputs h.1
  connect h s t := (hS.connect h.1 s t).and fun _ hd => hP.connect h.2 s t hd
  place h id spot := (hS.place h.1 id spot).and fun _ hd => hP.place h.2 id spot hd
  setCanvas h canvas := ⟨hS.setCanvas h.1 canvas, hP.setCanvas h.2 canvas⟩
  add h key := ((hS.add h.1 key).and (P := fun x => P x.2) fun _ hx => hP.add h.2 key hx).imp
    fun _ _ hab => ⟨hab.1.1, hab.1.2, hab.2⟩
  constant h v hv :=
    ⟨(hS.constant h.1 v hv).1, (hS.constant h.1 v hv).2, hP.constant h.2 v hv⟩

namespace Document.Loading

variable {t : Template} {r r' : Registry} {S : Draft → Draft → Prop} {l l' : Loading}

/-- Drafts that have something in common, with nodes filed alike. -/
structure Beside (S : Draft → Draft → Prop) (l l' : Loading) : Prop where
  draft : S l.draft l'.draft
  indices : l.indices = l'.indices

namespace Beside

theorem claim (h : Beside S l l') (index : Nat) {id id' : NodeId} (hid : id = id') :
    Agree (Beside S) (l.claim t index id) (l'.claim t index id') := by
  unfold Loading.claim
  rw [h.indices, hid]
  split
  · exact .error _
  · exact .ok ⟨h.draft, rfl⟩

theorem claimBoundary (h : Beside S l l') (port? : Prototype → Nat → Except Error NodeId)
    (hport : ∀ d d' : Draft, S d d' → ∀ j, port? d.prototype j = port? d'.prototype j)
    (placed : List PlacedNode) :
    Agree (Beside S) (l.claimBoundary t port? placed) (l'.claimBoundary t port? placed) := by
  refine Agree.foldlM (fun x s u hs => ?_) _ h
  obtain ⟨n, port⟩ := x
  dsimp only
  rw [hport _ _ hs.draft port]
  cases port? u.draft.prototype port with
  | error err => exact .error err
  | ok id => exact hs.claim n.index rfl

theorem addConstant (hS : Draft.Kept r r' S) (h : Beside S l l') (q : PlacedNode) {v : Signal}
    (hv : v.asArray? = none) :
    Agree (Beside S) (l.addConstant t q v) (l'.addConstant t q v) := by
  obtain ⟨hid, hdraft⟩ := hS.constant h.draft v hv
  have hl : Beside S { l with draft := (l.draft.addLogic (.constant v)).2 }
      { l' with draft := (l'.draft.addLogic (.constant v)).2 } := ⟨hdraft, h.indices⟩
  exact hl.claim q.index hid

theorem addNamed (hS : Draft.Kept r r' S) (h : Beside S l l') (q : PlacedNode) :
    Agree (Beside S) (l.addNamed t r q) (l'.addNamed t r' q) := by
  unfold Loading.addNamed
  cases q.category with
  | none => exact .error _
  | some category =>
    cases q.identifier with
    | none => exact .error _
    | some identifier =>
      dsimp only
      have hadd := hS.add h.draft ⟨category, identifier⟩
      generalize l.draft.add r ⟨category, identifier⟩ = x at hadd
      generalize l'.draft.add r' ⟨category, identifier⟩ = x' at hadd
      cases hadd with
      | @ok a b hab =>
        have hl : Beside S { l with draft := a.2 } { l' with draft := b.2 } := ⟨hab.2, h.indices⟩
        exact hl.claim q.index hab.1
      | error err => cases err <;> exact .error _

theorem wireEdge (hS : Draft.Kept r r' S) (h : Beside S l l') (q : PlacedNode) (id : NodeId)
    (port : Nat) (edge : Edge) :
    Agree (Beside S) (l.wireEdge t q id port edge) (l'.wireEdge t q id port edge) := by
  unfold Loading.wireEdge
  rw [h.indices]
  cases l'.indices.lookup edge.node with
  | none => exact .error _
  | some target => exact (hS.connect h.draft _ _).bind fun d d' hd => .ok ⟨hd, rfl⟩

theorem wireNode (hS : Draft.Kept r r' S) (h : Beside S l l') (q : PlacedNode) :
    Agree (Beside S) (l.wireNode t q) (l'.wireNode t q) := by
  unfold Loading.wireNode
  rw [h.indices]
  cases l'.indices.lookup q.index with
  | none => exact .ok h
  | some id =>
    refine (hS.place h.draft _ _).bind fun d d' hd => ?_
    refine Agree.foldlM (fun x s u hs => ?_) _ ⟨hd, rfl⟩
    exact Agree.foldlM (fun edge s u hs => hs.wireEdge hS q id x.2 edge) x.1 hs

end Beside

end Document.Loading

open Document in
/-- Two loads of one document keep what their drafts have in common. -/
theorem Document.Template.load_agree {r r' : Registry} {S : Draft → Draft → Prop}
    (hS : Draft.Kept r r' S) (t : Template) {d d' : Draft} (h : S d d') :
    Agree S (t.load r d) (t.load r' d') := by
  have hstart : Loading.Beside S ⟨d, []⟩ ⟨d', []⟩ := ⟨h, rfl⟩
  unfold load
  refine (hstart.claimBoundary _ (fun d d' hd j => ?_) _).bind fun l l' hl => ?_
  · rw [Prototype.boundaryInput, Prototype.boundaryInput, hS.inputs hd, hS.key hd]
  refine (hl.claimBoundary _ (fun d d' hd j => ?_) _).bind fun l l' hl => ?_
  · rw [Prototype.boundaryOutput, Prototype.boundaryOutput, hS.outputs hd, hS.key hd]
  refine (Agree.foldlM (fun q s u hs => hs.addNamed hS q) _ hl).bind fun l l' hl => ?_
  refine (Agree.foldlM (fun c s u hs => hs.addConstant hS c.node rfl) _ hl).bind fun l l' hl => ?_
  refine (Agree.foldlM (fun c s u hs => hs.addConstant hS c.node rfl) _ hl).bind fun l l' hl => ?_
  refine (Agree.foldlM (fun c s u hs => hs.addConstant hS c.node rfl) _ hl).bind fun l l' hl => ?_
  refine (Agree.foldlM (fun q s u hs => hs.addConstant hS q rfl) _ hl).bind fun l l' hl => ?_
  have hcanvas : Loading.Beside S { l with draft := l.draft.setCanvas t.canvas }
      { l' with draft := l'.draft.setCanvas t.canvas } := ⟨hS.setCanvas hl.draft _, hl.indices⟩
  exact (Agree.foldlM (fun q s u hs => hs.wireNode hS q) _ hcanvas).bind fun l l' hl => .ok hl.draft

open Document in
/-- Templates are filled in the same way wherever nodes are made in the same way. -/
theorem Document.Template.load_congr {r r' : Registry} (h : r.makeNode = r'.makeNode)
    (t : Template) (d : Draft) : t.load r d = t.load r' d := by
  have hkept : Draft.Kept r r' Eq :=
    { key := fun h => congrArg (fun d => d.prototype.key) h
      inputs := fun h => congrArg (fun d => d.prototype.inputs) h
      outputs := fun h => congrArg (fun d => d.prototype.outputs) h
      connect := fun h s t => h ▸ .refl _
      place := fun h id spot => h ▸ .refl _
      setCanvas := fun h canvas => h ▸ rfl
      constant := fun h v _ => h ▸ ⟨rfl, rfl⟩
      add := by
        rintro d _ ⟨⟩ key
        rw [Draft.add, Draft.add, h]
        exact (Agree.refl _).imp fun a b hab => hab ▸ ⟨rfl, rfl⟩ }
  exact (load_agree hkept t rfl).eq

/-- A template before it is filled. -/
def Document.Template.outline (t : Template) : Prototype :=
  Prototype.declare t.key t.inputs.length t.outputs.length

open Document in
/-- Loads templates one after the other into a heap; each draft stands with its template. -/
inductive Fills (r : Registry) : Heap → List (Template × Draft) → Heap → Prop
  | nil (h : Heap) : Fills r h [] h
  | cons {h h' : Heap} {t : Template} {d : Draft} {xs : List (Template × Draft)}
      (first : t.load r ⟨t.outline, h⟩ = .ok d) (rest : Fills r d.heap xs h') :
      Fills r h ((t, d) :: xs) h'

open Document in
/-- Each template was loaded into some heap on the way. -/
theorem Fills.load {r : Registry} {h h' : Heap} {xs : List (Template × Draft)}
    (hf : Fills r h xs h') {x : Template × Draft} (hx : x ∈ xs) :
    ∃ base, x.1.load r ⟨x.1.outline, base⟩ = .ok x.2 := by
  induction hf with
  | nil => cases hx
  | cons first _ ih =>
    rcases List.mem_cons.1 hx with rfl | hx
    · exact ⟨_, first⟩
    · exact ih hx

/-! ## Templates that are alike -/

section

variable (ρ ρ' : ArrayId → ArrayId) (H : Heap → Heap → Prop)

/-- Templates that differ in the places of arrays only, over related heaps. -/
structure Draft.Alike (d d' : Draft) : Prop where
  prototype : d.prototype.renameArrays ρ = d'.prototype.renameArrays ρ'
  heap : H d.heap d'.heap

/-- Nodes that differ in the places of arrays only, over related heaps. -/
def MadeAlike (x x' : Node × Heap) : Prop :=
  x.1.renameArrays ρ = x'.1.renameArrays ρ' ∧ H x.2 x'.2

end

namespace Draft.Alike

variable {ρ ρ' : ArrayId → ArrayId} {H : Heap → Heap → Prop} {d d' : Draft}

theorem graph (h : d.Alike ρ ρ' H d') : d.prototype.graph.map (Node.renameArrays ρ) =
    d'.prototype.graph.map (Node.renameArrays ρ') := congrArg Prototype.graph h.prototype

/-- Templates that were alike and got graphs that are alike. -/
theorem with_graph (h : d.Alike ρ ρ' H d') {g g' : Graph}
    (hg : g.map (Node.renameArrays ρ) = g'.map (Node.renameArrays ρ')) :
    Draft.Alike ρ ρ' H { d with prototype := { d.prototype with graph := g } }
      { d' with prototype := { d'.prototype with graph := g' } } := by
  refine ⟨?_, h.heap⟩
  have hproto := congrArg (fun p : Prototype => { p with graph := g.map (Node.renameArrays ρ) })
    h.prototype
  simpa [Prototype.renameArrays, hg] using hproto

theorem connect (h : d.Alike ρ ρ' H d') (s t : Socket) :
    Agree (Draft.Alike ρ ρ' H) (d.connect s t) (d'.connect s t) := by
  have houtputs : d.prototype.outputs = d'.prototype.outputs := by
    have houtputs := congrArg Prototype.outputs h.prototype
    exact houtputs
  unfold Draft.connect
  rw [houtputs]
  split
  · exact .error _
  · have hconnect : Agree (fun g g' : Graph => g.map (Node.renameArrays ρ) =
        g'.map (Node.renameArrays ρ')) (Graph.connect d.prototype.graph s t)
        (Graph.connect d'.prototype.graph s t) := by
      apply Agree.of_map_eq
      rw [← Graph.connect_map, ← Graph.connect_map, h.graph]
    exact hconnect.bind fun g g' hg => .ok (h.with_graph hg)

theorem place (h : d.Alike ρ ρ' H d') (id : NodeId) (spot : Placement) :
    Agree (Draft.Alike ρ ρ' H) (d.place id spot) (d'.place id spot) := by
  have hplacements : d.prototype.placements = d'.prototype.placements := by
    have hplacements := congrArg Prototype.placements h.prototype
    exact hplacements
  have hfind : Agree (fun n n' => Node.renameArrays ρ n = Node.renameArrays ρ' n')
      (Graph.find d.prototype.graph id) (Graph.find d'.prototype.graph id) := by
    apply Agree.of_map_eq
    rw [← Graph.find_map, ← Graph.find_map, h.graph]
  refine hfind.bind fun _ _ _ => .ok ⟨?_, h.heap⟩
  rw [hplacements]
  have hproto := congrArg (fun p : Prototype =>
    { p with placements := d'.prototype.placements.insert id spot }) h.prototype
  exact hproto

/-- Nodes that are alike get the same number. -/
theorem addNode (h : d.Alike ρ ρ' H d') {n n' : Node} {heap heap' : Heap}
    (hn : MadeAlike ρ ρ' H (n, heap) (n', heap')) :
    ({ d with heap }.addNode n).1 = ({ d' with heap := heap' }.addNode n').1 ∧
      ({ d with heap }.addNode n).2.Alike ρ ρ' H ({ d' with heap := heap' }.addNode n').2 := by
  have hadd := Slots.add_map d.prototype.graph (Node.renameArrays ρ) n
  have hadd' := Slots.add_map d'.prototype.graph (Node.renameArrays ρ') n'
  have hsame : (d.prototype.graph.map (Node.renameArrays ρ)).add (n.renameArrays ρ) =
      (d'.prototype.graph.map (Node.renameArrays ρ')).add (n'.renameArrays ρ') := by
    rw [h.graph, hn.1]
  rw [hadd, hadd', Prod.mk.injEq] at hsame
  have hheap : Draft.Alike ρ ρ' H { d with heap } { d' with heap := heap' } := ⟨h.prototype, hn.2⟩
  exact ⟨hsame.1, hheap.with_graph hsame.2⟩

end Draft.Alike

/-- A signal that is no array stays as it is. -/
theorem Signal.renameArrays_of_not_array {v : Signal} (hv : v.asArray? = none)
    (ρ : ArrayId → ArrayId) : v.renameArrays ρ = v := by
  cases v with
  | array i => cases hv
  | _ => rfl

/-- Where nodes are made alike, templates are loaded alike. -/
theorem Draft.kept_alike {r r' : Registry} {ρ ρ' : ArrayId → ArrayId} {H : Heap → Heap → Prop}
    (hmake : ∀ key h h', H h h' →
      Agree (MadeAlike ρ ρ' H) (r.makeNode key h) (r'.makeNode key h')) :
    Draft.Kept r r' (Draft.Alike ρ ρ' H) where
  key h := by
    have hkey := congrArg Prototype.key h.prototype
    exact hkey
  inputs h := by
    have hinputs := congrArg Prototype.inputs h.prototype
    exact hinputs
  outputs h := by
    have houtputs := congrArg Prototype.outputs h.prototype
    exact houtputs
  connect h s t := h.connect s t
  place h id spot := h.place id spot
  setCanvas h canvas := ⟨congrArg (fun p : Prototype => { p with canvas }) h.prototype, h.heap⟩
  add h key := (hmake key _ _ h.heap).bind fun a b hab => .ok (h.addNode (n := a.1) hab)
  constant := by
    intro d d' h v hv
    have hn : MadeAlike ρ ρ' H (Node.native (.constant v), d.heap)
        (Node.native (.constant v), d'.heap) := by
      refine ⟨?_, h.heap⟩
      rw [Node.renameArrays_native, Node.renameArrays_native, Logic.renameArrays,
        v.renameArrays_of_not_array hv, Logic.renameArrays, v.renameArrays_of_not_array hv]
    exact h.addNode hn

end PulseFlow
