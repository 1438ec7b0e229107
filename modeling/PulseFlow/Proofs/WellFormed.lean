import PulseFlow.Proofs.Rewiring

/-!
# Templates that can be loaded

Whether a template of a document can be loaded is said by its entries alone, without carrying out
any of them: no index is there twice, every name stands for something, and every edge leads from an
output to an input that the nodes made for the entries will have (`Template.WellFormed`).

A load fails at the first entry or edge at which it cannot go on.  Each step of it is decided by a
condition, and if the step is taken, what it leaves allows to decide the next (`Decides`); so the
whole load is decided by all the conditions together.

    Decides (t.WellFormed r.arity?) (t.load r d) fun _ => True              (load_decides)
-/

namespace PulseFlow

open Document

/-! ## Well-formed templates -/

/-- The numbers of inputs and outputs of what a key stands for. -/
def Registry.arity? (r : Registry) (key : Key) : Option (Nat × Nat) :=
  (r.signature? key).map fun s => (s.inputs, s.outputs)

namespace Document

/-- The name of a node, if it has both parts. -/
def PlacedNode.key? (n : PlacedNode) : Option Key :=
  n.category.bind fun category => n.identifier.map fun identifier => ⟨category, identifier⟩

/-- A node of a document, with what can be said in advance of the node that is made for it. -/
structure Entry where
  node : PlacedNode
  /-- The numbers of inputs and outputs; none if the name is incomplete or stands for nothing. -/
  arity? : Option (Nat × Nat)
  /-- Whether it is the placeholder of an output. -/
  isOutput : Bool

namespace Entry

def index (x : Entry) : Nat := x.node.index

/-- A placeholder lets pass what reaches it. -/
def placeholder (isOutput : Bool) (n : PlacedNode) : Entry := ⟨n, some (1, 1), isOutput⟩

/-- An inner node: a constant if it has a value, else what its name stands for. -/
def inner (arity? : Key → Option (Nat × Nat)) (x : PlacedNode × Option Signal) : Entry :=
  ⟨x.1, if x.2.isSome then some (1, 1) else x.1.key?.bind arity?, false⟩

def HasInput (x : Entry) (port : Nat) : Prop := ∃ a ∈ x.arity?, port < a.1

def HasOutput (x : Entry) (port : Nat) : Prop := ∃ a ∈ x.arity?, port < a.2

/-- An edge from output `port` of entry `x` can be drawn: both its ends are there, and it does not
leave the placeholder of an output. -/
def Fits (entries : List Entry) (x : Entry) (port : Nat) (edge : Edge) : Prop :=
  x.isOutput = false ∧ x.HasOutput port ∧
    ∃ y ∈ entries, y.index = edge.node ∧ y.HasInput edge.socket

instance (x : Entry) (port : Nat) : Decidable (x.HasInput port) :=
  inferInstanceAs (Decidable (∃ a ∈ x.arity?, port < a.1))

instance (x : Entry) (port : Nat) : Decidable (x.HasOutput port) :=
  inferInstanceAs (Decidable (∃ a ∈ x.arity?, port < a.2))

instance (entries : List Entry) (x : Entry) (port : Nat) (edge : Edge) :
    Decidable (Fits entries x port edge) :=
  inferInstanceAs (Decidable (x.isOutput = false ∧ x.HasOutput port ∧
    ∃ y ∈ entries, y.index = edge.node ∧ y.HasInput edge.socket))

end Entry

namespace Template

/-- The entries of the placeholders. -/
def boundary (t : Template) : List Entry :=
  t.inputs.map (Entry.placeholder false) ++ t.outputs.map (Entry.placeholder true)

/-- All entries of a template, in the order in which they are loaded. -/
def entries (arity? : Key → Option (Nat × Nat)) (t : Template) : List Entry :=
  t.boundary ++ t.nodes.entries.map (Entry.inner arity?)

/-- A template that can be loaded where keys have the numbers of inputs and outputs given. -/
structure WellFormed (arity? : Key → Option (Nat × Nat)) (t : Template) : Prop where
  /-- No index is there twice. -/
  distinct : ((t.entries arity?).map Entry.index).Nodup
  /-- Every name is complete and stands for something. -/
  known : ∀ x ∈ t.entries arity?, x.arity?.isSome = true
  /-- Every edge can be drawn. -/
  edges : ∀ x ∈ t.entries arity?, ∀ out ∈ x.node.outputs.zipIdx, ∀ edge ∈ out.1,
    x.Fits (t.entries arity?) out.2 edge

instance (arity? : Key → Option (Nat × Nat)) (t : Template) : Decidable (t.WellFormed arity?) :=
  decidable_of_iff (((t.entries arity?).map Entry.index).Nodup ∧
      (∀ x ∈ t.entries arity?, x.arity?.isSome = true) ∧
      ∀ x ∈ t.entries arity?, ∀ out ∈ x.node.outputs.zipIdx, ∀ edge ∈ out.1,
        x.Fits (t.entries arity?) out.2 edge)
    ⟨fun h => ⟨h.1, h.2.1, h.2.2⟩, fun h => ⟨h.distinct, h.known, h.edges⟩⟩

end Template

end Document

/-! ## Steps that a condition decides -/

/-- A step is taken if and only if a condition holds, and leaves what it should. -/
structure Decides {α : Type} (c : Prop) (x : Except Error α) (Q : α → Prop) : Prop where
  accepts : c → ∃ a, x = .ok a ∧ Q a
  refuses : ¬ c → ∃ err, x = .error err

/-- The conditions on the members of a list, each in view of those before it, the last first. -/
def Passes {β : Type} (c : List β → β → Prop) (done : List β) : List β → Prop
  | [] => True
  | x :: xs => c done x ∧ Passes c (x :: done) xs

theorem passes_append {β : Type} {c : List β → β → Prop} {done xs ys : List β} :
    Passes c done (xs ++ ys) ↔ Passes c done xs ∧ Passes c (xs.reverse ++ done) ys := by
  induction xs generalizing done with
  | nil => simp [Passes]
  | cons x xs ih => simp [Passes, ih, and_assoc]

namespace Decides

variable {α β σ : Type} {c c' : Prop} {x : Except Error α} {Q Q' : α → Prop}

theorem congr (h : Decides c x Q) (hc : c ↔ c') : Decides c' x Q :=
  ⟨fun hc' => h.accepts (hc.2 hc'), fun hc' => h.refuses (mt hc.1 hc')⟩

theorem imp (h : Decides c x Q) (hQ : ∀ a, Q a → Q' a) : Decides c x Q' := by
  refine ⟨fun hc => ?_, h.refuses⟩
  obtain ⟨a, ha, hq⟩ := h.accepts hc
  exact ⟨a, ha, hQ a hq⟩

/-- A step that was taken was allowed. -/
theorem of_ok (h : Decides c x Q) {a : α} (hx : x = .ok a) : c ∧ Q a := by
  by_cases hc : c
  · obtain ⟨b, hb, hq⟩ := h.accepts hc
    cases hx.symm.trans hb
    exact ⟨hc, hq⟩
  · obtain ⟨err, herr⟩ := h.refuses hc
    cases hx.symm.trans herr

theorem and (h : Decides c x Q) (hQ' : ∀ a, x = .ok a → Q' a) :
    Decides c x fun a => Q a ∧ Q' a := by
  refine ⟨fun hc => ?_, h.refuses⟩
  obtain ⟨a, ha, hq⟩ := h.accepts hc
  exact ⟨a, ha, hq, hQ' a ha⟩

theorem bind {f : α → Except Error β} {R : β → Prop} (h : Decides c x Q)
    (hf : ∀ a, Q a → Decides c' (f a) R) : Decides (c ∧ c') (x >>= f) R := by
  constructor
  · rintro ⟨hc, hc'⟩
    obtain ⟨a, rfl, ha⟩ := h.accepts hc
    exact (hf a ha).accepts hc'
  · intro hnot
    by_cases hc : c
    · obtain ⟨a, rfl, ha⟩ := h.accepts hc
      exact (hf a ha).refuses fun hc' => hnot ⟨hc, hc'⟩
    · obtain ⟨err, rfl⟩ := h.refuses hc
      exact ⟨err, rfl⟩

/-- What follows a step and cannot fail. -/
theorem map {f : α → β} {R : β → Prop} (h : Decides c x Q) (hR : ∀ a, Q a → R (f a)) :
    Decides c (x >>= fun a => pure (f a)) R := by
  have hf : ∀ a, Q a → Decides True (pure (f a) : Except Error β) R := fun a ha =>
    ⟨fun _ => ⟨f a, rfl, hR a ha⟩, fun hnot => absurd trivial hnot⟩
  exact (h.bind hf).congr (iff_of_eq (and_true c))

/-- The induction is on the list; what was done before is said of the members `g x` stand for. -/
theorem foldlM {f : σ → α → Except Error σ} {g : α → β} {P : List β → σ → Prop}
    {c : List β → β → Prop} {xs : List α}
    (hstep : ∀ x ∈ xs, ∀ done s, P done s → Decides (c done (g x)) (f s x) (P (g x :: done)))
    {done : List β} {s : σ} (hs : P done s) :
    Decides (Passes c done (xs.map g)) (xs.foldlM f s) (P ((xs.map g).reverse ++ done)) := by
  induction xs generalizing done s with
  | nil => exact ⟨fun _ => ⟨s, rfl, hs⟩, fun hnot => absurd trivial hnot⟩
  | cons x xs ih =>
    have hrest : ∀ s', P (g x :: done) s' → Decides (Passes c (g x :: done) (xs.map g))
        (xs.foldlM f s') (P (((x :: xs).map g).reverse ++ done)) := by
      intro s' hs'
      rw [List.map_cons, List.reverse_cons, List.append_assoc, List.singleton_append]
      exact ih (fun y hy => hstep y (List.mem_cons_of_mem x hy)) hs'
    rw [List.foldlM_cons]
    exact (hstep x List.mem_cons_self done s hs).bind hrest

/-- Where each condition is about one member only. -/
theorem foldlM_all {f : σ → α → Except Error σ} {P : σ → Prop} {c : α → Prop} {xs : List α}
    (hstep : ∀ x ∈ xs, ∀ s, P s → Decides (c x) (f s x) P) {s : σ} (hs : P s) :
    Decides (∀ x ∈ xs, c x) (xs.foldlM f s) P := by
  have hall : ∀ done, Passes (fun _ => c) done xs ↔ ∀ x ∈ xs, c x := by
    clear hstep
    induction xs with
    | nil => simp [Passes]
    | cons x xs ih => simp [Passes, ih]
  have hfold : Decides (Passes (fun _ => c) [] (xs.map fun x => x)) (xs.foldlM f s) P :=
    foldlM (P := fun _ => P) (c := fun _ => c) (fun x hx _ => hstep x hx) hs
  rw [List.map_id'] at hfold
  exact hfold.congr (hall [])

end Decides

/-- A connection between nodes that are there is decided by its ports. -/
theorem Graph.connect_decides {g : Graph} {s t : Socket} {n m : Node}
    (hn : g.get? s.node = some n) (hm : g.get? t.node = some m) :
    Decides (s.port < n.outputs.length ∧ t.port < m.inputs.length) (connect g s t) fun g' =>
      g' = g.modify s.node fun n => n.modifyFan s.port fun f => f.insert t := by
  constructor
  · rintro ⟨hs, ht⟩
    obtain ⟨g', hg'⟩ := connect_ok hn hs ⟨m, hm, ht⟩
    exact ⟨g', hg', Engine.graph_connect_ok hg'⟩
  · intro hnot
    cases hc : connect g s t with
    | error err => exact ⟨err, rfl⟩
    | ok g' =>
      unfold connect at hc
      obtain ⟨_, hout, hc⟩ := ok_of_bind hc
      obtain ⟨_, hin, -⟩ := ok_of_bind hc
      simp only [checkOutput, checkInput, find, hn, hm] at hout hin
      exact absurd ⟨checkPort_ok hout, checkPort_ok hin⟩ hnot

theorem Draft.connect_decides {d : Draft} {s t : Socket} {n m : Node}
    (hn : d.prototype.graph.get? s.node = some n) (hm : d.prototype.graph.get? t.node = some m) :
    Decides (s.node ∉ d.prototype.outputs ∧ s.port < n.outputs.length ∧ t.port < m.inputs.length)
      (d.connect s t) fun d' => d' = { d with prototype := { d.prototype with
        graph := d.prototype.graph.modify s.node fun n =>
          n.modifyFan s.port fun f => f.insert t } } := by
  unfold Draft.connect
  by_cases hs : s.node ∈ d.prototype.outputs
  · rw [if_pos (List.contains_iff_mem.2 hs)]
    exact ⟨fun hc => absurd hs hc.1, fun _ => ⟨_, rfl⟩⟩
  · rw [if_neg (mt List.contains_iff_mem.1 hs)]
    refine ((Graph.connect_decides hn hm).map fun g hg => ?_).congr (and_iff_right hs).symm
    rw [hg]

/-! ## Nodes for the entries -/

def Node.arity (n : Node) : Nat × Nat := (n.inputs.length, n.outputs.length)

namespace Document

/-- What an entry needs to be taken up after others. -/
def Entry.Joins (done : List Entry) (x : Entry) : Prop :=
  x.arity?.isSome = true ∧ x.index ∉ done.map Entry.index

theorem Entry.passes_joins {done xs : List Entry} :
    Passes Entry.Joins done xs ↔ (∀ x ∈ xs, x.arity?.isSome = true) ∧
      (xs.map Entry.index).Nodup ∧ ∀ x ∈ xs, x.index ∉ done.map Entry.index := by
  induction xs generalizing done with
  | nil => simp [Passes]
  | cons x xs ih =>
    rw [Passes, ih, List.forall_mem_cons, List.forall_mem_cons, List.map_cons, List.map_cons,
      List.nodup_cons]
    constructor
    · rintro ⟨⟨hx, hnew⟩, hxs, hnodup, hall⟩
      refine ⟨⟨hx, hxs⟩, ⟨fun hmem => ?_, hnodup⟩, hnew, fun y hy hmem => ?_⟩
      · obtain ⟨y, hy, he⟩ := List.mem_map.1 hmem
        exact hall y hy (he ▸ List.mem_cons_self)
      · exact hall y hy (List.mem_cons_of_mem _ hmem)
    · rintro ⟨⟨hx, hxs⟩, ⟨hne, hnodup⟩, hnew, hall⟩
      refine ⟨⟨hx, hnew⟩, hxs, hnodup, fun y hy hmem => ?_⟩
      rcases List.mem_cons.1 hmem with he | hmem
      · exact hne (he ▸ List.mem_map_of_mem hy)
      · exact hall y hy hmem

namespace Loading

variable {t : Template} {r : Registry} {done : List Entry} {l : Loading} {x : Entry} {id : NodeId}
  {n : Node}

/-- The node with number `id` is one that entry `x` may stand for. -/
structure Suits (q : Prototype) (x : Entry) (id : NodeId) (n : Node) : Prop where
  node : q.graph.get? id = some n
  arity : x.arity? = some n.arity
  output : id ∈ q.outputs ↔ x.isOutput = true

/-- A draft in which there is a node for each entry in `done`, filed under its index. -/
structure Holds (done : List Entry) (l : Loading) : Prop where
  tidy : l.draft.prototype.graph.Tidy
  outputs : ∀ b ∈ l.draft.prototype.outputs, ∃ n, l.draft.prototype.graph.get? b = some n
  distinct : (done.map Entry.index).Nodup
  entry : ∀ x ∈ done, ∃ id n, l.indices.lookup x.index = some id ∧
    Suits l.draft.prototype x id n
  filed : ∀ index id, l.indices.lookup index = some id → ∃ x ∈ done, x.index = index

theorem Holds.of_reverse (h : Holds done.reverse l) : Holds done l where
  tidy := h.tidy
  outputs := h.outputs
  distinct := by
    have hnodup := h.distinct
    rwa [List.map_reverse, List.nodup_reverse] at hnodup
  entry := fun x hx => h.entry x (List.mem_reverse.2 hx)
  filed := by
    intro index id hid
    obtain ⟨x, hx, he⟩ := h.filed index id hid
    exact ⟨x, List.mem_reverse.1 hx, he⟩

theorem Holds.lookup_eq_none (h : Holds done l) (hx : x.index ∉ done.map Entry.index) :
    l.indices.lookup x.index = none := by
  cases hl : l.indices.lookup x.index with
  | none => rfl
  | some id =>
    obtain ⟨y, hy, he⟩ := h.filed _ _ hl
    exact absurd (he ▸ List.mem_map_of_mem hy) hx

/-- Filing a node for an entry is decided by the index. -/
theorem Holds.claim (h : Holds done l) (hx : Suits l.draft.prototype x id n) (t : Template) :
    Decides (x.index ∉ done.map Entry.index) (l.claim t x.index id) (Holds (x :: done)) := by
  constructor
  · intro hnew
    refine ⟨{ l with indices := (x.index, id) :: l.indices }, ?_, h.tidy, h.outputs,
      List.nodup_cons.2 ⟨hnew, h.distinct⟩, fun y hy => ?_, fun index a ha => ?_⟩
    · rw [Loading.claim, h.lookup_eq_none hnew]
      rfl
    · rcases List.mem_cons.1 hy with rfl | hy
      · exact ⟨id, n, by simp, hx⟩
      · obtain ⟨a, m, ha, hm⟩ := h.entry y hy
        have hne : y.index ≠ x.index := fun he => hnew (he ▸ List.mem_map_of_mem hy)
        exact ⟨a, m, by rw [List.lookup_cons, beq_false_of_ne hne]; exact ha, hm⟩
    · by_cases hi : index = x.index
      · exact ⟨x, List.mem_cons_self, hi.symm⟩
      · rw [List.lookup_cons, beq_false_of_ne hi] at ha
        obtain ⟨y, hy, he⟩ := h.filed index a ha
        exact ⟨y, List.mem_cons_of_mem x hy, he⟩
  · intro htaken
    obtain ⟨y, hy, he⟩ := List.mem_map.1 (not_not.1 htaken)
    obtain ⟨a, m, ha, -⟩ := h.entry y hy
    rw [he] at ha
    rw [Loading.claim, ha]
    exact ⟨_, rfl⟩

/-- Another node does not disturb those that are there. -/
theorem Holds.addNode (h : Holds done l) (n : Node) (heap : Heap) :
    Holds done { l with draft := ({ l.draft with heap }.addNode n).2 } where
  tidy := Slots.tidy_add h.tidy n
  outputs := by
    intro b hb
    obtain ⟨m, hm⟩ := h.outputs b hb
    exact ⟨m, Slots.get?_add_of_some h.tidy n hm⟩
  distinct := h.distinct
  entry := by
    intro x hx
    obtain ⟨id, m, hid, hm⟩ := h.entry x hx
    exact ⟨id, m, hid, Slots.get?_add_of_some h.tidy n hm.node, hm.arity, hm.output⟩
  filed := h.filed

/-- A node is added for an inner entry and filed. -/
theorem Holds.add (h : Holds done l) (harity : x.arity? = some n.arity)
    (hinner : x.isOutput = false) (t : Template) (heap : Heap) :
    Decides (Entry.Joins done x)
      (Loading.claim t { l with draft := ({ l.draft with heap }.addNode n).2 } x.index
        ({ l.draft with heap }.addNode n).1) (Holds (x :: done)) := by
  have hnew : (l.draft.prototype.graph.add n).1 ∉ l.draft.prototype.outputs := by
    intro hmem
    obtain ⟨m, hm⟩ := h.outputs _ hmem
    rw [Slots.get?_add_fst h.tidy n] at hm
    cases hm
  have hsuits : Suits ({ l.draft with heap }.addNode n).2.prototype x
      (l.draft.prototype.graph.add n).1 n :=
    ⟨Slots.get?_add_self h.tidy n, harity, iff_of_false hnew (by simp [hinner])⟩
  refine ((h.addNode n heap).claim hsuits t).congr ?_
  rw [Entry.Joins, harity, Option.isSome_some]
  simp

/-- A node whose name is incomplete or stands for nothing is not added. -/
theorem addNamed_error {q : PlacedNode} (h : q.key?.bind r.arity? = none) (t : Template)
    (l : Loading) : ∃ err, l.addNamed t r q = .error err := by
  unfold addNamed
  split
  · next category identifier hc hi =>
    have hkey : q.key? = some ⟨category, identifier⟩ := by rw [PlacedNode.key?, hc, hi]; rfl
    rw [hkey, Option.bind_some, Registry.arity?, Option.map_eq_none_iff] at h
    dsimp only
    rw [Draft.add, Registry.makeNode_error h]
    exact ⟨_, rfl⟩
  · exact ⟨_, rfl⟩

/-- A node is added as its name says, and filed. -/
theorem addNamed_eq {q : PlacedNode} {a : Nat × Nat} (h : q.key?.bind r.arity? = some a)
    (t : Template) (l : Loading) : ∃ n heap, n.arity = a ∧ l.addNamed t r q =
      Loading.claim t { l with draft := ({ l.draft with heap }.addNode n).2 } q.index
        ({ l.draft with heap }.addNode n).1 := by
  obtain ⟨key, hkey, ha⟩ := Option.bind_eq_some_iff.1 h
  obtain ⟨sig, hsig, rfl⟩ := Option.map_eq_some_iff.1 ha
  obtain ⟨⟨n, heap⟩, hmake⟩ := Registry.makeNode_ok hsig l.draft.heap
  have hn : sig = n.signature :=
    Option.some.inj (hsig.symm.trans (Registry.signature_makeNode hmake))
  have hadd : l.draft.add r key = .ok ({ l.draft with heap }.addNode n) := by
    rw [Draft.add, hmake]
    rfl
  refine ⟨n, heap, by rw [hn]; rfl, ?_⟩
  obtain ⟨category, hc, hkey⟩ := Option.bind_eq_some_iff.1 hkey
  obtain ⟨identifier, hi, rfl⟩ := Option.map_eq_some_iff.1 hkey
  rw [addNamed, hc, hi]
  dsimp only
  rw [hadd]

/-- Adding a node for an inner entry is decided by its name and its index. -/
theorem Holds.addEntry (h : Holds done l) (t : Template) (x : PlacedNode × Option Signal) :
    Decides (Entry.Joins done (.inner r.arity? x)) (addEntry t r l x)
      (Holds (.inner r.arity? x :: done)) := by
  obtain ⟨q, value⟩ := x
  cases value with
  | some v =>
    exact h.add (n := Node.native (.constant v)) (x := .inner r.arity? (q, some v)) rfl rfl t
      l.draft.heap
  | none =>
    show Decides _ (l.addNamed t r q) _
    cases ha : q.key?.bind r.arity? with
    | none =>
      refine ⟨fun hjoins => ?_, fun _ => addNamed_error ha t l⟩
      have hsome : (q.key?.bind r.arity?).isSome = true := hjoins.1
      rw [ha] at hsome
      cases hsome
    | some a =>
      obtain ⟨n, heap, rfl, hadd⟩ := addNamed_eq ha t l
      rw [hadd]
      exact h.add (x := .inner r.arity? (q, none)) ha rfl t heap

/-! ## Placeholders -/

theorem holds_declared {d : Draft} (hd : d.prototype.Declared) : Holds [] ⟨d, []⟩ where
  tidy := hd.tidy
  outputs := fun b hb => ⟨_, (hd.node b _).2 ⟨List.mem_append_right _ hb, rfl⟩⟩
  distinct := List.nodup_nil
  entry := by simp
  filed := by simp

theorem suits_input {d : Draft} (hd : d.prototype.Declared) (hid : id ∈ d.prototype.inputs)
    (q : PlacedNode) : Suits d.prototype (.placeholder false q) id (Node.native .socket) where
  node := (hd.node id _).2 ⟨List.mem_append_left _ hid, rfl⟩
  arity := rfl
  output := by
    have hnot : id ∉ d.prototype.outputs := fun hmem =>
      (List.nodup_append.1 hd.distinct).2.2 id hid id hmem rfl
    exact iff_of_false hnot (by simp [Entry.placeholder])

theorem suits_output {d : Draft} (hd : d.prototype.Declared) (hid : id ∈ d.prototype.outputs)
    (q : PlacedNode) : Suits d.prototype (.placeholder true q) id (Node.native .socket) where
  node := (hd.node id _).2 ⟨List.mem_append_right _ hid, rfl⟩
  arity := rfl
  output := iff_of_true hid rfl

/-- The placeholders of one side of the boundary are filed unless an index is taken. -/
theorem Holds.claimBoundary (h : Holds done l) {port? : Prototype → Nat → Except Error NodeId}
    {news : List NodeId} {isOutput : Bool} {placed : List PlacedNode}
    (hlen : news.length = placed.length)
    (hport : ∀ j id, news[j]? = some id → port? l.draft.prototype j = .ok id)
    (hsuits : ∀ id ∈ news, ∀ q, ∃ n, Suits l.draft.prototype (.placeholder isOutput q) id n)
    (t : Template) :
    Decides (Passes Entry.Joins done (placed.map (.placeholder isOutput)))
      (l.claimBoundary t port? placed)
      fun l' => Holds ((placed.map (.placeholder isOutput)).reverse ++ done) l' ∧
        l'.draft = l.draft := by
  have hmap : placed.zipIdx.map (fun x => Entry.placeholder isOutput x.1) =
      placed.map (.placeholder isOutput) := by
    rw [← Function.comp_def, ← List.map_map, List.zipIdx_map_fst]
  rw [← hmap]
  refine Decides.foldlM (P := fun done l' => Holds done l' ∧ l'.draft = l.draft) ?_ ⟨h, rfl⟩
  rintro ⟨q, j⟩ hq done l' ⟨hl', hdraft⟩
  have hj : j < news.length := by
    rw [hlen]
    exact (List.getElem?_eq_some_iff.1 (List.mk_mem_zipIdx_iff_getElem?.1 hq)).1
  have hnew : news[j]? = some news[j] := List.getElem?_eq_getElem hj
  obtain ⟨n, hn⟩ := hsuits news[j] (List.getElem_mem hj) q
  rw [← hdraft] at hn
  have hstep : (port? l'.draft.prototype j >>= fun id => l'.claim t q.index id) =
      l'.claim t q.index news[j] := by
    rw [hdraft, hport j _ hnew]
    rfl
  have hjoins : (Entry.placeholder isOutput q).index ∉ done.map Entry.index ↔
      Entry.Joins done (.placeholder isOutput q) := (and_iff_right rfl).symm
  show Decides _ (port? l'.draft.prototype j >>= fun id => l'.claim t q.index id) _
  rw [hstep]
  exact ((hl'.claim hn t).congr hjoins).and fun l'' hl'' => (draft_claim hl'').trans hdraft

/-! ## Connections -/

/-- A change that keeps the numbers of inputs and outputs. -/
theorem Holds.redraw (h : Holds done l) {d : Draft} (htidy : d.prototype.graph.Tidy)
    (hout : d.prototype.outputs = l.draft.prototype.outputs)
    (hrow : ∀ id n, l.draft.prototype.graph.get? id = some n →
      ∃ n', d.prototype.graph.get? id = some n' ∧ n'.arity = n.arity) :
    Holds done { l with draft := d } where
  tidy := htidy
  outputs := by
    intro b hb
    obtain ⟨n, hn⟩ := h.outputs b (hout ▸ hb)
    obtain ⟨n', hn', -⟩ := hrow b n hn
    exact ⟨n', hn'⟩
  distinct := h.distinct
  entry := by
    intro x hx
    obtain ⟨id, n, hid, hn⟩ := h.entry x hx
    obtain ⟨n', hn', ha⟩ := hrow id n hn.node
    exact ⟨id, n', hid, hn', by rw [hn.arity, ha], by rw [hout]; exact hn.output⟩
  filed := h.filed

/-- An edge is drawn if and only if both its ends are there. -/
theorem Holds.wireEdge (h : Holds done l) (hx : x ∈ done) (hid : l.indices.lookup x.index = some id)
    (t : Template) (port : Nat) (edge : Edge) :
    Decides (x.Fits done port edge) (wireEdge t x.node id port l edge)
      fun l' => Holds done l' ∧ l'.indices = l.indices := by
  obtain ⟨id', n, hid', hn⟩ := h.entry x hx
  cases hid.symm.trans hid'
  unfold Loading.wireEdge
  cases htarget : l.indices.lookup edge.node with
  | none =>
    refine ⟨fun hfits => ?_, fun _ => ⟨_, rfl⟩⟩
    obtain ⟨-, -, y, hy, he, -⟩ := hfits
    obtain ⟨b, m, hb, -⟩ := h.entry y hy
    rw [he, htarget] at hb
    cases hb
  | some target =>
    obtain ⟨y, hy, he⟩ := h.filed _ _ htarget
    obtain ⟨target', m, htarget', hm⟩ := h.entry y hy
    rw [he, htarget] at htarget'
    cases htarget'
    have hfits : (id ∉ l.draft.prototype.outputs ∧ port < n.outputs.length ∧
        edge.socket < m.inputs.length) ↔ x.Fits done port edge := by
      constructor
      · rintro ⟨hinner, hport, hsocket⟩
        exact ⟨Bool.eq_false_iff.2 (mt hn.output.2 hinner), ⟨_, hn.arity, hport⟩, y, hy, he, _,
          hm.arity, hsocket⟩
      · rintro ⟨hinner, ⟨a, ha, hport⟩, y', hy', he', b, hb, hsocket⟩
        have hsame : y' = y := List.inj_on_of_nodup_map h.distinct hy' hy (he'.trans he.symm)
        subst hsame
        cases hn.arity.symm.trans ha
        cases hm.arity.symm.trans hb
        exact ⟨mt hn.output.1 (by simp [hinner]), hport, hsocket⟩
    refine ((Draft.connect_decides (s := ⟨id, port⟩) (t := ⟨target, edge.socket⟩) hn.node
      hm.node).map fun d hd => ?_).congr hfits
    subst hd
    refine ⟨h.redraw (Slots.tidy_modify h.tidy _ _) rfl fun b k hk => ?_, rfl⟩
    obtain ⟨k', hk', -, hi, ho⟩ := Draft.row_modifyFan hk
    exact ⟨k', hk', by rw [Node.arity, hi, ho, Node.arity]⟩

/-- An entry is carried out if and only if all its edges can be drawn. -/
theorem Holds.wireNode (h : Holds done l) (hx : x ∈ done) (t : Template) :
    Decides (∀ out ∈ x.node.outputs.zipIdx, ∀ edge ∈ out.1, x.Fits done out.2 edge)
      (wireNode t l x.node) (Holds done) := by
  obtain ⟨id, n, hid, hn⟩ := h.entry x hx
  obtain ⟨d, hplace, hd⟩ : ∃ d, l.draft.place id ⟨x.node.x, x.node.y⟩ = .ok d ∧
      Holds done { l with draft := d } := by
    rw [Draft.place, Graph.find, hn.node]
    exact ⟨_, rfl, h.redraw h.tidy rfl fun b k hk => ⟨k, hk, rfl⟩⟩
  -- drawing an edge leaves the indices, so `id` goes on being the node of the entry
  have hport : ∀ out ∈ x.node.outputs.zipIdx, ∀ l',
      Holds done l' ∧ l'.indices = l.indices →
      Decides (∀ edge ∈ out.1, x.Fits done out.2 edge)
        (out.1.foldlM (Loading.wireEdge t x.node id out.2) l')
        fun l' => Holds done l' ∧ l'.indices = l.indices := by
    intro out _ l' hl'
    refine Decides.foldlM_all (fun edge _ l'' hl'' => ?_) hl'
    have hid'' : l''.indices.lookup x.index = some id := by rw [hl''.2, hid]
    exact (hl''.1.wireEdge hx hid'' t out.2 edge).imp fun _ h' => ⟨h'.1, h'.2.trans hl''.2⟩
  unfold Loading.wireNode
  rw [show l.indices.lookup x.node.index = some id from hid]
  show Decides _ (l.draft.place id ⟨x.node.x, x.node.y⟩ >>= _) _
  rw [hplace]
  exact (Decides.foldlM_all hport ⟨hd, rfl⟩).imp fun _ h' => h'.1

end Loading

/-! ## Whole templates -/

namespace Template

variable {t : Template} {r : Registry} {d : Draft}

theorem map_node_entries (arity? : Key → Option (Nat × Nat)) (t : Template) :
    (t.entries arity?).map Entry.node = t.placed := by
  have hplaceholder : ∀ isOutput, Entry.node ∘ Entry.placeholder isOutput = fun q => q :=
    fun _ => rfl
  have hinner : Entry.node ∘ Entry.inner arity? = Prod.fst := rfl
  rw [placed_eq, entries, boundary, List.map_append, List.map_append, List.map_map, List.map_map,
    List.map_map, hplaceholder, hplaceholder, hinner, List.map_id', List.map_id']

/-- What is asked of a template: the entries can be taken up one after the other, and then the edges
can be drawn. -/
theorem wellFormed_iff {arity? : Key → Option (Nat × Nat)} :
    t.WellFormed arity? ↔ Passes Entry.Joins [] (t.entries arity?) ∧
      ∀ x ∈ t.entries arity?, ∀ out ∈ x.node.outputs.zipIdx, ∀ edge ∈ out.1,
        x.Fits (t.entries arity?) out.2 edge := by
  rw [Entry.passes_joins]
  constructor
  · exact fun h => ⟨⟨h.known, h.distinct, by simp⟩, h.edges⟩
  · rintro ⟨⟨hknown, hdistinct, -⟩, hedges⟩
    exact ⟨hdistinct, hknown, hedges⟩

/-- The connections are made if and only if all edges can be drawn. -/
theorem wire_decides {arity? : Key → Option (Nat × Nat)} {l : Loading}
    (h : Loading.Holds (t.entries arity?).reverse l) :
    Decides (∀ x ∈ t.entries arity?, ∀ out ∈ x.node.outputs.zipIdx, ∀ edge ∈ out.1,
        x.Fits (t.entries arity?) out.2 edge)
      (t.placed.foldlM (Loading.wireNode t) l) fun _ => True := by
  have hall : Loading.Holds (t.entries arity?) l := h.of_reverse
  rw [← map_node_entries arity?, List.foldlM_map]
  exact (Decides.foldlM_all (fun x hx l' hl' => hl'.wireNode hx t) hall).imp fun _ _ => trivial

/-- The placeholders are filed if and only if their indices are distinct. -/
theorem boundary_decides (hd : d.prototype.Declared)
    (hin : d.prototype.inputs.length = t.inputs.length)
    (hout : d.prototype.outputs.length = t.outputs.length) :
    Decides (Passes Entry.Joins [] t.boundary)
      (do
        let l ← Loading.claimBoundary t Prototype.boundaryInput ⟨d, []⟩ t.inputs
        l.claimBoundary t Prototype.boundaryOutput t.outputs)
      (Loading.Holds t.boundary.reverse) := by
  rw [boundary, passes_append, List.reverse_append]
  refine ((Loading.holds_declared hd).claimBoundary hin (fun j id hj => ?_)
    (fun id hid q => ⟨_, Loading.suits_input hd hid q⟩) t).bind ?_
  · rw [Prototype.boundaryInput, hj]
  · rintro l ⟨hl, rfl⟩
    rw [List.append_nil] at hl ⊢
    refine (hl.claimBoundary hout (fun j id hj => ?_)
      (fun id hid q => ⟨_, Loading.suits_output hd hid q⟩) t).imp fun _ h => h.1
    rw [Prototype.boundaryOutput, hj]

/-- A template is loaded into a draft that has only its placeholders if and only if it is well
formed. -/
theorem load_decides (hd : d.prototype.Declared) (hin : d.prototype.inputs.length = t.inputs.length)
    (hout : d.prototype.outputs.length = t.outputs.length) :
    Decides (t.WellFormed r.arity?) (t.load r d) fun _ => True := by
  have hinner : ∀ l, Loading.Holds t.boundary.reverse l →
      Decides (Passes Entry.Joins t.boundary.reverse (t.nodes.entries.map (Entry.inner r.arity?)))
        (t.nodes.entries.foldlM (Loading.addEntry t r) l)
        (Loading.Holds (t.entries r.arity?).reverse) := by
    intro l hl
    rw [entries, List.reverse_append]
    exact Decides.foldlM (fun x _ _ _ h => h.addEntry t x) hl
  have hcanvas : ∀ l, Loading.Holds (t.entries r.arity?).reverse l →
      Loading.Holds (t.entries r.arity?).reverse { l with draft := l.draft.setCanvas t.canvas } :=
    fun l hl => hl.redraw hl.tidy rfl fun _ n hn => ⟨n, hn, rfl⟩
  have hload := (boundary_decides hd hin hout).bind fun l hl =>
    (hinner l hl).bind fun l hl => (wire_decides (hcanvas l hl)).map
      (f := Loading.draft) (R := fun _ => True) fun _ _ => trivial
  rw [bind_assoc] at hload
  rw [load_eq]
  refine hload.congr ?_
  rw [wellFormed_iff, entries, passes_append, List.append_nil, and_assoc]

example : Template.WellFormed (fun _ => none)
    { key := ⟨"User", "Wire"⟩
      inputs := [{ index := 0, outputs := [[⟨1, 0⟩]] }]
      outputs := [{ index := 1 }] } := by
  decide

-- nothing may leave the placeholder of an output
example : ¬ Template.WellFormed (fun _ => none)
    { key := ⟨"User", "Loop"⟩
      inputs := [{ index := 0 }]
      outputs := [{ index := 1, outputs := [[⟨0, 0⟩]] }] } := by
  decide

end Template

end Document

end PulseFlow
