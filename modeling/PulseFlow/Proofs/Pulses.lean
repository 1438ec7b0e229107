import PulseFlow.Proofs.Counting

/-!
# Waves with one node due

In a chain of nodes one node is due at a time: it gets the last of its signals (`due`), fires in the
next wave, and its signals make the next one due.  A node with two inputs has its first signal for a
while before the second comes (`kept`).  Such a wave is what the firing does, and then a sweep.

    e.fire id xs = (.ok (), e') → (e.due id xs).step = (.ok e'.sweep.hasPending, …)      (step_due)
    e.deliver ⟨id, 0⟩ s = e.due id [s]                                            (deliver_one)
    (e.kept id 0 s).deliver ⟨id, 1⟩ s' = e.due id [s, s']                         (deliver_second)
-/

namespace PulseFlow

open Counter (holding)

/-! ## Slots -/

namespace Slots

variable {α : Type} {s t : Slots α}

theorem ext_of_get? (hsize : s.cells.size = t.cells.size) (hvacant : s.vacant = t.vacant)
    (hclosed : s.closed = t.closed) (h : ∀ i, s.get? i = t.get? i) : s = t := by
  have hcells : s.cells = t.cells := by
    refine Array.ext hsize fun i hs ht => ?_
    have hi := h i
    rw [get?_eq_join, get?_eq_join, Array.getElem?_eq_getElem hs,
      Array.getElem?_eq_getElem ht] at hi
    exact hi
  cases s
  cases t
  cases hcells
  cases hvacant
  cases hclosed
  rfl

theorem modify_modify (s : Slots α) (i : Nat) (f g : α → α) :
    (s.modify i f).modify i g = s.modify i (g ∘ f) := by
  refine ext_of_get? (by simp) rfl rfl fun j => ?_
  rw [get?_modify, get?_modify, get?_modify]
  by_cases hj : i = j
  · rw [if_pos hj, if_pos hj, if_pos hj, Option.map_map]
  · rw [if_neg hj, if_neg hj, if_neg hj]

theorem modify_comm (s : Slots α) {i j : Nat} (hij : i ≠ j) (f g : α → α) :
    (s.modify i f).modify j g = (s.modify j g).modify i f := by
  refine ext_of_get? (by simp) rfl rfl fun k => ?_
  simp only [get?_modify]
  by_cases hi : i = k
  · have hj : j ≠ k := fun hj => hij (hi.trans hj.symm)
    simp [hi, hj]
  · simp [hi]

theorem modify_self {i : Nat} {a : α} (h : s.get? i = some a) {f : α → α} (hf : f a = a) :
    s.modify i f = s := by
  refine ext_of_get? (by simp) rfl rfl fun j => ?_
  rw [get?_modify]
  by_cases hj : i = j
  · rw [if_pos hj, ← hj, h, Option.map_some, hf]
  · rw [if_neg hj]

end Slots

/-- A list that is increasing is the list of its set. -/
theorem SortedSet.toList_ofList {α : Type} [Ord α] [Std.TransOrd α] [Std.LawfulEqOrd α]
    {l : List α} (h : Increasing l) : (ofList l).toList = l :=
  (ofList l).increasing.eq_of_mem_iff h fun _ => mem_ofList

/-! ## Nodes that wait for signals -/

/-- A node without signals. -/
structure Node.Quiet (n : Node) (arity : Nat) : Prop where
  inputs : n.inputs = List.replicate arity none
  scheduled : n.scheduled = false

theorem Node.Quiet.drain_holding {n : Node} {xs : List Signal} (h : n.Quiet xs.length) :
    (holding xs n).drain = n := by
  have hinputs : (xs.map some).map (fun _ => (none : Option Signal)) = n.inputs := by
    simp [h.inputs, Function.comp_def, List.map_const']
  rw [Node.drain, holding]
  dsimp only
  rw [hinputs, ← h.scheduled]

theorem Node.held_holding (n : Node) (xs : List Signal) : (holding xs n).held = xs := by
  simp [Node.held, holding, Function.comp_def]

namespace Engine

variable {e e₁ : Engine} {id : NodeId} {n : Node}

/-- A node has all of its signals and waits to be fired. -/
def due (e : Engine) (id : NodeId) (xs : List Signal) : Engine :=
  { e with graph := e.graph.modify id (holding xs), pending := e.pending ++ [id] }

theorem hasPending_due (e : Engine) (id : NodeId) (xs : List Signal) :
    (e.due id xs).hasPending = true := by
  simp [due, hasPending]

/-- A node has one of its signals. -/
def kept (e : Engine) (id : NodeId) (port : Nat) (s : Signal) : Engine :=
  { e with graph := e.graph.modify id fun n => n.store port s }

theorem get?_due {t : NodeId} (hne : t ≠ id) (xs : List Signal) :
    (e.due t xs).graph.get? id = e.graph.get? id := by
  rw [due, Slots.get?_modify, if_neg hne]

theorem get?_kept {t : NodeId} (hne : t ≠ id) (port : Nat) (s : Signal) :
    (e.kept t port s).graph.get? id = e.graph.get? id := by
  rw [kept, Slots.get?_modify, if_neg hne]

theorem kept_due {a b : NodeId} (hab : a ≠ b) (xs : List Signal) (port : Nat) (s : Signal) :
    (e.due a xs).kept b port s = (e.kept b port s).due a xs := by
  unfold kept due
  simp only [Engine.mk.injEq, and_true]
  exact e.graph.modify_comm hab _ _

/-! ## Delivering -/

/-- A signal that is not the last one is kept. -/
theorem deliver_kept (hn : e.graph.get? id = some n) {port : Nat} (hport : port < n.inputs.length)
    {s : Signal} (hready : (n.store port s).ready = false) :
    e.deliver ⟨id, port⟩ s = e.kept id port s := by
  have hgraph : e.graph.modify id (fun _ => n.store port s) =
      e.graph.modify id fun n => n.store port s := Slots.modify_congr hn rfl
  unfold deliver
  rw [hn]
  dsimp only
  rw [if_pos hport, hready, Bool.false_and, if_neg Bool.false_ne_true, hgraph, kept]

/-- With the last signal the node is due. -/
theorem deliver_due (hn : e.graph.get? id = some n) {port : Nat} (hport : port < n.inputs.length)
    (hidle : n.scheduled = false) {s : Signal} {xs : List Signal}
    (hall : (n.store port s).inputs = xs.map some) (hxs : xs ≠ []) :
    e.deliver ⟨id, port⟩ s = e.due id xs := by
  have hready : (n.store port s).ready = true := by
    rw [Node.ready, hall]
    cases xs with
    | nil => exact absurd rfl hxs
    | cons x xs => simp
  have hnode : { n.store port s with scheduled := true } = holding xs n := by
    rw [holding, ← hall]
    rfl
  have hgraph : e.graph.modify id (fun _ => { n.store port s with scheduled := true }) =
      e.graph.modify id (holding xs) := Slots.modify_congr hn hnode
  have hstored : (n.store port s).scheduled = false := hidle
  unfold deliver
  rw [hn]
  dsimp only at hgraph ⊢
  rw [if_pos hport, hready, hstored, Bool.not_false, Bool.and_true, if_pos rfl, hgraph, due]

theorem deliver_one (hn : e.graph.get? id = some n) (hq : n.Quiet 1) (s : Signal) :
    e.deliver ⟨id, 0⟩ s = e.due id [s] := by
  apply deliver_due hn
  · simp [hq.inputs]
  · exact hq.scheduled
  · simp [Node.store, hq.inputs]
  · simp

theorem deliver_first (hn : e.graph.get? id = some n) (hq : n.Quiet 2) (s : Signal) :
    e.deliver ⟨id, 0⟩ s = e.kept id 0 s := by
  apply deliver_kept hn
  · simp [hq.inputs]
  · simp [Node.store, Node.ready, hq.inputs]

theorem deliver_second (hn : e.graph.get? id = some n) (hq : n.Quiet 2) (s s' : Signal) :
    (e.kept id 0 s).deliver ⟨id, 1⟩ s' = e.due id [s, s'] := by
  have hn' : (e.kept id 0 s).graph.get? id = some (n.store 0 s) := by
    rw [kept, Slots.get?_modify, if_pos rfl, hn]
    rfl
  have hport : 1 < (n.store 0 s).inputs.length := by simp [Node.store, hq.inputs]
  have hall : ((n.store 0 s).store 1 s').inputs = [s, s'].map some := by
    simp [Node.store, hq.inputs]
  rw [deliver_due hn' hport hq.scheduled hall (List.cons_ne_nil s [s']), due, kept, due,
    Slots.modify_modify]
  rfl

theorem toList_pair {s t : Socket} (h : s.node < t.node) :
    (SortedSet.ofList [s, t]).toList = [s, t] := by
  refine SortedSet.toList_ofList (List.pairwise_pair.2 ?_)
  have hnodes : compare s.node t.node = .lt := Nat.compare_eq_lt.2 h
  show (compare s.node t.node).then _ = .lt
  rw [hnodes]
  rfl

/-- Of two nodes that get a signal, the one with two inputs keeps it. -/
theorem deliver_pair {a b : NodeId} {na nb : Node} (ha : e.graph.get? a = some na)
    (hqa : na.Quiet 1) (hb : e.graph.get? b = some nb) (hqb : nb.Quiet 2) (hab : a < b)
    (s : Signal) :
    (SortedSet.ofList [(⟨a, 0⟩ : Socket), ⟨b, 0⟩]).toList.foldl (fun e t => e.deliver t s) e =
      (e.kept b 0 s).due a [s] := by
  have hne : a ≠ b := Nat.ne_of_lt hab
  rw [toList_pair hab, List.foldl_cons, List.foldl_cons, List.foldl_nil, deliver_one ha hqa,
    deliver_first ((get?_due hne _).trans hb) hqb, kept_due hne]

/-! ## Firing -/

theorem emit_of_fan (hn : e.graph.get? id = some n) {port : Nat} {fan : Fan}
    (hfan : n.fan? port = some fan) (s : Signal) :
    e.emit ⟨id, port⟩ s = fan.toList.foldl (fun e target => e.deliver target s) e := by
  rw [emit, hn, Option.bind_some, hfan]

/-- A logic that stays as it is only emits. -/
theorem fire_native (hn : e.graph.get? id = some n) {l : Logic} (hl : n.body = .native l)
    (htrace : e.settings.traceFiring = false) {xs : List Signal}
    (hsame : (l.fire xs e.world).logic = l) :
    e.fire id xs = (.ok (), (l.fire xs e.world).emissions.foldl
      (fun e m => e.emit ⟨id, m.port⟩ m.signal) { e with world := (l.fire xs e.world).world }) := by
  have hgraph : e.graph.modify id (fun n => { n with body := .native l }) = e.graph :=
    Slots.modify_self hn (by rw [← hl])
  have huntraced : e.traceFiring id n = e := by
    rw [traceFiring, htrace, if_neg Bool.false_ne_true]
  rw [fire, hn]
  dsimp only
  rw [huntraced, hl]
  dsimp only
  rw [fireLogic, hsame, hgraph]

/-- A node that emits one signal and changes nothing. -/
theorem fire_single (hn : e.graph.get? id = some n) {l : Logic} (hl : n.body = .native l)
    (htrace : e.settings.traceFiring = false) (xs : List Signal) {port : Nat} {s : Signal}
    (hfire : l.fire xs e.world = ⟨l, [⟨port, s⟩], e.world⟩) {fan : Fan}
    (hfan : n.fan? port = some fan) :
    e.fire id xs = (.ok (), fan.toList.foldl (fun e target => e.deliver target s) e) := by
  rw [fire_native hn hl htrace (by rw [hfire]), hfire, ← emit_of_fan hn hfan s]
  rfl

theorem engage_of_acquire (hn : e.graph.get? id = some n) {key : Key} {bound : Option Instance}
    (hb : n.body = .reference key bound) {p : Prototype} (hp : e.prototype? key = some p)
    {i : Instance} (hi : e.acquire id p = (i, e₁)) :
    e.engage id = .ok { e₁ with
      graph := (route e₁.graph i.outputs n.outputs).modify id fun n => n.bind (some i)
      watch := e₁.watch ++ [id] } := by
  rw [engage, hn]
  dsimp only
  rw [hb]
  dsimp only
  rw [hp]
  dsimp only
  rw [hi]

/-- A reference that is bound as it fires. -/
theorem fire_unbound (hn : e.graph.get? id = some n) {key : Key}
    (hb : n.body = .reference key none) (htrace : e.settings.traceFiring = false)
    (hengage : e.engage id = .ok e₁) (xs : List Signal) :
    e.fire id xs = (.ok (), e₁.forward id xs) := by
  rw [fire, hn]
  dsimp only
  rw [traceFiring, htrace, if_neg Bool.false_ne_true, hb]
  dsimp only
  rw [hengage]

theorem forward_of_instance {i : Instance} (hi : e.instance? id = some i) (xs : List Signal) :
    e.forward id xs = (i.inputs.zip xs).foldl (fun e x => e.emit ⟨x.1, 0⟩ x.2) e := by
  rw [forward, hi]
  rfl

/-- A wave in which one node is due. -/
theorem step_due (hp : e.pending = []) (hn : e.graph.get? id = some n) {xs : List Signal}
    (hq : n.Quiet xs.length) (hfire : e.fire id xs = (.ok (), e₁)) :
    (e.due id xs).step =
      (.ok e₁.sweep.hasPending, { e₁.sweep with steps := e₁.sweep.steps + 1 }) := by
  have hget : (e.due id xs).graph.get? id = some (holding xs n) := by
    rw [due, Slots.get?_modify, if_pos rfl, hn]
    rfl
  have hdrained : (e.due id xs).graph.modify id Node.drain = e.graph := by
    rw [due, Slots.modify_modify]
    exact Slots.modify_self hn hq.drain_holding
  have hpending : (e.due id xs).pending = [id] := by
    rw [due, hp]
    rfl
  have hcollect : collect (e.due id xs).graph [id] = ([⟨id, xs⟩], e.graph) := by
    rw [collect, hget]
    dsimp only
    rw [hdrained, collect, n.held_holding]
  have hstart : { e.due id xs with graph := e.graph, pending := [] } = e := by
    rw [due, ← hp]
  rw [step, hpending, hcollect]
  dsimp only
  rw [hstart, fireAll]
  dsimp only
  rw [hfire]
  rfl

/-! ## Sweeping -/

theorem sweep_of_active (h : ∀ id ∈ e.watch, e.isActive id = true) : e.sweep = e := by
  have hnone : e.watch.filter (fun id => !e.isActive id) = [] :=
    List.filter_eq_nil_iff.2 fun id hid => by simp [h id hid]
  rw [sweep, hnone, List.foldl_nil]

/-- Only the reference that was bound last has gone quiet. -/
theorem sweep_last {ids : List NodeId} (hwatch : e.watch = ids ++ [id])
    (hactive : ∀ m ∈ ids, e.isActive m = true) (hquiet : e.isActive id = false) :
    e.sweep = e.dismiss id := by
  have hlast : e.watch.filter (fun id => !e.isActive id) = [id] := by
    rw [hwatch, List.filter_append, List.filter_eq_nil_iff.2, List.nil_append]
    · simp [hquiet]
    · exact fun m hm => by simp [hactive m hm]
  rw [sweep, hlast, List.foldl_cons, List.foldl_nil]

/-- Dismissing an instance in which nothing is bound. -/
theorem dismiss_of_leaf (hn : e.graph.get? id = some n) {key : Key} {i : Instance}
    (hb : n.body = .reference key (some i))
    (hleaf : ∀ m ∈ i.nodes, (e.unbind id).instance? m = none) :
    e.dismiss id =
      ({ e.unbind id with graph := unroute (e.unbind id).graph i.outputs }).shelve key i := by
  have hfold : ∀ (depth : Nat) (ms : List NodeId) (e' : Engine),
      (∀ m ∈ ms, e'.instance? m = none) → ms.foldl (dismissWithin depth) e' = e' := by
    intro depth ms
    induction ms with
    | nil => exact fun _ _ => rfl
    | cons m ms ih =>
      intro e' h
      rw [List.foldl_cons, dismissWithin_of_unbound (h m List.mem_cons_self)]
      exact ih e' fun x hx => h x (List.mem_cons_of_mem m hx)
  rw [dismiss, depthBound, dismissWithin_of_bound hn hb, hfold _ _ _ hleaf]

theorem shelve_of_fits {key : Key} {i : Instance} {p : Prototype} (hp : e.prototype? key = some p)
    (hfits : e.fitsPool p i = true) :
    e.shelve key i = (e.report (.pooled i.id key)).putPrototype { p with pool := i :: p.pool } := by
  rw [shelve, hp]
  dsimp only
  rw [if_pos hfits]

end Engine

end PulseFlow
