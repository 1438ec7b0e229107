import PulseFlow.Proofs.Nests
import PulseFlow.Proofs.Residue
import PulseFlow.Proofs.Settling

/-!
# Giving instances back

At the end of a wave the references that have gone quiet give their instances back.  They do so in
the order in which they were bound, each after the references in its own instance (`returned`).  An
instance goes to the pool of its prototype if it is a copy of the template as it is now and there is
room, and is freed otherwise; so the pools can be told in advance (`stock`).  Nothing else happens:
what waits to be fired is not touched, and references that are active stay bound.

    e.Returns (boundIn e.graph (nestWithin e.graph depth id)).eraseDups
      (dismissWithin depth e id)                                      (dismissWithin_returns)
    Sound (.rest e) → e.Recycles e.sweep                                  (recycles_of_sound)
-/

namespace PulseFlow

/-! ## Pools -/

namespace Prototype

/-- Those of some instances that the pool takes, one after another: copies of the template as it is
now, as long as there is room. -/
def taken (p : Prototype) (capacity : Option Nat) (is : List Instance) : List Instance :=
  let current := is.filter fun i => i.revision == p.revision
  match capacity with
  | some c => current.take (c - p.pool.length)
  | none => current

/-- A prototype to which instances were given back, one after another. -/
def stock (p : Prototype) (capacity : Option Nat) (is : List Instance) : Prototype :=
  { p with pool := (p.taken capacity is).reverse ++ p.pool }

variable (p : Prototype) (capacity : Option Nat)

theorem stock_nil : p.stock capacity [] = p := by
  have hnone : p.taken capacity [] = [] := by cases capacity <;> simp [taken]
  rw [stock, hnone]
  rfl

theorem stock_append (is js : List Instance) :
    p.stock capacity (is ++ js) = (p.stock capacity is).stock capacity js := by
  have htaken : p.taken capacity (is ++ js) =
      p.taken capacity is ++ (p.stock capacity is).taken capacity js := by
    cases capacity with
    | none => simp [taken, stock]
    | some c =>
      -- what is taken first leaves so much less room
      simp only [taken, stock, List.filter_append, List.take_append, List.length_append,
        List.length_reverse, List.length_take]
      congr 2
      omega
  simp [stock, htaken]

theorem mem_of_mem_taken {i : Instance} {is : List Instance} (h : i ∈ p.taken capacity is) :
    i ∈ is := by
  cases capacity with
  | none => exact List.mem_of_mem_filter h
  | some c => exact List.mem_of_mem_filter (List.mem_of_mem_take h)

end Prototype

/-! ## Bindings -/

/-- The prototype that a bound reference stands for, and its instance. -/
def Body.binding? : Body → Option (Key × Instance)
  | native _ => none
  | reference key i => i.map (key, ·)

theorem Body.instance?_eq_binding? (b : Body) : b.instance? = b.binding?.map Prod.snd := by
  cases b with
  | native l => rfl
  | reference key i => cases i <;> rfl

namespace Graph

variable {g : Graph} {id k : NodeId}

def binding? (g : Graph) (id : NodeId) : Option (Key × Instance) :=
  (g.get? id).bind fun n => n.body.binding?

theorem instance?_eq_binding? (g : Graph) (id : NodeId) :
    instance? g id = (binding? g id).map Prod.snd := by
  unfold instance? binding?
  cases g.get? id with
  | none => rfl
  | some n => exact n.body.instance?_eq_binding?

theorem instance?_of_binding? {key : Key} {i : Instance} (h : binding? g id = some (key, i)) :
    instance? g id = some i := by
  rw [instance?_eq_binding?, h, Option.map_some]

theorem binding?_eq_none : binding? g id = none ↔ instance? g id = none := by
  rw [instance?_eq_binding?, Option.map_eq_none_iff]

theorem binding?_ne_none : binding? g id ≠ none ↔ (instance? g id).isSome = true := by
  rw [Ne, binding?_eq_none, ← Option.ne_none_iff_isSome]

theorem binding?_of_get? {n : Node} {key : Key} {i : Instance} (hn : g.get? id = some n)
    (hb : n.body = .reference key (some i)) : binding? g id = some (key, i) := by
  rw [binding?, hn, Option.bind_some, hb]
  rfl

theorem binding?_unbind (g : Graph) (id k : NodeId) :
    binding? (g.modify id fun n => n.bind none) k = if k = id then none else binding? g k := by
  by_cases hk : k = id
  · rw [if_pos hk, binding?_eq_none, instance?_unbind, if_pos hk]
  · rw [if_neg hk, binding?, Slots.get?_modify, if_neg (Ne.symm hk), binding?]

theorem binding?_unroute (g : Graph) (outputs : List NodeId) (k : NodeId) :
    binding? (Engine.unroute g outputs) k = binding? g k := by
  unfold binding?
  rw [get?_unroute]
  split
  · cases g.get? k <;> rfl
  · rfl

theorem binding?_foldl_vacate {nodes : List NodeId} (h : ∀ m ∈ nodes, instance? g m = none)
    (k : NodeId) : binding? (nodes.foldl Slots.vacate g) k = binding? g k := by
  induction nodes generalizing g with
  | nil => rfl
  | cons m ms ih =>
    have hm := h m List.mem_cons_self
    rw [List.foldl_cons, ih fun x hx => (instance?_vacate hm x).trans
      (h x (List.mem_cons_of_mem m hx))]
    by_cases hk : k = m
    · rw [hk, binding?_eq_none.2 hm, binding?_eq_none, instance?_vacate hm, hm]
    · rw [binding?, get?_vacate_of_ne hk, binding?]

/-- Those of some nodes that are bound. -/
def boundIn (g : Graph) (ids : List NodeId) : List NodeId :=
  ids.filter fun id => (instance? g id).isSome

theorem mem_boundIn {ids : List NodeId} :
    id ∈ boundIn g ids ↔ id ∈ ids ∧ (instance? g id).isSome = true := List.mem_filter

theorem boundIn_append (g : Graph) (l l' : List NodeId) :
    boundIn g (l ++ l') = boundIn g l ++ boundIn g l' := List.filter_append l l'

theorem boundIn_flatMap {g' : Graph} {p : NodeId → Bool} {f f' : NodeId → List NodeId}
    {ids : List NodeId} (hf : ∀ id ∈ ids, boundIn g' (f' id) = (boundIn g (f id)).filter p) :
    boundIn g' (ids.flatMap f') = (boundIn g (ids.flatMap f)).filter p := by
  rw [boundIn, boundIn, List.filter_flatMap, List.filter_flatMap, List.filter_flatMap]
  exact List.flatMap_congr hf

/-- What is computed of a nest depends on the bindings in it. -/
theorem nestWithin_congr {g' : Graph} {depth : Nat}
    (h : ∀ m ∈ nestWithin g depth id, instance? g' m = instance? g m) :
    nestWithin g' depth id = nestWithin g depth id := by
  induction depth generalizing id with
  | zero => rfl
  | succ depth ih =>
    have hid := h id (self_mem_nestWithin g _ id)
    cases hi : instance? g id with
    | none => rw [nestWithin_of_unbound hi, nestWithin_of_unbound (hid.trans hi)]
    | some i =>
      rw [nestWithin_of_bound hi] at h ⊢
      rw [nestWithin_of_bound (hid.trans hi)]
      refine congrArg (· ++ [id]) (List.flatMap_congr fun k hk => ih fun m hm => h m ?_)
      exact List.mem_append_left _ (List.mem_flatMap.2 ⟨k, hk, hm⟩)

/-- Nothing below a reference contains it. -/
theorem not_mem_nests {i : Instance} {depth : Nat} (hl : Layered g) (hi : instance? g id = some i) :
    id ∉ i.nodes.flatMap (nestWithin g depth) := by
  intro hid
  obtain ⟨m, hm, hid⟩ := List.mem_flatMap.1 hid
  exact hl.not_nested hi hm (nested_of_mem_nestWithin hid)

/-- Below a reference that is unbound all is as before. -/
theorem boundIn_nests_unbind {i : Instance} {depth : Nat} (hl : Layered g)
    (hi : instance? g id = some i) :
    boundIn (g.modify id fun n => n.bind none)
        (i.nodes.flatMap (nestWithin (g.modify id fun n => n.bind none) depth)) =
      boundIn g (i.nodes.flatMap (nestWithin g depth)) := by
  have hsame : ∀ x ∈ i.nodes.flatMap (nestWithin g depth),
      instance? (g.modify id fun n => n.bind none) x = instance? g x := by
    intro x hx
    rw [instance?_unbind, if_neg]
    rintro rfl
    exact not_mem_nests hl hi hx
  have hnests : i.nodes.flatMap (nestWithin (g.modify id fun n => n.bind none) depth) =
      i.nodes.flatMap (nestWithin g depth) :=
    List.flatMap_congr fun m hm => nestWithin_congr fun x hx =>
      hsame x (List.mem_flatMap.2 ⟨m, hm, hx⟩)
  rw [hnests]
  exact List.filter_congr fun x hx => by rw [hsame x hx]

end Graph

/-! ## One reference after another -/

namespace Engine

variable {e e' e'' : Engine} {ids ids' : List NodeId} {id : NodeId} {depth : Nat}

/-- The instances of a prototype that references hold, in the order of the references. -/
def heldBy (e : Engine) (key : Key) (ids : List NodeId) : List Instance :=
  ids.filterMap fun id => ((Graph.binding? e.graph id).filter fun b => b.1 = key).map Prod.snd

theorem heldBy_congr {key : Key}
    (h : ∀ id ∈ ids, Graph.binding? e'.graph id = Graph.binding? e.graph id) :
    e'.heldBy key ids = e.heldBy key ids :=
  List.filterMap_congr fun id hid => by rw [h id hid]

theorem heldBy_append (e : Engine) (key : Key) (ids ids' : List NodeId) :
    e.heldBy key (ids ++ ids') = e.heldBy key ids ++ e.heldBy key ids' := List.filterMap_append

/-- References `ids` have given their instances back in this order, and with each of them those that
are bound below it. -/
structure Returns (e : Engine) (ids : List NodeId) (e' : Engine) : Prop where
  nodup : ids.Nodup
  bound : ∀ id ∈ ids, Graph.binding? e.graph id ≠ none
  closed : ∀ id ∈ ids, ∀ i, e.instance? id = some i → ∀ m ∈ i.nodes,
    Graph.binding? e.graph m ≠ none → m ∈ ids
  binding : ∀ id, Graph.binding? e'.graph id = if id ∈ ids then none else Graph.binding? e.graph id
  prototypes : ∀ key, e'.prototype? key = (e.prototype? key).map fun p =>
    p.stock e.settings.poolCapacity (e.heldBy key ids)
  settings : e'.settings = e.settings

namespace Returns

theorem refl (e : Engine) : e.Returns [] e where
  nodup := List.nodup_nil
  bound := by simp
  closed := by simp
  binding := by simp
  prototypes := by
    intro key
    have hid : (fun p : Prototype => p.stock e.settings.poolCapacity (e.heldBy key [])) = id :=
      funext fun p => p.stock_nil _
    rw [hid, Option.map_id]
    rfl
  settings := rfl

theorem instance? (h : e.Returns ids e') (id : NodeId) :
    e'.instance? id = if id ∈ ids then none else e.instance? id := by
  have hb := h.binding id
  show Graph.instance? e'.graph id = if id ∈ ids then none else Graph.instance? e.graph id
  rw [Graph.instance?_eq_binding?, hb, Graph.instance?_eq_binding?]
  split <;> rfl

theorem anti (h : e.Returns ids e') {id : NodeId} {i : Instance}
    (hi : Graph.instance? e'.graph id = some i) : Graph.instance? e.graph id = some i := by
  have hinst : Graph.instance? e'.graph id =
      if id ∈ ids then none else Graph.instance? e.graph id := h.instance? id
  rw [hinst] at hi
  split at hi
  · cases hi
  · exact hi

theorem named (h : e.Returns ids e') (hn : ∀ k p, e.prototype? k = some p → p.key = k) :
    ∀ k p, e'.prototype? k = some p → p.key = k := by
  intro k p hp
  rw [h.prototypes k, Option.map_eq_some_iff] at hp
  obtain ⟨q, hq, rfl⟩ := hp
  exact hn k q hq

theorem not_mem_of_bound (h : e.Returns ids e') (hid : Graph.binding? e'.graph id ≠ none) :
    id ∉ ids := by
  intro hmem
  rw [h.binding id, if_pos hmem] at hid
  exact hid rfl

theorem trans (h : e.Returns ids e') (h' : e'.Returns ids' e'') : e.Returns (ids ++ ids') e'' := by
  have hout : ∀ id ∈ ids', id ∉ ids := fun id hid => h.not_mem_of_bound (h'.bound id hid)
  have hsame : ∀ id ∈ ids', Graph.binding? e'.graph id = Graph.binding? e.graph id := by
    intro id hid
    rw [h.binding id, if_neg (hout id hid)]
  constructor
  · rw [List.nodup_append]
    exact ⟨h.nodup, h'.nodup, fun a ha b hb hab => hout b hb (hab ▸ ha)⟩
  · intro id hid
    rcases List.mem_append.1 hid with hid | hid
    · exact h.bound id hid
    · exact hsame id hid ▸ h'.bound id hid
  · intro id hid i hi m hm hb
    rcases List.mem_append.1 hid with hid | hid
    · exact List.mem_append_left _ (h.closed id hid i hi m hm hb)
    · by_cases hmem : m ∈ ids
      · exact List.mem_append_left _ hmem
      · have hi' : e'.instance? id = some i := by
          rw [h.instance? id, if_neg (hout id hid), hi]
        have hb' : Graph.binding? e'.graph m ≠ none := by
          rw [h.binding m, if_neg hmem]
          exact hb
        exact List.mem_append_right _ (h'.closed id hid i hi' m hm hb')
  · intro id
    rw [h'.binding id, h.binding id]
    by_cases hmem : id ∈ ids
    · simp [hmem]
    · simp [hmem]
  · intro key
    rw [h'.prototypes key, h.prototypes key, h.settings, heldBy_congr hsame, heldBy_append,
      Option.map_map]
    refine congrArg (Option.map · _) (funext fun p => ?_)
    exact (p.stock_append _ _ _).symm
  · exact h'.settings.trans h.settings

/-- Below a reference that has given its instance back nothing is bound any more. -/
theorem mem_of_nestWithin (h : e.Returns ids e') (hid : id ∈ ids) {m : NodeId}
    (hm : m ∈ Graph.nestWithin e.graph depth id) (hb : Graph.binding? e.graph m ≠ none) :
    m ∈ ids := by
  have hnest := Graph.nested_of_mem_nestWithin hm
  clear hm
  induction hnest with
  | refl => exact hid
  | tail hk hm ih =>
    obtain ⟨i, hi, hm⟩ := hm
    have hbk : Graph.binding? e.graph _ ≠ none := fun hnone => by
      rw [Graph.binding?_eq_none.1 hnone] at hi
      cases hi
    exact h.closed _ (ih hbk) i hi _ hm hb

/-- Those of some nodes that are still bound. -/
theorem boundIn (h : e.Returns ids e') (l : List NodeId) :
    Graph.boundIn e'.graph l = (Graph.boundIn e.graph l).filter fun m => m ∉ ids := by
  rw [Graph.boundIn, Graph.boundIn, List.filter_filter]
  refine List.filter_congr fun m _ => ?_
  rw [show Graph.instance? e'.graph m = if m ∈ ids then none else Graph.instance? e.graph m from
    h.instance? m]
  by_cases hm : m ∈ ids
  · simp [hm]
  · simp [hm]

/-- What is still bound in a nest is what was bound in it, without those that have given their
instances back. -/
theorem boundIn_nestWithin (h : e.Returns ids e') (depth : Nat) (id : NodeId) :
    Graph.boundIn e'.graph (Graph.nestWithin e'.graph depth id) =
      (Graph.boundIn e.graph (Graph.nestWithin e.graph depth id)).filter fun m => m ∉ ids := by
  induction depth generalizing id with
  | zero => exact h.boundIn [id]
  | succ depth ih =>
    have hinst : Graph.instance? e'.graph id =
        if id ∈ ids then none else Graph.instance? e.graph id := h.instance? id
    by_cases hid : id ∈ ids
    · rw [if_pos hid] at hinst
      have hnone : (Graph.boundIn e.graph (Graph.nestWithin e.graph (depth + 1) id)).filter
          (fun m => m ∉ ids) = [] := by
        refine List.filter_eq_nil_iff.2 fun m hm => ?_
        obtain ⟨hm, hb⟩ := Graph.mem_boundIn.1 hm
        simpa using h.mem_of_nestWithin hid hm (Graph.binding?_ne_none.2 hb)
      rw [hnone, Graph.nestWithin_of_unbound hinst]
      simp [Graph.boundIn, hinst]
    · rw [if_neg hid] at hinst
      cases hi : Graph.instance? e.graph id with
      | none =>
        rw [Graph.nestWithin_of_unbound hi, Graph.nestWithin_of_unbound (hinst.trans hi), h.boundIn]
      | some i =>
        rw [Graph.nestWithin_of_bound hi, Graph.nestWithin_of_bound (hinst.trans hi),
          Graph.boundIn_append, Graph.boundIn_append, List.filter_append, h.boundIn [id],
          Graph.boundIn_flatMap fun m _ => ih m]

end Returns

/-! ## Dismissing -/

section Shelve

variable {key : Key} {i : Instance}

theorem settings_shelve (e : Engine) (key : Key) (i : Instance) :
    (e.shelve key i).settings = e.settings := by
  unfold shelve
  split
  · rfl
  · split <;> rfl

theorem binding?_shelve (hun : ∀ m ∈ i.nodes, e.instance? m = none) (key : Key) (k : NodeId) :
    Graph.binding? (e.shelve key i).graph k = Graph.binding? e.graph k := by
  have hfree : Graph.binding? (e.free i).graph k = Graph.binding? e.graph k :=
    Graph.binding?_foldl_vacate hun k
  unfold shelve
  split
  · exact hfree
  · split
    · rfl
    · exact hfree

theorem stock_singleton (e : Engine) (p : Prototype) (i : Instance) :
    p.stock e.settings.poolCapacity [i] =
      if e.fitsPool p i then { p with pool := i :: p.pool } else p := by
  unfold Prototype.stock Prototype.taken fitsPool
  by_cases hrev : i.revision = p.revision
  · cases e.settings.poolCapacity with
    | none => simp [hrev]
    | some c =>
      by_cases hroom : p.pool.length < c
      · obtain ⟨room, hr⟩ := Nat.exists_eq_add_of_lt hroom
        have htake : c - p.pool.length = room + 1 := by omega
        simp [hrev, hroom, htake]
      · have htake : c - p.pool.length = 0 := by omega
        simp [hrev, hroom, htake]
  · cases e.settings.poolCapacity <;> simp [hrev]

/-- An instance goes to the pool of its prototype if it fits, and no other prototype changes. -/
theorem prototype?_shelve (hnamed : ∀ k p, e.prototype? k = some p → p.key = k) (key k : Key)
    (i : Instance) :
    (e.shelve key i).prototype? k = (e.prototype? k).map fun p =>
      p.stock e.settings.poolCapacity (if key = k then [i] else []) := by
  have hput : ∀ p, e.prototype? key = some p →
      ((e.report (.pooled i.id key)).putPrototype { p with pool := i :: p.pool }).prototype? k =
        if k = key then some { p with pool := i :: p.pool } else e.prototype? k := by
    intro p hp
    rw [← hnamed key p hp]
    exact Table.get?_insert _ _ _ _
  by_cases hk : key = k
  · subst hk
    rw [if_pos rfl]
    unfold shelve
    cases hp : e.prototype? key with
    | none => exact hp
    | some p =>
      rw [Option.map_some, stock_singleton]
      show Engine.prototype? (if e.fitsPool p i = true then _ else _) key = _
      by_cases hfit : e.fitsPool p i = true
      · rw [if_pos hfit, if_pos hfit, hput p hp, if_pos rfl]
      · rw [if_neg hfit, if_neg hfit]
        exact hp
  · have hid : (fun p : Prototype => p.stock e.settings.poolCapacity []) = id :=
      funext fun p => p.stock_nil _
    rw [if_neg hk, hid, Option.map_id, id]
    unfold shelve
    cases hp : e.prototype? key with
    | none => rfl
    | some p =>
      show Engine.prototype? (if e.fitsPool p i = true then _ else _) k = _
      by_cases hfit : e.fitsPool p i = true
      · rw [if_pos hfit, hput p hp, if_neg (Ne.symm hk)]
      · rw [if_neg hfit]
        rfl

end Shelve

/-- Dismissing nodes one after another, given what dismissing one of them does. -/
theorem foldl_returns
    (hone : ∀ {e : Engine} {m}, (∀ k p, e.prototype? k = some p → p.key = k) →
      Graph.Layered e.graph → Graph.Shallow e.graph depth m →
      e.Returns (Graph.boundIn e.graph (Graph.nestWithin e.graph depth m)).eraseDups
        (dismissWithin depth e m))
    (ms : List NodeId) (hnamed : ∀ k p, e.prototype? k = some p → p.key = k)
    (hl : Graph.Layered e.graph) (hms : ∀ m ∈ ms, Graph.Shallow e.graph depth m) :
    e.Returns (Graph.boundIn e.graph (ms.flatMap (Graph.nestWithin e.graph depth))).eraseDups
      (ms.foldl (dismissWithin depth) e) := by
  induction ms generalizing e with
  | nil => exact .refl e
  | cons m ms ih =>
    have hfirst := hone hnamed hl (hms m List.mem_cons_self)
    have hrest := ih (hfirst.named hnamed) (hl.anti fun _ _ => hfirst.anti) fun k hk =>
      (hms k (List.mem_cons_of_mem m hk)).anti fun _ _ => hfirst.anti
    rw [Graph.boundIn_flatMap fun k _ => hfirst.boundIn_nestWithin depth k] at hrest
    rw [List.flatMap_cons, Graph.boundIn_append, List.eraseDups_append, List.removeAll,
      List.foldl_cons]
    convert hfirst.trans hrest using 4
    simp

theorem Returns.unroute (h : e.Returns ids e') (outputs : List NodeId) :
    e.Returns ids { e' with graph := Engine.unroute e'.graph outputs } :=
  ⟨h.nodup, h.bound, h.closed, fun k => (Graph.binding?_unroute _ _ k).trans (h.binding k),
    h.prototypes, h.settings⟩

/-- A reference gives its instance back after those that are bound in it. -/
theorem Returns.shelve {key : Key} {i : Instance} (h : (e.unbind id).Returns ids e')
    (hid : Graph.binding? e.graph id = some (key, i))
    (hnodes : ∀ m ∈ i.nodes, Graph.binding? e.graph m ≠ none → m ∈ ids)
    (hnamed : ∀ k p, e.prototype? k = some p → p.key = k) :
    e.Returns (ids ++ [id]) (e'.shelve key i) := by
  have hunbind : ∀ k, Graph.binding? (e.unbind id).graph k =
      if k = id then none else Graph.binding? e.graph k := Graph.binding?_unbind e.graph id
  have hself : Graph.binding? (e.unbind id).graph id = none := (hunbind id).trans (if_pos rfl)
  have hout : ∀ k ∈ ids, k ≠ id := fun k hk hkid => h.bound k hk (hkid ▸ hself)
  have hsame : ∀ k ∈ ids, Graph.binding? (e.unbind id).graph k = Graph.binding? e.graph k :=
    fun k hk => (hunbind k).trans (if_neg (hout k hk))
  have hun : ∀ m ∈ i.nodes, e'.instance? m = none := by
    intro m hm
    refine Graph.binding?_eq_none.1 ?_
    rw [h.binding m, hunbind m]
    split
    · rfl
    · next hmem =>
      split
      · rfl
      · by_contra hb
        exact hmem (hnodes m hm hb)
  constructor
  · rw [List.nodup_append]
    refine ⟨h.nodup, List.nodup_singleton id, fun a ha b hb hab => ?_⟩
    exact hout a ha (hab.trans (List.mem_singleton.1 hb))
  · intro k hk
    rcases List.mem_append.1 hk with hk | hk
    · exact hsame k hk ▸ h.bound k hk
    · rw [List.mem_singleton.1 hk, hid]
      exact Option.some_ne_none _
  · intro k hk j hj m hm hb
    rcases List.mem_append.1 hk with hk | hk
    · by_cases hmid : m = id
      · exact List.mem_append_right _ (List.mem_singleton.2 hmid)
      · refine List.mem_append_left _ (h.closed k hk j ?_ m hm ?_)
        · show Graph.instance? (e.unbind id).graph k = some j
          rw [Graph.instance?_eq_binding?, hsame k hk, ← Graph.instance?_eq_binding?]
          exact hj
        · rw [hunbind m, if_neg hmid]
          exact hb
    · have hji : j = i := by
        have hj' : Graph.instance? e.graph k = some j := hj
        rw [List.mem_singleton.1 hk, Graph.instance?_eq_binding?, hid] at hj'
        exact (Option.some.inj hj').symm
      exact List.mem_append_left _ (hnodes m (hji ▸ hm) hb)
  · intro k
    rw [binding?_shelve hun, h.binding k, hunbind k]
    by_cases hk : k ∈ ids
    · simp [hk]
    · by_cases hkid : k = id
      · simp [hkid]
      · simp [hk, hkid]
  · intro k
    have hheld : e.heldBy k [id] = if key = k then [i] else [] := by
      by_cases hk : key = k
      · simp [heldBy, hid, hk]
      · simp [heldBy, hid, hk, Option.filter]
    rw [prototype?_shelve (h.named hnamed), heldBy_append, hheld, ← heldBy_congr hsame,
      h.prototypes k, Option.map_map, h.settings]
    refine congrArg (Option.map · _) (funext fun p => ?_)
    exact (p.stock_append _ _ _).symm
  · exact (settings_shelve _ _ _).trans h.settings

/-- Dismissing a reference makes it give its instance back, after those that are bound in it. -/
theorem dismissWithin_returns (hnamed : ∀ k p, e.prototype? k = some p → p.key = k)
    (hl : Graph.Layered e.graph) (hs : Graph.Shallow e.graph depth id) :
    e.Returns (Graph.boundIn e.graph (Graph.nestWithin e.graph depth id)).eraseDups
      (dismissWithin depth e id) := by
  have hunbound : ∀ {e : Engine} {id depth}, Graph.instance? e.graph id = none →
      e.Returns (Graph.boundIn e.graph (Graph.nestWithin e.graph depth id)).eraseDups
        (dismissWithin depth e id) := by
    intro e id depth hun
    rw [dismissWithin_of_unbound hun, Graph.nestWithin_of_unbound hun]
    have hnone : Graph.boundIn e.graph [id] = [] := by simp [Graph.boundIn, hun]
    rw [hnone]
    exact .refl e
  induction depth generalizing e id with
  | zero => exact hunbound hs
  | succ depth ih =>
    cases hi : Graph.instance? e.graph id with
    | none => exact hunbound hi
    | some i =>
      obtain ⟨n, hn, hni⟩ := Graph.instance?_eq_some_iff.1 hi
      obtain ⟨key, hb⟩ := Node.reference_of_instance? hni
      have hfades : ∀ k j, Graph.instance? (e.unbind id).graph k = some j →
          Graph.instance? e.graph k = some j := fun _ _ => (Graph.Fades.unbind e.graph id).instance?
      have hfold := foldl_returns (e := e.unbind id) ih i.nodes hnamed (hl.anti hfades)
        fun m hm => (hs i hi m hm).anti hfades
      have hbelow : Graph.boundIn (e.unbind id).graph
            (i.nodes.flatMap (Graph.nestWithin (e.unbind id).graph depth)) =
          Graph.boundIn e.graph (i.nodes.flatMap (Graph.nestWithin e.graph depth)) :=
        Graph.boundIn_nests_unbind hl hi
      rw [hbelow] at hfold
      have hlist : (Graph.boundIn e.graph (Graph.nestWithin e.graph (depth + 1) id)).eraseDups =
          (Graph.boundIn e.graph
            (i.nodes.flatMap (Graph.nestWithin e.graph depth))).eraseDups ++ [id] := by
        have hid : Graph.boundIn e.graph [id] = [id] := by simp [Graph.boundIn, hi]
        have hnot : id ∉ Graph.boundIn e.graph (i.nodes.flatMap (Graph.nestWithin e.graph depth)) :=
          fun hmem => Graph.not_mem_nests hl hi (Graph.mem_boundIn.1 hmem).1
        rw [Graph.nestWithin_of_bound hi, Graph.boundIn_append, hid, List.eraseDups_append]
        simp [List.removeAll, hnot, List.eraseDups_cons]
      rw [dismissWithin_of_bound hn hb, hlist]
      refine (hfold.unroute i.outputs).shelve (Graph.binding?_of_get? hn hb) ?_ hnamed
      intro m hm hbm
      refine List.mem_eraseDups.2 (Graph.mem_boundIn.2 ⟨?_, Graph.binding?_ne_none.1 hbm⟩)
      exact List.mem_flatMap.2 ⟨m, hm, Graph.self_mem_nestWithin _ _ m⟩

/-! ## Sweeping -/

theorem size_unroute (g : Graph) (outputs : List NodeId) :
    (unroute g outputs).cells.size = g.cells.size := by
  unfold unroute
  induction outputs generalizing g with
  | nil => rfl
  | cons o os ih => exact (ih _).trans (Slots.size_modify o _)

theorem size_shelve (e : Engine) (key : Key) (i : Instance) :
    (e.shelve key i).graph.cells.size = e.graph.cells.size := by
  have hvacate : ∀ (ms : List NodeId) (g : Graph),
      (ms.foldl Slots.vacate g).cells.size = g.cells.size := by
    intro ms
    induction ms with
    | nil => exact fun g => rfl
    | cons m ms ih => exact fun g => (ih _).trans (Slots.size_vacate m)
  unfold shelve
  split
  · exact hvacate i.nodes e.graph
  · split
    · rfl
    · exact hvacate i.nodes e.graph

theorem size_dismissWithin (depth : Nat) (e : Engine) (id : NodeId) :
    (dismissWithin depth e id).graph.cells.size = e.graph.cells.size := by
  induction depth generalizing e id with
  | zero => rfl
  | succ depth ih =>
    have hfold : ∀ (ms : List NodeId) (e : Engine),
        (ms.foldl (dismissWithin depth) e).graph.cells.size = e.graph.cells.size := by
      intro ms
      induction ms with
      | nil => exact fun e => rfl
      | cons m ms ihs => exact fun e => (ihs _).trans (ih e m)
    cases hi : e.instance? id with
    | none => rw [dismissWithin_of_unbound hi]
    | some i =>
      obtain ⟨n, hn, hni⟩ := Graph.instance?_eq_some_iff.1 hi
      obtain ⟨key, hb⟩ := Node.reference_of_instance? hni
      rw [dismissWithin_of_bound hn hb, size_shelve]
      exact (size_unroute _ _).trans ((hfold _ _).trans (Slots.size_modify id _))

/-- All references are dismissed down to one depth. -/
theorem foldl_dismiss (ms : List NodeId) (e : Engine) :
    ms.foldl dismiss e = ms.foldl (dismissWithin e.depthBound) e := by
  induction ms generalizing e with
  | nil => rfl
  | cons m ms ih =>
    have hdepth : (dismiss e m).depthBound = e.depthBound :=
      congrArg (· + 1) (size_dismissWithin _ e m)
    rw [List.foldl_cons, List.foldl_cons, ih, hdepth]
    rfl

/-- The references that give their instances back when the engine is swept, in that order: those
that have gone quiet, each after what is bound below it. -/
def returned (e : Engine) : List NodeId :=
  (Graph.boundIn e.graph ((e.watch.filter fun id => !e.isActive id).flatMap e.nest)).eraseDups

theorem sweep_returns (h : Sound (.rest e)) : e.Returns e.returned e.sweep := by
  rw [sweep, foldl_dismiss]
  exact foldl_returns dismissWithin_returns _ h.named h.layered fun m _ =>
    shallow_depthBound h.layered m

theorem isActive_eq_false (h : Graph.Layered e.graph) (id : NodeId) :
    e.isActive id = false ↔ ¬ Graph.Active e.graph id := by
  rw [← isActive_iff h id, Bool.not_eq_true]

theorem mem_returned (h : Sound (.rest e)) (id : NodeId) :
    id ∈ e.returned ↔ id ∈ e.watch ∧ e.isActive id = false := by
  have hwatch : id ∈ e.watch ↔ (Graph.instance? e.graph id).isSome = true := by
    rw [Option.isSome_iff_exists]
    exact h.watching.mem_iff id
  have hquiet : ∀ r, e.isActive r = false ↔ ¬ Graph.Active e.graph r := isActive_eq_false h.layered
  rw [returned, List.mem_eraseDups, Graph.mem_boundIn, List.mem_flatMap, hwatch]
  constructor
  · rintro ⟨⟨r, hr, hid⟩, hb⟩
    obtain ⟨-, hr⟩ := List.mem_filter.1 hr
    rw [Bool.not_eq_true', hquiet] at hr
    exact ⟨hb, (hquiet id).2 (Graph.Nested.not_active ((mem_nest h.layered).1 hid) hr)⟩
  · rintro ⟨hb, hid⟩
    refine ⟨⟨id, List.mem_filter.2 ⟨hwatch.2 hb, by rw [hid]; rfl⟩, ?_⟩, hb⟩
    exact Graph.self_mem_nestWithin _ _ id

theorem mem_heldBy {key : Key} {i : Instance} :
    i ∈ e.heldBy key ids ↔ ∃ id ∈ ids, Graph.binding? e.graph id = some (key, i) := by
  unfold heldBy
  rw [List.mem_filterMap]
  refine exists_congr fun id => and_congr_right fun _ => ?_
  cases hb : Graph.binding? e.graph id with
  | none => simp
  | some b =>
    obtain ⟨k, j⟩ := b
    by_cases hk : k = key
    · simp [Option.filter, hk]
    · simp [Option.filter, hk]

/-- What sweeping does. -/
structure Recycles (e e' : Engine) : Prop where
  active : ∀ id, e.isActive id = true ↔ Graph.Active e.graph id
  pending : e'.pending = e.pending
  /-- What waits to be fired is left alone, -/
  work : ∀ id, Graph.Scheduled e.graph id → e'.graph.get? id = e.graph.get? id
  /-- and so is all that does not lie in a reference gone quiet. -/
  kept : ∀ id, (∀ r ∈ e.watch, e.isActive r = false → id ∉ e.nest r) →
    e'.graph.get? id = e.graph.get? id
  watch : e'.watch = e.watch.filter e.isActive
  bound : ∀ id ∈ e'.watch, Graph.binding? e'.graph id = Graph.binding? e.graph id
  unbound : ∀ id ∈ e.watch, e.isActive id = false → e'.instance? id = none
  /-- The quiet references give their instances back in this order, -/
  order : e.returned.Perm (e.watch.filter fun id => !e.isActive id)
  /-- and pools take what is current as long as there is room. -/
  pools : ∀ key, e'.prototype? key = (e.prototype? key).map fun p =>
    p.stock e.settings.poolCapacity (e.heldBy key e.returned)
  /-- What no pool takes is freed. -/
  freed : ∀ id ∈ e.watch, e.isActive id = false → ∀ key i,
    Graph.binding? e.graph id = some (key, i) →
    (∀ p, e'.prototype? key = some p → i ∉ p.pool) → ∀ m ∈ i.nodes, e'.graph.get? m = none
  rest : e'.outer = e.outer

/-- An instance that a swept reference held is in the pool of no other prototype. -/
theorem not_pooled_of_returned (h : Sound (.rest e)) {key k : Key} {i : Instance} {p : Prototype}
    (hb : Graph.binding? e.graph id = some (key, i)) (hk : k ≠ key)
    (hp : e.sweep.prototype? k = some p) : i ∉ p.pool := by
  have hi := Graph.instance?_of_binding? hb
  rw [(sweep_returns h).prototypes k, Option.map_eq_some_iff] at hp
  obtain ⟨q, hq, rfl⟩ := hp
  intro hmem
  rcases List.mem_append.1 hmem with hmem | hmem
  · have hheld : i ∈ e.heldBy k e.returned := q.mem_of_mem_taken _ (List.mem_reverse.1 hmem)
    obtain ⟨r, -, hr⟩ := mem_heldBy.1 hheld
    rw [h.holder_unique (Graph.instance?_of_binding? hr) hi, hb] at hr
    cases hr
    exact hk rfl
  · exact h.not_pooled_of_bound hi hq hmem

theorem recycles_of_sound (h : Sound (.rest e)) : e.Recycles e.sweep := by
  have hreturns := sweep_returns h
  have hquiet : ∀ r, e.isActive r = false ↔ ¬ Graph.Active e.graph r := isActive_eq_false h.layered
  -- the sweep stays inside the nests of the quiet references
  obtain ⟨hmoves, hun⟩ := sweep_moves_within h
    (S := fun m => ∃ r ∈ e.watch, e.isActive r = false ∧ Graph.Nested e.graph r m)
    (fun k i hk hi m hm => hk.imp fun r hr => ⟨hr.1, hr.2.1, hr.2.2.tail ⟨i, hi, hm⟩⟩)
    fun id hid hact => ⟨id, hid, (hquiet id).2 hact, .refl⟩
  have hkeep : ∀ id, Graph.Active e.graph id → e.sweep.graph.get? id = e.graph.get? id := by
    intro id hid
    refine hmoves.keep ?_
    rintro ⟨r, -, hr, hnest⟩
    exact hnest.not_active ((hquiet r).1 hr) hid
  have h' : Sound (.rest e.sweep) := hmoves.sound h
  have hwork : ∀ id, Graph.Scheduled e.graph id → e.sweep.graph.get? id = e.graph.get? id := by
    rintro id ⟨n, hn, hs⟩
    exact hkeep id (.scheduled hn hs)
  have hreturned : ∀ id, id ∈ e.returned ↔ id ∈ e.watch ∧ e.isActive id = false := mem_returned h
  have hwatch : ∀ id, id ∈ e.sweep.watch ↔ id ∈ e.watch ∧ id ∉ e.returned := by
    intro id
    have hiff : id ∈ e.watch ↔ ∃ i, e.instance? id = some i := h.watching.mem_iff id
    have hiff' : id ∈ e.sweep.watch ↔ ∃ i, e.sweep.instance? id = some i := h'.watching.mem_iff id
    rw [hiff', hiff, hreturns.instance? id]
    by_cases hid : id ∈ e.returned
    · simp [hid]
    · simp [hid]
  constructor
  · exact isActive_iff h.layered
  · have hsub : e.sweep.pending.Sublist e.pending := hmoves.pending
    refine (eq_filter_of_sublist (p := fun _ => true) hsub h.coherent.nodup fun a ha => ?_).trans
      (List.filter_true _)
    obtain ⟨n, hn, hs⟩ := (mem_pending_iff h a).1 ha
    have hmem : a ∈ e.sweep.pending :=
      (mem_pending_iff h' a).2 ⟨n, (hwork a ⟨n, hn, hs⟩).trans hn, hs⟩
    exact iff_of_true hmem rfl
  · exact hwork
  · intro id hid
    refine hmoves.keep ?_
    rintro ⟨r, hr, hact, hnest⟩
    exact hid r hr hact ((mem_nest h.layered).2 hnest)
  · have hsub : e.sweep.watch.Sublist e.watch := hmoves.watch
    refine eq_filter_of_sublist hsub h.watching.nodup fun a ha => ?_
    rw [hwatch, hreturned, ← Bool.not_eq_false]
    exact ⟨fun hnot hact => hnot.2 ⟨ha, hact⟩, fun hact => ⟨ha, fun hmem => hact hmem.2⟩⟩
  · intro id hid
    rw [hreturns.binding id, if_neg ((hwatch id).1 hid).2]
  · intro id _ hid
    exact hun id ((hquiet id).1 hid)
  · refine (List.perm_ext_iff_of_nodup hreturns.nodup (h.watching.nodup.filter _)).2 fun id => ?_
    rw [hreturned, List.mem_filter, Bool.not_eq_true']
    rfl
  · exact hreturns.prototypes
  · intro id _ hid key i hb hpool
    refine hmoves.gone h (Graph.instance?_of_binding? hb) (hun id ((hquiet id).1 hid)) ?_
    intro k p hp
    by_cases hk : k = key
    · exact hpool p (hk ▸ hp)
    · exact not_pooled_of_returned h hb hk hp
  · exact hmoves.outer

/-- Each wave of a session ends with a sweep, in which exactly the references gone quiet give their
instances back. -/
theorem recycles_waves (settings : Settings) (console : Console) (commands : List Command) :
    let e := (fresh settings console).after commands
    (e.step = (.ok e.swept.hasPending, { e.wave.sweep with steps := e.wave.sweep.steps + 1 }) ∧
        e.wave.Recycles e.wave.sweep) ∧
      ∀ w ∈ (fresh settings console).waves commands,
        w.step = (.ok w.swept.hasPending, { w.wave.sweep with steps := w.wave.sweep.steps + 1 }) ∧
          w.wave.Recycles w.wave.sweep := by
  have hwave : ∀ {e : Engine}, e.Settled →
      e.step = (.ok e.swept.hasPending, { e.wave.sweep with steps := e.wave.sweep.steps + 1 }) ∧
        e.wave.Recycles e.wave.sweep := fun h =>
    ⟨step_eq h.sound, recycles_of_sound (wave_spec h.sound).2.1⟩
  exact ⟨hwave (settled_after settings console commands), fun w hw =>
    hwave (settled_of_mem_waves (fresh_settled settings console) hw)⟩

/-- Two references placed by themselves and one inside another instance go quiet in one wave; the
pool has room for one of their instances. -/
def quietSession : List Command :=
  [.call (.register doubleKey 1 1 doubleCourse), .call (.register fourfoldKey 1 1 fourfoldCourse),
    .call (.create doubleKey), .call (.create doubleKey), .call (.create fourfoldKey),
    .call (.pulse ⟨2, 0⟩ (.int 3)), .step, .call (.pulse ⟨0, 0⟩ (.int 1)),
    .call (.pulse ⟨1, 0⟩ (.int 2)), .step, .step]

theorem recycles_quietSession :
    let e := (fresh { poolCapacity := some 1 } (.script {})).after quietSession
    (e.wave.watch, e.wave.returned) = ([2, 5, 0, 1], [5, 0, 1]) ∧
      e.wave.Recycles e.wave.sweep := by
  intro e
  have hquiet : (e.wave.watch, e.wave.returned) = ([2, 5, 0, 1], [5, 0, 1]) := by decide +kernel
  exact ⟨hquiet, (recycles_waves { poolCapacity := some 1 } (.script {}) quietSession).1.2⟩

end Engine

end PulseFlow
