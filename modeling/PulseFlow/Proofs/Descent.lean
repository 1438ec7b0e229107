import PulseFlow.Proofs.Nests

/-!
# Going down into instances

Whether a node is active is found out by going down into the instance it is bound to, and instances
are given back by going down as well.  Here this is said by rules that know no bound on the depth,
so that a derivation is a descent that ends.

* `Looks g ms b`: looking through the nodes `ms` for an active one has the answer `b`.
* `Does e t v e'`: task `t` at engine `e` leads to engine `e'`, with the visits `v`.

A descent has one outcome (`Looks.unique`, `Does.unique`).  Where a node lies in the instance of one
reference at most (`Forest`), it does not visit a node twice in the same way (`Does.nodup`): an
instance can be taken from its reference only once.
-/

namespace PulseFlow

namespace Graph

variable {g g' : Graph} {id m r : NodeId} {ms : List NodeId} {b b' : Bool} {depth : Nat}

/-! ## Forests -/

/-- A node lies in the instance of one reference at most, and once. -/
structure Forest (g : Graph) : Prop where
  single : ∀ r s m, Holds g r m → Holds g s m → r = s
  once : ∀ r i, instance? g r = some i → i.nodes.Nodup

/-- A node lies in the instance of no reference. -/
def Loose (g : Graph) (m : NodeId) : Prop := ∀ r, ¬ Holds g r m

theorem Holds.anti (h : Holds g' r m) (hf : Fades g g') : Holds g r m := by
  obtain ⟨i, hi, hm⟩ := h
  exact ⟨i, hf.instance? hi, hm⟩

theorem Loose.fade (h : Loose g m) (hf : Fades g g') : Loose g' m :=
  fun r hr => h r (hr.anti hf)

theorem Forest.fade (h : Forest g) (hf : Fades g g') : Forest g' where
  single := fun r s m hr hs => h.single r s m (hr.anti hf) (hs.anti hf)
  once := fun r i hi => h.once r i (hf.instance? hi)

theorem Layered.fade (h : Layered g) (hf : Fades g g') : Layered g' :=
  h.anti fun _ _ => hf.instance?

/-- Nodes in hand: they are distinct, and no reference holds them. -/
structure InHand (g : Graph) (ms : List NodeId) : Prop where
  once : ms.Nodup
  loose : ∀ m ∈ ms, Loose g m

theorem InHand.nil (g : Graph) : InHand g [] :=
  ⟨List.nodup_nil, fun _ hm => absurd hm List.not_mem_nil⟩

theorem InHand.tail (h : InHand g (m :: ms)) : InHand g ms :=
  ⟨(List.nodup_cons.1 h.once).2, fun k hk => h.loose k (List.mem_cons_of_mem m hk)⟩

theorem InHand.fade (h : InHand g ms) (hf : Fades g g') : InHand g' ms :=
  ⟨h.once, fun m hm => (h.loose m hm).fade hf⟩

/-- The nodes of an instance are in hand once it is taken from its reference. -/
theorem Forest.inHand_unbind {i : Instance} (h : Forest g) (hi : instance? g id = some i) :
    InHand (g.modify id fun n => n.bind none) i.nodes := by
  refine ⟨h.once id i hi, fun m hm r hr => ?_⟩
  obtain rfl : r = id := h.single r id m (hr.anti (.unbind g id)) ⟨i, hi, hm⟩
  obtain ⟨j, hj, -⟩ := hr
  rw [instance?_unbind, if_pos rfl] at hj
  cases hj

theorem acyclic_of_layered (h : Layered g) (id : NodeId) : ¬ Relation.TransGen (Holds g) id id := by
  intro hcycle
  obtain ⟨m, ⟨i, hi, hm⟩, hback⟩ := Relation.TransGen.head'_iff.1 hcycle
  exact h.not_nested hi hm hback

theorem instance?_of_bound {n : Node} {k : Key} {i : Instance} (hn : g.get? id = some n)
    (hb : n.body = .reference k (some i)) : instance? g id = some i :=
  (instance?_of_get? hn).trans (Node.instance?_of_reference hb)

theorem fades_unroute (g : Graph) (outputs : List NodeId) :
    Fades g (Engine.unroute g outputs) := .refans (refans_unroute g outputs)

/-! ## Looking for activity -/

/-- Looking through nodes for one that is active, up to the first that is. -/
inductive Looks (g : Graph) : List NodeId → Bool → Prop
  | none : Looks g [] false
  | scheduled {m : NodeId} {ms : List NodeId} : Scheduled g m → Looks g (m :: ms) true
  | unbound {m : NodeId} {ms : List NodeId} {b : Bool} : ¬ Scheduled g m → instance? g m = none →
      Looks g ms b → Looks g (m :: ms) b
  | busy {m : NodeId} {ms : List NodeId} {i : Instance} : ¬ Scheduled g m →
      instance? g m = some i → Looks g i.nodes true → Looks g (m :: ms) true
  | quiet {m : NodeId} {ms : List NodeId} {i : Instance} {b : Bool} : ¬ Scheduled g m →
      instance? g m = some i → Looks g i.nodes false → Looks g ms b → Looks g (m :: ms) b

theorem not_active_of_below (hn : ¬ Scheduled g m)
    (hdown : ∀ i, instance? g m = some i → ∀ k ∈ i.nodes, ¬ Active g k) : ¬ Active g m := by
  intro ha
  cases ha with
  | scheduled hm hs => exact hn ⟨_, hm, hs⟩
  | inside hi hk ha => exact hdown _ hi _ hk ha

/-- What is found is whether there is an active node. -/
theorem Looks.active_iff (h : Looks g ms b) : b = true ↔ ∃ m ∈ ms, Active g m := by
  induction h with
  | none => simp
  | @scheduled m ms hs =>
    obtain ⟨n, hn, hs⟩ := hs
    exact iff_of_true rfl ⟨m, List.mem_cons_self, .scheduled hn hs⟩
  | @unbound m ms b hn hi _ ih =>
    have hm : ¬ Active g m := not_active_of_below hn fun i hj => by
      cases hi.symm.trans hj
    rw [ih]
    simp [hm]
  | @busy m ms i _ hi _ ih =>
    obtain ⟨k, hk, ha⟩ := ih.1 rfl
    exact iff_of_true rfl ⟨m, List.mem_cons_self, .inside hi hk ha⟩
  | @quiet m ms i b hn hi _ _ ihdown ih =>
    have hm : ¬ Active g m := not_active_of_below hn fun j hj k hk ha => by
      cases hi.symm.trans hj
      exact Bool.false_ne_true (ihdown.2 ⟨k, hk, ha⟩)
    rw [ih]
    simp [hm]

theorem Looks.unique (h : Looks g ms b) (h' : Looks g ms b') : b = b' :=
  Bool.eq_iff_iff.2 (h.active_iff.trans h'.active_iff.symm)

/-- Looking ends if it ends in the instances one level below. -/
theorem exists_looks_of_below
    (h : ∀ m ∈ ms, ∀ i, instance? g m = some i → ∃ b, Looks g i.nodes b) : ∃ b, Looks g ms b := by
  induction ms with
  | nil => exact ⟨false, .none⟩
  | cons m ms ih =>
    obtain ⟨b, hrest⟩ := ih fun k hk => h k (List.mem_cons_of_mem m hk)
    by_cases hs : Scheduled g m
    · exact ⟨true, .scheduled hs⟩
    cases hi : instance? g m with
    | none => exact ⟨b, .unbound hs hi hrest⟩
    | some i =>
      obtain ⟨b', hdown⟩ := h m List.mem_cons_self i hi
      cases b' with
      | true => exact ⟨true, .busy hs hi hdown⟩
      | false => exact ⟨b, .quiet hs hi hdown hrest⟩

theorem exists_looks (h : ∀ m ∈ ms, Shallow g depth m) : ∃ b, Looks g ms b := by
  induction depth generalizing ms with
  | zero =>
    refine exists_looks_of_below fun m hm i hi => ?_
    have hun : instance? g m = none := h m hm
    cases hun.symm.trans hi
  | succ depth ih => exact exists_looks_of_below fun m hm i hi => ih (h m hm i hi)

end Graph

namespace Engine

variable {e e' : Engine} {id : NodeId} {b : Bool}

theorem looks_isActive (h : Graph.Layered e.graph) (id : NodeId) :
    Graph.Looks e.graph [id] (e.isActive id) := by
  have hends : ∃ b, Graph.Looks e.graph [id] b :=
    Graph.exists_looks fun m _ => shallow_depthBound h m
  obtain ⟨b, hb⟩ := hends
  have hiff : b = true ↔ e.isActive id = true := by
    rw [hb.active_iff, isActive_iff h]
    simp
  rwa [← Bool.eq_iff_iff.2 hiff]

theorem looks_iff (h : Graph.Layered e.graph) :
    Graph.Looks e.graph [id] b ↔ b = e.isActive id :=
  ⟨fun hb => hb.unique (looks_isActive h id), fun hb => hb ▸ looks_isActive h id⟩

/-! ## Giving instances back -/

/-- What one part of the work asks of another. -/
inductive Task where
  /-- Unbinds a reference, if it is bound. -/
  | dismiss (id : NodeId)
  /-- Dismisses the nodes of an instance that was taken from its reference. -/
  | dismissEach (nodes : List NodeId)
  /-- Puts an instance back into its pool, or scraps it. -/
  | shelve (key : Key) (i : Instance)
  /-- Unbinds a node that is about to leave. -/
  | withdraw (id : NodeId)
  /-- Frees an instance with all that is bound inside it. -/
  | scrap (i : Instance)
  /-- Withdraws and frees the nodes of an instance that is scrapped. -/
  | clearEach (nodes : List NodeId)

/-- A node is treated as one of the nodes of its instance. -/
inductive Visit where
  | dismissed (m : NodeId)
  | cleared (m : NodeId)

def Visit.node : Visit → NodeId
  | dismissed m | cleared m => m

namespace Task

/-- The nodes that a task is given to treat one by one. -/
def nodes : Task → List NodeId
  | dismissEach nodes | clearEach nodes => nodes
  | shelve _ i | scrap i => i.nodes
  | dismiss _ | withdraw _ => []

/-- The visits that are a task's own: those to the nodes it is given. -/
def own : Task → List Visit
  | dismissEach nodes => nodes.map .dismissed
  | shelve _ i | scrap i => i.nodes.map .cleared
  | clearEach nodes => nodes.map .cleared
  | dismiss _ | withdraw _ => []

theorem mem_nodes_of_mem_own {t : Task} {x : Visit} (hx : x ∈ t.own) : x.node ∈ t.nodes := by
  cases t with
  | dismissEach _ | clearEach _ | shelve _ _ | scrap _ =>
    obtain ⟨m, hm, rfl⟩ := List.mem_map.1 hx
    exact hm
  | dismiss _ | withdraw _ => cases hx

end Task

/-- `Does e t v e'`: task `t` at engine `e` comes to an end at engine `e'`, with the visits `v`. -/
inductive Does : Engine → Task → List Visit → Engine → Prop
  | unbound {e : Engine} {id : NodeId} : e.instance? id = none → Does e (.dismiss id) [] e
  | bound {e e₁ e₂ : Engine} {id : NodeId} {n : Node} {key : Key} {i : Instance}
      {v v' : List Visit} : e.graph.get? id = some n → n.body = .reference key (some i) →
      Does (e.unbind id) (.dismissEach i.nodes) v e₁ →
      Does { e₁ with graph := unroute e₁.graph i.outputs } (.shelve key i) v' e₂ →
      Does e (.dismiss id) (v ++ v') e₂
  | dismissedAll {e : Engine} : Does e (.dismissEach []) [] e
  | dismissNext {e e₁ e₂ : Engine} {m : NodeId} {ms : List NodeId} {v v' : List Visit} :
      Does e (.dismiss m) v e₁ → Does e₁ (.dismissEach ms) v' e₂ →
      Does e (.dismissEach (m :: ms)) (.dismissed m :: (v ++ v')) e₂
  | pooled {e : Engine} {key : Key} {p : Prototype} {i : Instance} :
      e.prototype? key = some p → e.fitsPool p i = true →
      Does e (.shelve key i) []
        ((e.report (.pooled i.id key)).putPrototype { p with pool := i :: p.pool })
  | dropped {e e' : Engine} {key : Key} {i : Instance} {v : List Visit} :
      (∀ p, e.prototype? key = some p → e.fitsPool p i = false) → Does e (.scrap i) v e' →
      Does e (.shelve key i) v e'
  | quiet {e e' : Engine} {id : NodeId} {v : List Visit} : Graph.Looks e.graph [id] false →
      Does e (.dismiss id) v e' → Does e (.withdraw id) v e'
  | activeUnbound {e : Engine} {id : NodeId} : Graph.Looks e.graph [id] true →
      e.instance? id = none → Does e (.withdraw id) [] e
  | activeBound {e e' : Engine} {id : NodeId} {i : Instance} {v : List Visit} :
      Graph.Looks e.graph [id] true → e.instance? id = some i →
      Does (e.unbind id) (.scrap i) v e' → Does e (.withdraw id) v e'
  | scrapped {e e₁ : Engine} {i : Instance} {v : List Visit} :
      Does (e.report (.discarded i.id)) (.clearEach i.nodes) v e₁ →
      Does e (.scrap i) v { e₁ with pending := e₁.pending.filter fun id => !i.nodes.contains id }
  | clearedAll {e : Engine} : Does e (.clearEach []) [] e
  | clearNext {e e₁ e₂ : Engine} {m : NodeId} {ms : List NodeId} {v v' : List Visit} :
      Does e (.withdraw m) v e₁ →
      Does { e₁ with graph := e₁.graph.vacate m } (.clearEach ms) v' e₂ →
      Does e (.clearEach (m :: ms)) (.cleared m :: (v ++ v')) e₂

namespace Does

variable {t : Task} {v w : List Visit} {e'' : Engine}

theorem fades (h : Does e t v e') : Graph.Fades e.graph e'.graph := by
  induction h with
  | unbound _ | dismissedAll | pooled _ _ | activeUnbound _ _ | clearedAll => exact .refl _
  | bound _ _ _ _ ihloop ihshelve =>
    exact (Graph.Fades.unbind _ _).trans
      (ihloop.trans ((Graph.fades_unroute _ _).trans ihshelve))
  | dismissNext _ _ ih ihrest => exact ih.trans ihrest
  | dropped _ _ ih | quiet _ _ ih | scrapped _ ih => exact ih
  | activeBound _ _ _ ih => exact (Graph.Fades.unbind _ _).trans ih
  | clearNext _ _ ih ihrest => exact ih.trans ((Graph.Fades.vacate _ _).trans ihrest)

/-- A task has one outcome. -/
theorem unique (h : Does e t v e') (h' : Does e t w e'') : w = v ∧ e'' = e' := by
  induction h generalizing w e'' with
  | unbound hi =>
    cases h' with
    | unbound _ => exact ⟨rfl, rfl⟩
    | bound hn hb _ _ => cases hi.symm.trans (Graph.instance?_of_bound hn hb)
  | bound hn hb _ _ ihloop ihshelve =>
    cases h' with
    | unbound hi => cases hi.symm.trans (Graph.instance?_of_bound hn hb)
    | bound hm hc hloop hshelve =>
      cases hn.symm.trans hm
      cases hb.symm.trans hc
      obtain ⟨rfl, rfl⟩ := ihloop hloop
      obtain ⟨rfl, rfl⟩ := ihshelve hshelve
      exact ⟨rfl, rfl⟩
  | dismissedAll | clearedAll =>
    cases h'
    exact ⟨rfl, rfl⟩
  | dismissNext _ _ ih ihrest =>
    cases h' with
    | dismissNext hone hrest =>
      obtain ⟨rfl, rfl⟩ := ih hone
      obtain ⟨rfl, rfl⟩ := ihrest hrest
      exact ⟨rfl, rfl⟩
  | pooled hp hfit =>
    cases h' with
    | pooled hq _ =>
      cases hp.symm.trans hq
      exact ⟨rfl, rfl⟩
    | dropped hnot _ => cases hfit.symm.trans (hnot _ hp)
  | dropped hnot _ ih =>
    cases h' with
    | pooled hp hfit => cases hfit.symm.trans (hnot _ hp)
    | dropped _ hscrap => exact ih hscrap
  | quiet hlook _ ih =>
    cases h' with
    | quiet _ hdismiss => exact ih hdismiss
    | activeUnbound hlook' _ | activeBound hlook' _ _ => cases hlook.unique hlook'
  | activeUnbound hlook hi =>
    cases h' with
    | quiet hlook' _ => cases hlook.unique hlook'
    | activeUnbound _ _ => exact ⟨rfl, rfl⟩
    | activeBound _ hj _ => cases hi.symm.trans hj
  | activeBound hlook hi _ ih =>
    cases h' with
    | quiet hlook' _ => cases hlook.unique hlook'
    | activeUnbound _ hj => cases hi.symm.trans hj
    | activeBound _ hj hscrap =>
      cases hi.symm.trans hj
      exact ih hscrap
  | scrapped _ ih =>
    cases h' with
    | scrapped hloop =>
      obtain ⟨rfl, rfl⟩ := ih hloop
      exact ⟨rfl, rfl⟩
  | clearNext _ _ ih ihrest =>
    cases h' with
    | clearNext hone hrest =>
      obtain ⟨rfl, rfl⟩ := ih hone
      obtain ⟨rfl, rfl⟩ := ihrest hrest
      exact ⟨rfl, rfl⟩

/-! ### Visits -/

/-- A visit to a node of an instance that is taken from its reference meanwhile. -/
def Taken (e e' : Engine) (x : Visit) : Prop :=
  ∃ r, Graph.Holds e.graph r x.node ∧ e'.instance? r = none

theorem Taken.widen {e₁ e₂ : Engine} {x : Visit} (h : Taken e₁ e₂ x)
    (hf : Graph.Fades e.graph e₁.graph) (hf' : Graph.Fades e₂.graph e'.graph) : Taken e e' x := by
  obtain ⟨r, hr, hnone⟩ := h
  exact ⟨r, hr.anti hf, hf'.instance?_eq_none hnone⟩

/-- A task that is given the nodes of an instance taken from reference `id`. -/
theorem taken_of_unbind {i : Instance} {x : Visit} (hi : e.instance? id = some i)
    (hnodes : t.nodes = i.nodes) (hx : x ∈ t.own)
    (hf : Graph.Fades (e.unbind id).graph e'.graph) : Taken e e' x :=
  ⟨id, ⟨i, hi, hnodes ▸ Task.mem_nodes_of_mem_own hx⟩,
    hf.instance?_eq_none (instance?_unbind_self e id)⟩

/-- The visits of a round: to a node, while that node is treated, and in the other rounds. -/
theorem visit_round {e₁ e₂ : Engine} {t' : Task} {x y : Visit} (h : Does e t v e₁)
    (h' : Does e₂ t' w e') (hbetween : Graph.Fades e₁.graph e₂.graph) (hnone : t.own = [])
    (hv : x ∈ v → x ∈ t.own ∨ Taken e e₁ x) (hw : x ∈ w → x ∈ t'.own ∨ Taken e₂ e' x)
    (hx : x ∈ y :: (v ++ w)) : x ∈ y :: t'.own ∨ Taken e e' x := by
  rcases List.mem_cons.1 hx with rfl | hx
  · exact .inl List.mem_cons_self
  rcases List.mem_append.1 hx with hx | hx
  · rw [hnone] at hv
    have htaken := (hv hx).resolve_left List.not_mem_nil
    exact .inr (htaken.widen (.refl _) (hbetween.trans h'.fades))
  · exact (hw hx).imp (List.mem_cons_of_mem y) fun htaken =>
      htaken.widen (h.fades.trans hbetween) (.refl _)

/-- A visit that is made in the course of a task is one of its own, or to a node of an instance that
is taken from its reference meanwhile. -/
theorem visit (h : Does e t v e') {x : Visit} (hx : x ∈ v) : x ∈ t.own ∨ Taken e e' x := by
  induction h with
  | unbound _ | dismissedAll | pooled _ _ | activeUnbound _ _ | clearedAll => cases hx
  | @bound e e₁ e₂ id n key i v v' hn hb hloop hshelve ihloop ihshelve =>
    have hi := Graph.instance?_of_bound hn hb
    have hunbind := Graph.Fades.unbind e.graph id
    have hrest := (Graph.fades_unroute e₁.graph i.outputs).trans hshelve.fades
    right
    rcases List.mem_append.1 hx with hx | hx
    · rcases ihloop hx with hown | htaken
      · exact taken_of_unbind hi rfl hown (hloop.fades.trans hrest)
      · exact htaken.widen hunbind hrest
    · rcases ihshelve hx with hown | htaken
      · exact taken_of_unbind hi rfl hown (hloop.fades.trans hrest)
      · exact htaken.widen (hunbind.trans (hloop.fades.trans (Graph.fades_unroute _ _))) (.refl _)
  | dismissNext hone hrest ih ihrest => exact hone.visit_round hrest (.refl _) rfl ih ihrest hx
  | dropped _ _ ih | quiet _ _ ih | scrapped _ ih => exact ih hx
  | @activeBound e e' id i v _ hi hscrap ih =>
    right
    rcases ih hx with hown | htaken
    · exact taken_of_unbind hi rfl hown hscrap.fades
    · exact htaken.widen (.unbind e.graph id) (.refl _)
  | clearNext hone hrest ih ihrest => exact hone.visit_round hrest (.vacate _ _) rfl ih ihrest hx

/-- A visit to a loose node is one of the task's own. -/
theorem not_mem (h : Does e t v e') {x : Visit} (hx : x ∉ t.own)
    (hloose : Graph.Loose e.graph x.node) : x ∉ v := by
  intro hv
  obtain ⟨r, hr, -⟩ := (h.visit hv).resolve_left hx
  exact hloose r hr

/-- Two tasks, one after the other, make no visit in common: an instance that the first one takes
from its reference is not there for the second one. -/
theorem disjoint {e₁ e₂ : Engine} {t' : Task} (h : Does e t v e₁) (h' : Does e₂ t' w e')
    (hf : Graph.Forest e.graph) (hbetween : Graph.Fades e₁.graph e₂.graph)
    (ht : Graph.InHand e.graph t.nodes) (ht' : Graph.InHand e.graph t'.nodes)
    (hown : t.own.Disjoint t'.own) : v.Disjoint w := by
  intro x hx hx'
  have hfades : Graph.Fades e.graph e₂.graph := h.fades.trans hbetween
  rcases h.visit hx with ho | ⟨r, hr, hnone⟩ <;> rcases h'.visit hx' with ho' | ⟨s, hs, -⟩
  · exact hown ho ho'
  · exact ht.loose x.node (Task.mem_nodes_of_mem_own ho) s (hs.anti hfades)
  · exact ht'.loose x.node (Task.mem_nodes_of_mem_own ho') r hr
  · obtain rfl : r = s := hf.single r s x.node hr (hs.anti hfades)
    obtain ⟨i, hi, -⟩ := hs
    cases (hbetween.instance?_eq_none hnone).symm.trans hi

/-- A round of a loop: the visit to a node, what is done with the node, and the other rounds. -/
theorem nodup_round {e₁ e₂ : Engine} {t' : Task} {x : Visit} (h : Does e t v e₁)
    (h' : Does e₂ t' w e') (hf : Graph.Forest e.graph) (hbetween : Graph.Fades e₁.graph e₂.graph)
    (ht : t.nodes = []) (ht' : Graph.InHand e.graph (x.node :: t'.nodes)) (hv : v.Nodup)
    (hw : w.Nodup) : (x :: (v ++ w)).Nodup := by
  have hloose : Graph.Loose e.graph x.node := ht'.loose x.node List.mem_cons_self
  have hnone : ∀ y, y ∉ t.own := fun y hy =>
    List.not_mem_nil (ht ▸ Task.mem_nodes_of_mem_own hy)
  have hxv : x ∉ v := h.not_mem (hnone x) hloose
  have hxw : x ∉ w := by
    refine h'.not_mem (fun hx => ?_) (hloose.fade (h.fades.trans hbetween))
    exact (List.nodup_cons.1 ht'.once).1 (Task.mem_nodes_of_mem_own hx)
  have hd : v.Disjoint w :=
    h.disjoint h' hf hbetween (ht ▸ .nil _) ht'.tail fun y hy => absurd hy (hnone y)
  refine List.nodup_cons.2 ⟨fun hm => ?_, List.nodup_append'.2 ⟨hv, hw, hd⟩⟩
  exact (List.mem_append.1 hm).elim hxv hxw

/-- A node is visited once at most in the same way.  The induction is on the rules; where an
instance is taken from its reference, its nodes come into hand. -/
theorem nodup (h : Does e t v e') (hf : Graph.Forest e.graph) (ht : Graph.InHand e.graph t.nodes) :
    v.Nodup := by
  induction h with
  | unbound _ | dismissedAll | pooled _ _ | activeUnbound _ _ | clearedAll => exact List.nodup_nil
  | @bound e e₁ e₂ id n key i v v' hn hb hloop hshelve ihloop ihshelve =>
    have hroute := Graph.fades_unroute e₁.graph i.outputs
    have hf' : Graph.Forest (e.unbind id).graph := hf.fade (.unbind _ _)
    have hhand : Graph.InHand (e.unbind id).graph i.nodes :=
      hf.inHand_unbind (Graph.instance?_of_bound hn hb)
    have hfades := hloop.fades.trans hroute
    have hv := ihloop hf' hhand
    have hw := ihshelve (hf'.fade hfades) (hhand.fade hfades)
    refine List.nodup_append'.2 ⟨hv, hw, hloop.disjoint hshelve hf' hroute hhand hhand ?_⟩
    -- one task dismisses the nodes, the other one clears them
    intro x hx hx'
    obtain ⟨m, -, rfl⟩ := List.mem_map.1 hx
    obtain ⟨m', -, hm'⟩ := List.mem_map.1 hx'
    cases hm'
  | @dismissNext e e₁ e₂ m ms v v' hone hrest ih ihrest =>
    have hms : Graph.InHand e.graph ms := ht.tail
    have hv := ih hf (.nil _)
    have hw := ihrest (hf.fade hone.fades) (hms.fade hone.fades)
    exact hone.nodup_round hrest hf (.refl _) rfl ht hv hw
  | dropped _ _ ih | quiet _ _ ih | scrapped _ ih => exact ih hf ht
  | activeBound _ hi _ ih => exact ih (hf.fade (.unbind _ _)) (hf.inHand_unbind hi)
  | @clearNext e e₁ e₂ m ms v v' hone hrest ih ihrest =>
    have hvacate := Graph.Fades.vacate e₁.graph m
    have hms : Graph.InHand e.graph ms := ht.tail
    have hv := ih hf (.nil _)
    have hw := ihrest (hf.fade (hone.fades.trans hvacate)) (hms.fade (hone.fades.trans hvacate))
    exact hone.nodup_round hrest hf hvacate rfl ht hv hw

/-! ### What is left unbound -/

theorem instance?_dismissed (h : Does e (.dismiss id) v e') : e'.instance? id = none := by
  cases h with
  | unbound hi => exact hi
  | bound _ _ hloop hshelve =>
    have hfades := hloop.fades.trans ((Graph.fades_unroute _ _).trans hshelve.fades)
    exact hfades.instance?_eq_none (instance?_unbind_self e id)

theorem instance?_dismissedEach {ms : List NodeId} (h : Does e (.dismissEach ms) v e') :
    ∀ m ∈ ms, e'.instance? m = none := by
  induction ms generalizing e v with
  | nil => exact fun m hm => absurd hm List.not_mem_nil
  | cons k ms ih =>
    cases h with
    | dismissNext hone hrest =>
      intro m hm
      rcases List.mem_cons.1 hm with rfl | hm
      · exact hrest.fades.instance?_eq_none hone.instance?_dismissed
      · exact ih hrest m hm

end Does

end Engine

end PulseFlow
