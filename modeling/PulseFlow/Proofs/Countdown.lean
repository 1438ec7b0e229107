import Mathlib
import PulseFlow.Proofs.Nesting

/-!
# Counting down

A number goes down through the copies until it is zero, and the zero travels back through all of
them.  On the way down a level takes five waves, at the bottom three, and on the way up each level
takes one and puts its copy back into the pool.

    (nested m b).due (reference b) [n] ⟶ (nested _ (b + n + 1)).due (base (b + n) + 1) [0] (run_fall)
    (nested m (b + 1)).due (base b + 1) [x] ⟶ (nested m 0).due 1 [x]                       (run_rise)

After the run there are again no bound copies, so the next number finds the engine as the first one
did, except that there are copies in the pool (`driven_nested`).
-/

namespace PulseFlow.Countdown

open Engine Counter

/-! ## Waves on the way down -/

section Waves

variable (catalog : Catalog) {m b q c : Nat} (w : World) (steps : Nat) (x y : Signal)

theorem get?_nested (hq : q < m) (hc : c < 7) :
    (nested catalog m b w steps).graph.get? (base q + c) = some (inner b q c) := get?_inner hq hc

/-- A wave in which a node of the last copy makes another one due. -/
theorem Bound.step_due {e e' : Engine} {d : Nat} {n n' : Node} {xs ys : List Signal}
    (h : Bound m (b + 1) e') (hb : b < m) (hp : e.pending = [])
    (hn : e.graph.get? (base b + c) = some n) (hq : n.Quiet xs.length)
    (hfire : e.fire (base b + c) xs = (.ok (), e'.due (base b + d) ys)) (hd : d < 7)
    (hn' : e'.graph.get? (base b + d) = some n') :
    (e.due (base b + c) xs).step =
      (.ok true, ({ e' with steps := e'.steps + 1 } : Engine).due (base b + d) ys) := by
  rw [Engine.step_due hp hn hq hfire, h.sweep_due hb hd hn', hasPending_due]
  rfl

section Inner

variable (hb : b < m)
include hb

/-- Once a constant has fired, it joins the number that is kept at the node it leads to. -/
theorem step_constant {d : Nat} {s : Signal} (hc : c < 7) (hd : d < 7) (hne : d ≠ c)
    (hconst : inner (b + 1) b c = hidden (.native (.constant s)) [[⟨base b + d, 1⟩]])
    (hquiet : (inner (b + 1) b d).Quiet 2) :
    (((nested catalog m (b + 1) w steps).kept (base b + d) 0 x).due (base b + c) [x]).step =
      (.ok true, (nested catalog m (b + 1) w (steps + 1)).due (base b + d) [x, s]) := by
  have htarget := get?_nested catalog (b := b + 1) w steps hb hd
  have hn : ((nested catalog m (b + 1) w steps).kept (base b + d) 0 x).graph.get? (base b + c) =
      some (hidden (.native (.constant s)) [[⟨base b + d, 1⟩]]) := by
    rw [get?_kept (by simpa using hne), ← hconst]
    exact get?_nested catalog w steps hb hc
  refine (bound_nested catalog m (b + 1) w steps).step_due hb rfl hn ⟨rfl, rfl⟩ ?_ hd htarget
  rw [fire_single hn rfl rfl [x] rfl rfl]
  exact congrArg (Prod.mk _) (deliver_second htarget hquiet x s)

/-- A number above zero goes on to the one and to the difference. -/
theorem step_above (h : x.greaterThan y = true) :
    ((nested catalog m (b + 1) w steps).due (base b + 3) [x, y]).step = (.ok true,
      ((nested catalog m (b + 1) w (steps + 1)).kept (base b + 5) 0 x).due (base b + 4) [x]) := by
  have hthree := get?_nested catalog (b := b + 1) w steps hb (c := 3) (by decide)
  have hfour := get?_nested catalog (b := b + 1) w steps hb (c := 4) (by decide)
  have hfive := get?_nested catalog (b := b + 1) w steps hb (c := 5) (by decide)
  have hfan : (inner (b + 1) b 3).fan? (branch (x.greaterThan y)) =
      some (SortedSet.ofList [⟨base b + 4, 0⟩, ⟨base b + 5, 0⟩]) := by
    rw [h]
    rfl
  refine ((bound_nested catalog m (b + 1) w steps).kept (base b + 5) 0 x).step_due hb rfl hthree
    ⟨rfl, rfl⟩ ?_ (by decide) ((get?_kept (by simp) _ _).trans hfour)
  rw [fire_single hthree rfl rfl [x, y] rfl hfan]
  exact congrArg (Prod.mk _) (deliver_pair hfour ⟨rfl, rfl⟩ hfive ⟨rfl, rfl⟩ (by simp) x)

/-- A number that is not above zero goes to the output. -/
theorem step_reached (h : x.greaterThan y = false) :
    ((nested catalog m (b + 1) w steps).due (base b + 3) [x, y]).step =
      (.ok true, (nested catalog m (b + 1) w (steps + 1)).due (base b + 1) [x]) := by
  have hone := get?_nested catalog (b := b + 1) w steps hb (c := 1) (by decide)
  have hthree := get?_nested catalog (b := b + 1) w steps hb (c := 3) (by decide)
  have hfan : (inner (b + 1) b 3).fan? (branch (x.greaterThan y)) =
      some (SortedSet.ofList [⟨base b + 1, 0⟩]) := by
    rw [h]
    rfl
  refine (bound_nested catalog m (b + 1) w steps).step_due hb rfl hthree ⟨rfl, rfl⟩ ?_ (by decide)
    hone
  rw [fire_single hthree rfl rfl [x, y] rfl hfan]
  exact congrArg (Prod.mk _) (deliver_one hone ⟨rfl, rfl⟩ x)

/-- The difference goes to the reference. -/
theorem step_difference :
    ((nested catalog m (b + 1) w steps).due (base b + 5) [x, y]).step =
      (.ok true,
        (nested catalog m (b + 1) w (steps + 1)).due (reference (b + 1)) [x.subtract y]) := by
  have hfive := get?_nested catalog (b := b + 1) w steps hb (c := 5) (by decide)
  have hsix := get?_nested catalog (b := b + 1) w steps hb (c := 6) (by decide)
  refine (bound_nested catalog m (b + 1) w steps).step_due hb rfl hfive ⟨rfl, rfl⟩ ?_ (by decide)
    hsix
  rw [fire_single hfive rfl rfl [x, y] rfl rfl]
  exact congrArg (Prod.mk _) (deliver_one hsix ⟨rfl, rfl⟩ _)

end Inner

theorem prototype?_nested : (nested catalog m b w steps).prototype? key =
    some (prototype (pool m b)) := Table.get?_insert_self ..

theorem insert_prototype (idle idle' : List Instance) :
    Table.insert (.ofList [(key, prototype idle)]) key (prototype idle') =
      .ofList [(key, prototype idle')] := by
  cbv

theorem pool_of_lt (hb : b < m) : pool m b = copy b :: pool m (b + 1) := by
  have hlength : m - b = m - (b + 1) + 1 := by omega
  rw [pool, hlength, List.range'_succ, List.map_cons, pool]

theorem pool_self (m : Nat) : pool m m = [] := by
  rw [pool, Nat.sub_self]
  rfl

/-- The engine when the next copy was taken and is not bound yet. -/
def taken (m b : Nat) (w : World) (steps : Nat) : Engine :=
  { nested catalog m b w steps with
    registry := ⟨catalog, .ofList [(key, prototype (pool m (b + 1)))]⟩ }

/-- The next copy is in the pool, or it is made. -/
theorem acquire_nested (hb : b ≤ m) (id : NodeId) : ∃ v,
    (nested catalog m b w steps).acquire id (prototype (pool m b)) =
      (copy b, taken catalog (max m (b + 1)) b (w.report v) steps) := by
  rcases Nat.lt_or_eq_of_le hb with hlt | rfl
  · refine ⟨.reused b key, ?_⟩
    rw [Nat.max_eq_left hlt, pool_of_lt hlt]
    refine congrArg (Prod.mk (copy b)) ?_
    exact congrArg (fun prototypes => { nested catalog m b (w.report (.reused b key)) steps with
      registry := ⟨catalog, prototypes⟩ }) (insert_prototype (pool m b) (pool m (b + 1)))
  · refine ⟨.instantiated key id 7, ?_⟩
    have hmade : (prototype []).instantiate (nested catalog b b w steps).nextInstance
        (nested catalog b b w steps).graph (nested catalog b b w steps).world.heap =
          (copy b, graph (b + 1) b, w.heap) := instantiate_prototype (Nat.le_refl b) [] w.heap
    have hpool : pool (b + 1) (b + 1) = pool b b := by rw [pool_self, pool_self]
    rw [Nat.max_eq_right (Nat.le_succ b), pool_self, taken, hpool, acquire]
    dsimp only [prototype] at hmade ⊢
    rw [hmade]
    rfl

/-- The reference at depth `b` is bound to the copy there. -/
theorem engage_nested (hb : b ≤ m) : ∃ v, (nested catalog m b w steps).engage (reference b) =
    .ok (nested catalog (max m (b + 1)) (b + 1) (w.report v) steps) := by
  obtain ⟨v, hacquire⟩ := acquire_nested catalog w steps hb (reference b)
  have hget : (nested catalog m b w steps).graph.get? (reference b) = some (calling b) :=
    get?_calling hb
  have hgraph : (route (graph (max m (b + 1)) b) (copy b).outputs (calling b).outputs).modify
      (reference b) (fun n => n.bind (some (copy b))) = graph (max m (b + 1)) (b + 1) := by
    have hothers : ∀ q, q ≠ b → (q < b ↔ q < b + 1) := by omega
    have hbound := graph_rebound (max m (b + 1)) hothers
    rw [Slots.modify_comm _ (reference_ne_output b b), holds, if_pos (Nat.lt_succ_self b),
      if_pos (Nat.lt_succ_self b)] at hbound
    exact hbound
  have hwatch : (List.range b).map reference ++ [reference b] =
      (List.range (b + 1)).map reference := by
    rw [List.range_succ, List.map_append]
    rfl
  refine ⟨v, ?_⟩
  rw [engage_of_acquire hget rfl (prototype?_nested catalog w steps) hacquire]
  dsimp only [taken, nested]
  rw [hgraph, hwatch]

/-- A number enters the copy at depth `b`. -/
theorem step_reference (hb : b ≤ m) : ∃ v,
    ((nested catalog m b w steps).due (reference b) [x]).step = (.ok true,
      ((nested catalog (max m (b + 1)) (b + 1) (w.report v) (steps + 1)).kept (base b + 3) 0 x).due
        (base b + 2) [x]) := by
  obtain ⟨v, hengage⟩ := engage_nested catalog w steps hb
  have hlt : b < max m (b + 1) := by omega
  let e₁ := nested catalog (max m (b + 1)) (b + 1) (w.report v) steps
  have hinput : e₁.graph.get? (base b) = some (inner (b + 1) b 0) :=
    get?_nested catalog (w.report v) steps hlt (c := 0) (by decide)
  have htwo := get?_nested catalog (b := b + 1) (w.report v) steps hlt (c := 2) (by decide)
  have hthree := get?_nested catalog (b := b + 1) (w.report v) steps hlt (c := 3) (by decide)
  have hget : (nested catalog m b w steps).graph.get? (reference b) = some (calling b) :=
    get?_calling hb
  have hinstance : e₁.instance? (reference b) = some (copy b) :=
    instance?_reference (Nat.lt_succ_self b) (Nat.le_of_lt hlt)
  have hfan : (inner (b + 1) b 0).fan? 0 =
      some (SortedSet.ofList [⟨base b + 2, 0⟩, ⟨base b + 3, 0⟩]) := rfl
  have hfire : (nested catalog m b w steps).fire (reference b) [x] =
      (.ok (), (e₁.kept (base b + 3) 0 x).due (base b + 2) [x]) := by
    rw [fire_unbound hget rfl rfl hengage, forward_of_instance hinstance]
    refine congrArg (Prod.mk _) ((emit_of_fan hinput hfan _).trans ?_)
    exact deliver_pair htwo ⟨rfl, rfl⟩ hthree ⟨rfl, rfl⟩ (by simp) x
  refine ⟨v, ?_⟩
  have hbound := (bound_nested catalog (max m (b + 1)) (b + 1) (w.report v) steps).kept
    (base b + 3) 0 x
  rw [Engine.step_due rfl hget ⟨rfl, rfl⟩ hfire,
    hbound.sweep_due hlt (by decide) ((get?_kept (by simp) _ _).trans htwo), hasPending_due]
  rfl

/-! ## Waves on the way up -/

/-- The pool has room for any number of copies. -/
theorem shelve_copy {e : Engine} {idle : List Instance}
    (htable : e.registry.prototypes = .ofList [(key, prototype idle)]) (hsettings : e.settings = {})
    (q : Nat) : e.shelve key (copy q) =
      (e.report (.pooled q key)).putPrototype (prototype (copy q :: idle)) := by
  have hget : e.prototype? key = some (prototype idle) := by
    rw [prototype?, htable]
    exact Table.get?_insert_self ..
  have hfits : e.fitsPool (prototype idle) (copy q) = true := by
    rw [fitsPool, hsettings]
    rfl
  exact shelve_of_fits hget hfits

/-- In the last copy nothing is bound. -/
theorem instance?_unbind_due {t k : Nat} (hk : k ∈ (copy b).nodes) (xs : List Signal) :
    (((nested catalog m (b + 1) w steps).due t xs).unbind (reference b)).instance? k = none := by
  have hbound := (bound_nested catalog m (b + 1) w steps).due t xs
  show Graph.instance? (((nested catalog m (b + 1) w steps).due t xs).graph.modify (reference b)
    fun n => n.bind none) k = none
  rw [Graph.instance?_unbind, hbound.instances]
  cases hi : Graph.instance? (graph m (b + 1)) k with
  | none => simp
  | some i => exact (not_bound_of_mem hk hi).elim

theorem filter_references (b : Nat) :
    ((List.range (b + 1)).map reference).filter (fun id => id != reference b) =
      (List.range b).map reference := by
  rw [List.range_succ, List.map_append, List.filter_append, List.filter_eq_self.2]
  · simp
  · intro id hid
    obtain ⟨q, hq, rfl⟩ := List.mem_map.1 hid
    have hne : reference q ≠ reference b := fun he =>
      Nat.ne_of_lt (List.mem_range.1 hq) (reference_inj.1 he)
    simpa using hne

/-- The copy at depth `b` goes back to the pool. -/
theorem dismiss_nested (hb : b < m) {t : Nat} (hne : t ≠ reference b) (hne' : t ≠ base b + 1)
    (xs : List Signal) :
    ((nested catalog m (b + 1) w steps).due t xs).dismiss (reference b) =
      (nested catalog m b (w.report (.pooled b key)) steps).due t xs := by
  have hget : ((nested catalog m (b + 1) w steps).due t xs).graph.get? (reference b) =
      some ((calling b).bind (some (copy b))) := by
    have hget := get?_reference (b := b + 1) (Nat.le_of_lt hb)
    rw [holds, if_pos (Nat.lt_succ_self b)] at hget
    rw [get?_due hne]
    exact hget
  have hgraph : (((graph m (b + 1)).modify t (holding xs)).modify (reference b)
      (fun n => n.bind none)).modify (base b + 1) (fun n => n.modifyFan 0 fun _ => ∅) =
        (graph m b).modify t (holding xs) := by
    have hothers : ∀ q, q ≠ b → (q < b + 1 ↔ q < b) := by omega
    have hrebound := graph_rebound m hothers
    rw [holds_self, if_neg (Nat.lt_irrefl b)] at hrebound
    rw [Slots.modify_comm _ hne, Slots.modify_comm _ hne']
    exact congrArg (fun g => Slots.modify g t (holding xs)) hrebound
  have hregistry : (⟨catalog, Table.insert (.ofList [(key, prototype (pool m (b + 1)))]) key
      (prototype (copy b :: pool m (b + 1)))⟩ : Registry) =
        ⟨catalog, .ofList [(key, prototype (pool m b))]⟩ := by
    rw [insert_prototype, ← pool_of_lt hb]
  have hleaf := dismiss_of_leaf hget rfl fun k hk => instance?_unbind_due catalog w steps hk xs
  refine hleaf.trans ((shelve_copy rfl rfl b).trans ?_)
  show ({ nested catalog m b (w.report (.pooled b key)) steps with
    graph := (((graph m (b + 1)).modify t (holding xs)).modify (reference b)
      fun n => n.bind none).modify (base b + 1) fun n => n.modifyFan 0 fun _ => ∅
    registry := ⟨catalog, Table.insert (.ofList [(key, prototype (pool m (b + 1)))]) key
      (prototype (copy b :: pool m (b + 1)))⟩
    pending := [t]
    watch := ((List.range (b + 1)).map reference).filter fun id => id != reference b } : Engine) = _
  rw [hgraph, hregistry, filter_references]
  rfl

theorem get?_exit (hb : b ≤ m) : ∃ n,
    (nested catalog m (b + 1) w steps).graph.get? (exit b) = some n ∧ n.Quiet 1 := by
  refine ⟨cell (b + 1) (exit b), ?_, ?_⟩
  · exact (get?_graph m (b + 1) (exit b)).trans (if_pos (exit_lt hb))
  · cases b with
    | zero => exact ⟨rfl, rfl⟩
    | succ b =>
      show (cell (b + 1 + 1) (base b + 1)).Quiet 1
      rw [cell_output]
      exact ⟨rfl, rfl⟩

theorem exit_ne_reference (b : Nat) : exit b ≠ reference b := by
  cases b with
  | zero => decide
  | succ b => simp [exit, reference]

theorem exit_ne_inner (b c : Nat) : exit b ≠ base b + c := by
  cases b with
  | zero =>
    simp only [exit, base]
    omega
  | succ b =>
    simp only [exit, base]
    omega

theorem scheduled_inner (b q c : Nat) : (inner b q c).scheduled = false := by
  unfold inner
  split <;> rfl

/-- Once the signal has left it, the last copy is quiet. -/
theorem not_active (hb : b < m) :
    ¬ Graph.Active ((nested catalog m (b + 1) w steps).due (exit b) [x]).graph (reference b) := by
  have hbound := (bound_nested catalog m (b + 1) w steps).due (exit b) [x]
  intro h
  cases h with
  | scheduled hn hs =>
    rw [get?_due (exit_ne_reference b)] at hn
    cases (get?_reference (Nat.le_of_lt hb)).symm.trans hn
    cases hs
  | @inside _ k i hi hk ha =>
    rw [hbound.instances, instance?_reference (Nat.lt_succ_self b) (Nat.le_of_lt hb)] at hi
    cases hi
    cases ha with
    | scheduled hn hs =>
      obtain ⟨hle, hlt⟩ : base b ≤ k ∧ k < base b + 7 := List.mem_range'_1.1 hk
      obtain ⟨c, rfl⟩ := Nat.exists_eq_add_of_le hle
      rw [get?_due (exit_ne_inner b c)] at hn
      cases (get?_inner hb (Nat.lt_of_add_lt_add_left hlt)).symm.trans hn
      rw [scheduled_inner] at hs
      cases hs
    | inside hi' _ _ =>
      rw [hbound.instances] at hi'
      exact not_bound_of_mem hk hi'

/-- What the last copy gives goes where its reference leads, and the copy goes back to the pool. -/
theorem step_output (hb : b < m) :
    ((nested catalog m (b + 1) w steps).due (base b + 1) [x]).step = (.ok true,
      (nested catalog m b (w.report (.pooled b key)) (steps + 1)).due (exit b) [x]) := by
  have hone := get?_nested catalog (b := b + 1) w steps hb (c := 1) (by decide)
  have hbound := (bound_nested catalog m (b + 1) w steps).due (exit b) [x]
  obtain ⟨n, hexit, hquiet⟩ := get?_exit catalog w steps (Nat.le_of_lt hb)
  have hfan : (inner (b + 1) b 1).fan? 0 = some (SortedSet.ofList [⟨exit b, 0⟩]) := by
    show (output (b + 1) b).fan? 0 = _
    rw [output, if_pos (Nat.lt_succ_self b)]
    rfl
  have hfire : (nested catalog m (b + 1) w steps).fire (base b + 1) [x] =
      (.ok (), (nested catalog m (b + 1) w steps).due (exit b) [x]) := by
    rw [fire_single hone rfl rfl [x] rfl hfan]
    exact congrArg (Prod.mk _) (deliver_one hexit hquiet x)
  have hwatch : ((nested catalog m (b + 1) w steps).due (exit b) [x]).watch =
      (List.range b).map reference ++ [reference b] := by
    rw [hbound.watch, List.range_succ, List.map_append]
    rfl
  have hsweep : ((nested catalog m (b + 1) w steps).due (exit b) [x]).sweep =
      (nested catalog m b (w.report (.pooled b key)) steps).due (exit b) [x] := by
    rw [sweep_last hwatch]
    · exact dismiss_nested catalog w steps hb (exit_ne_reference b) (exit_ne_inner b 1) [x]
    · intro id hid
      obtain ⟨q, hq, rfl⟩ := List.mem_map.1 hid
      have hlt := List.mem_range.1 hq
      obtain ⟨k, rfl⟩ := Nat.exists_eq_succ_of_ne_zero (Nat.ne_zero_of_lt hlt)
      have hdue : Graph.Active ((nested catalog m (k + 2) w steps).due (base k + 1) [x]).graph
        (base k + 1) := active_due hexit [x]
      rw [hbound.isActive_iff]
      exact hbound.active (by omega) (by omega) (by decide) hdue
        (Nat.add_sub_of_le (Nat.le_of_lt_succ hlt))
    · rw [Bool.eq_false_iff, ne_eq, hbound.isActive_iff]
      exact not_active catalog w steps x hb
  rw [Engine.step_due rfl hone ⟨rfl, rfl⟩ hfire, hsweep, hasPending_due]
  rfl

theorem step_sink : ((nested catalog m 0 w steps).due 1 [x]).step =
    (.ok false, nested catalog m 0 (w.observe "seen" [x]) (steps + 1)) := by
  have hget : (nested catalog m 0 w steps).graph.get? 1 = some (wired (.native sink) []) :=
    (get?_graph m 0 1).trans (if_pos (by simp [base]))
  have hfire : (nested catalog m 0 w steps).fire 1 [x] =
      (.ok (), nested catalog m 0 (w.observe "seen" [x]) steps) := by
    rw [fire_native hget rfl rfl rfl]
    rfl
  rw [Engine.step_due rfl hget ⟨rfl, rfl⟩ hfire]
  rfl

end Waves

/-! ## Numbers -/

section Numbers

variable {k : Nat}

theorem greaterThan_zero (hk : k < 2 ^ 63) :
    (Signal.int (Int64.ofNat k)).greaterThan (.int 0) = decide (0 < k) := by
  have hlt : 0 < Int64.ofNat k ↔ 0 < k := by
    rw [Int64.lt_iff_toInt_lt, Int64.toInt_ofNat_of_lt hk]
    exact Int.natCast_pos
  exact decide_eq_decide.2 hlt

theorem subtract_one (hk : k + 1 < 2 ^ 63) :
    (Signal.int (Int64.ofNat (k + 1))).subtract (.int 1) = .int (Int64.ofNat k) := by
  have hfits : Signal.FitsInt (k : Int) := by
    constructor
    · omega
    · omega
  have hone : (1 : Int64).toInt = 1 := by decide
  have hdifference : (Signal.int (Int64.ofNat (k + 1))).subtract (.int 1) =
      Signal.ofInt ((Int64.ofNat (k + 1)).toInt - (1 : Int64).toInt) := rfl
  have hcast : ((k + 1 : Nat) : Int) - 1 = k := by omega
  rw [hdifference, Int64.toInt_ofNat_of_lt hk, hone, hcast, Signal.ofInt, if_pos hfits,
    Int64.ofInt_eq_ofNat]

end Numbers

/-! ## Runs -/

/-- Nothing happened to a world but that more was reported. -/
def Reported (w w' : World) : Prop := ∃ events, w' = { w with events }

theorem Reported.refl (w : World) : Reported w w := ⟨w.events, rfl⟩

theorem Reported.report {w w' : World} (h : Reported w w') (v : Event) :
    Reported w (w'.report v) := by
  obtain ⟨events, rfl⟩ := h
  exact ⟨_, rfl⟩

theorem Reported.trans {w w' w'' : World} (h : Reported w w') (h' : Reported w' w'') :
    Reported w w'' := by
  obtain ⟨_, rfl⟩ := h
  obtain ⟨_, rfl⟩ := h'
  exact ⟨_, rfl⟩

section Runs

variable (catalog : Catalog) {m b k : Nat} (w : World) (steps taken : Nat) (x : Signal)

/-- A number is counted down to zero: five waves for each one, and three for the zero. -/
theorem run_fall (hk : k < 2 ^ 63) (hb : b ≤ m) : ∃ w', Reported w w' ∧
    runFrom taken (5 * k + 3)
        ((nested catalog m b w steps).due (reference b) [.int (Int64.ofNat k)]) =
      (.unfinished, (nested catalog (max m (b + k + 1)) (b + k + 1) w' (steps + (5 * k + 3))).due
        (base (b + k) + 1) [.int 0]) := by
  induction k generalizing m b w steps taken with
  | zero =>
    obtain ⟨v, hreference⟩ := step_reference catalog w steps (.int (Int64.ofNat 0)) hb
    have hlt : b < max m (b + 1) := by omega
    have hzero := step_constant catalog (c := 2) (d := 3) (w.report v) (steps + 1)
      (.int (Int64.ofNat 0)) hlt (by decide) (by decide) (by decide) rfl ⟨rfl, rfl⟩
    refine ⟨w.report v, (Reported.refl w).report v, ?_⟩
    rw [runFrom_of_step (hasPending_due ..) rfl hreference,
      runFrom_of_step (hasPending_due ..) rfl hzero,
      runFrom_of_step (hasPending_due ..) rfl (step_reached catalog _ _ _ _ hlt rfl)]
    rfl
  | succ k ih =>
    obtain ⟨v, hreference⟩ := step_reference catalog w steps (.int (Int64.ofNat (k + 1))) hb
    have hlt : b < max m (b + 1) := by omega
    have habove : (Signal.int (Int64.ofNat (k + 1))).greaterThan (.int 0) = true := by
      rw [greaterThan_zero hk]
      exact decide_eq_true (Nat.succ_pos k)
    have hzero := step_constant catalog (c := 2) (d := 3) (w.report v) (steps + 1)
      (.int (Int64.ofNat (k + 1))) hlt (by decide) (by decide) (by decide) rfl ⟨rfl, rfl⟩
    have hone := step_constant catalog (c := 4) (d := 5) (w.report v) (steps + 3)
      (.int (Int64.ofNat (k + 1))) hlt (by decide) (by decide) (by decide) rfl ⟨rfl, rfl⟩
    have hdifference := step_difference catalog (w.report v) (steps + 4)
      (.int (Int64.ofNat (k + 1))) (.int 1) hlt
    rw [subtract_one hk] at hdifference
    obtain ⟨w', hw', hrest⟩ := ih (w.report v) (steps + 5) (taken + 5) (by omega) hlt
    have hbudget : 5 * (k + 1) + 3 = 5 * k + 3 + 5 := by omega
    have hsteps : steps + 5 + (5 * k + 3) = steps + (5 * k + 3 + 5) := by omega
    have hdepth : b + 1 + k = b + (k + 1) := by omega
    have hmax : max (max m (b + 1)) (b + (k + 1) + 1) = max m (b + (k + 1) + 1) := by omega
    refine ⟨w', ((Reported.refl w).report v).trans hw', ?_⟩
    rw [hbudget, runFrom_of_step (hasPending_due ..) rfl hreference,
      runFrom_of_step (hasPending_due ..) rfl hzero,
      runFrom_of_step (hasPending_due ..) rfl (step_above catalog _ _ _ _ hlt habove),
      runFrom_of_step (hasPending_due ..) rfl hone,
      runFrom_of_step (hasPending_due ..) rfl hdifference, hrest, hsteps, hdepth, hmax]

/-- What the last copy gives goes up through all copies, each of which goes back to the pool. -/
theorem run_rise (hb : b < m) : ∃ w', Reported w w' ∧
    runFrom taken (b + 1) ((nested catalog m (b + 1) w steps).due (base b + 1) [x]) =
      (.unfinished, (nested catalog m 0 w' (steps + (b + 1))).due 1 [x]) := by
  induction b generalizing w steps taken with
  | zero =>
    refine ⟨_, (Reported.refl w).report (.pooled 0 key), ?_⟩
    rw [runFrom_of_step (hasPending_due ..) rfl (step_output catalog w steps x hb)]
    rfl
  | succ b ih =>
    obtain ⟨w', hw', hrest⟩ := ih (w.report (.pooled (b + 1) key)) (steps + 1) (taken + 1)
      (Nat.lt_of_succ_lt hb)
    have hsteps : steps + 1 + (b + 1) = steps + (b + 1 + 1) := by omega
    refine ⟨w', ((Reported.refl w).report _).trans hw', ?_⟩
    rw [runFrom_of_step (hasPending_due ..) rfl (step_output catalog w steps x hb), ← hsteps]
    exact hrest

/-- A run for the number `k`: the sink gets a zero, and there are as many copies as `k` needs. -/
theorem run_number (hk : k < 2 ^ 63) : ∃ w', Reported w w' ∧ ∀ extra,
    ((nested catalog m 0 w steps).due 0 [.int (Int64.ofNat k)]).run (6 * k + 5 + extra) =
      (.idle (6 * k + 5), nested catalog (max m (k + 1)) 0 (w'.observe "seen" [.int 0])
        (steps + (6 * k + 5))) := by
  obtain ⟨w₁, hw₁, hfall⟩ := run_fall catalog w steps 0 hk (Nat.zero_le m)
  have hreference : reference 0 = 0 := rfl
  rw [Nat.zero_add, hreference] at hfall
  obtain ⟨w₂, hw₂, hrise⟩ := run_rise catalog w₁ (steps + (5 * k + 3)) (0 + (5 * k + 3)) (.int 0)
    (m := max m (k + 1)) (b := k) (by omega)
  have hbudget : ∀ extra, 6 * k + 5 + extra = 5 * k + 3 + (k + 1 + (extra + 1)) := by omega
  have hsteps : steps + (5 * k + 3) + (k + 1) + 1 = steps + (6 * k + 5) := by omega
  have htaken : 0 + (5 * k + 3) + (k + 1) + 1 = 6 * k + 5 := by omega
  refine ⟨w₂, hw₁.trans hw₂, fun extra => ?_⟩
  rw [run, hbudget, runFrom_add hfall, runFrom_add hrise,
    runFrom_of_step (hasPending_due ..) rfl (step_sink catalog w₂ _ _), hsteps, htaken]
  cases extra <;> rfl

end Runs

/-! ## One number after the other -/

/-- What a countdown needs of a catalog. -/
structure Equipped (catalog : Catalog) : Prop where
  greater : catalog.get? greaterKey = some (.relation .greater)
  subtract : catalog.get? subtractKey = some (.arithmetic .subtract)
  free : catalog.get? key = none

theorem equipped_standard : Equipped Catalog.standard := by
  have hfree : (Catalog.standard.get? key).isNone = true := by decide +kernel
  exact
    { greater := Catalog.get?_standard (l := .relation .greater)
        (by simp [Catalog.builtins, Relation.all])
      subtract := Catalog.get?_standard (l := .arithmetic .subtract)
        (by simp [Catalog.builtins, Operator.all])
      free := Option.isNone_iff_eq_none.1 hfree }

theorem run_course {r : Registry} {heap : Heap}
    (hgreater : r.makeNode greaterKey heap = .ok (.native (.relation .greater), heap))
    (hsubtract : r.makeNode subtractKey heap = .ok (.native (.arithmetic .subtract), heap))
    (hagain : r.makeNode key heap = .ok (.reference key 1 1, heap)) :
    course.run r ⟨Prototype.declare key 1 1, heap⟩ =
      (.ok (), ⟨{ prototype [] with revision := 0 }, heap⟩) := by
  rw [course, run_asked rfl, run_asked rfl, run_asked rfl, run_asked (perform_add hgreater),
    run_asked rfl, run_asked (perform_add hsubtract), run_asked (perform_add hagain)]
  cbv

theorem register_course {catalog : Catalog} (h : Equipped catalog) (w : World) :
    (blank ⟨catalog, ∅⟩ w).register key 1 1 course =
      (.ok (.ok ()), blank ⟨catalog, .ofList [(key, prototype [])]⟩
        (w.reportAll [.declared key 1 1, .edited key 1 0])) := by
  have hfree : (blank ⟨catalog, ∅⟩ w).registry.contains key = false := by
    rw [Registry.contains, Table.contains, blank, h.free]
    rfl
  have hregistry : ((blank ⟨catalog, ∅⟩ w).declare key 1 1).2.registry =
      ⟨catalog, .ofList [(key, Prototype.declare key 1 1)]⟩ := by
    rw [declare_of_free hfree]
    rfl
  -- The template is filled while its own name stands for an empty one.
  have hagain := Registry.makeNode_of_prototype
    (r := ⟨catalog, .ofList [(key, Prototype.declare key 1 1)]⟩) h.free (Table.get?_insert_self ..)
  have hrun := run_course (Registry.makeNode_of_logic h.greater rfl w.heap)
    (Registry.makeNode_of_logic h.subtract rfl w.heap) (hagain w.heap)
  rw [← hregistry] at hrun
  rw [register_of_run hfree hrun, declare_of_free hfree]
  cbv

theorem run_build {catalog : Catalog} (h : Equipped catalog) (w : World) :
    build.run (blank ⟨catalog, ∅⟩ w) =
      .ok (0, nested catalog 0 0 (w.reportAll [.declared key 1 1, .edited key 1 0]) 0) := by
  have hreference := fun heap : Heap => Registry.makeNode_of_prototype
    (r := ⟨catalog, .ofList [(key, prototype [])]⟩) (p := prototype []) h.free (by cbv) heap
  rw [build, run_registered_bind (register_course h w),
    run_call_bind (create_of_makeNode (hreference _)), run_placing_bind]
  cbv

/-- Numbers are pulsed into a reference one after the other, each once the run for the one before it
has come to rest. -/
inductive Driven (reference : NodeId) : Engine → List Int64 → Engine → Prop
  | nil (e : Engine) : Driven reference e [] e
  | cons {e pulsed rested e' : Engine} {n : Int64} {ns : List Int64} {taken : Nat} :
    e.pulse ⟨reference, 0⟩ (.int n) = (.ok (), pulsed) →
    (∀ extra, pulsed.run (taken + extra) = (.idle taken, rested)) →
    Driven reference rested ns e' → Driven reference e (n :: ns) e'

section Driving

variable (catalog : Catalog) {m : Nat} (w : World) (steps : Nat)

theorem pulse_nested (s : Signal) : (nested catalog m 0 w steps).pulse ⟨0, 0⟩ s =
    (.ok (), (nested catalog m 0 w steps).due 0 [s]) := by
  have hget : (nested catalog m 0 w steps).graph.get? 0 = some (calling 0) :=
    get?_calling (Nat.zero_le m)
  have hvisible : (nested catalog m 0 w steps).visible 0 = .ok (calling 0) := by
    rw [visible, hget]
    rfl
  have hinput : Graph.checkInput (nested catalog m 0 w steps).graph ⟨0, 0⟩ = .ok () := by
    rw [Graph.checkInput, Graph.find, hget]
    rfl
  rw [pulse, hvisible, hinput, deliver_one hget ⟨rfl, rfl⟩]

theorem idleInstances_nested : (nested catalog m 0 w steps).idleInstances key = m := by
  rw [idleInstances, prototype?_nested]
  simp [prototype, pool]

/-- A number that is not negative is counted down, and the sink gets a zero. -/
theorem run_pulsed {n : Int64} (hn : 0 ≤ n) : ∃ taken w', w'.heap = w.heap ∧
    w'.observations.toList = w.observations.toList ++ [⟨"seen", [.int 0], w.heap⟩] ∧ ∀ extra,
    ((nested catalog m 0 w steps).due 0 [.int n]).run (taken + extra) =
      (.idle taken, nested catalog (max m (n.toInt.toNat + 1)) 0 w' (steps + taken)) := by
  have hk : n.toInt.toNat < 2 ^ 63 := by
    have hmax := n.toInt_lt
    omega
  have hofNat : Int64.ofNat n.toInt.toNat = n := by
    rw [← Int64.ofInt_eq_ofNat, Int.toNat_of_nonneg (Int64.le_iff_toInt_le.1 hn), Int64.ofInt_toInt]
  obtain ⟨_, ⟨events, rfl⟩, hrun⟩ := run_number catalog (m := m) w steps hk
  rw [hofNat] at hrun
  refine ⟨_, _, ?_, ?_, hrun⟩
  · rfl
  · exact Array.toList_push

/-- How many copies there are after some numbers if there were `m` before: more are made only for a
number that is larger than all before it. -/
def copies (m : Nat) : List Int64 → Nat
  | [] => m
  | n :: ns => copies (max m (n.toInt.toNat + 1)) ns

theorem copies_spec (m : Nat) (ns : List Int64) :
    m ≤ copies m ns ∧ (∀ n ∈ ns, n.toInt.toNat + 1 ≤ copies m ns) ∧
      (copies m ns = m ∨ ∃ n ∈ ns, copies m ns = n.toInt.toNat + 1) := by
  induction ns generalizing m with
  | nil => simp [copies]
  | cons n ns ih =>
    obtain ⟨hle, hall, hfound⟩ := ih (max m (n.toInt.toNat + 1))
    rw [copies]
    refine ⟨(Nat.le_max_left ..).trans hle, ?_, ?_⟩
    · exact List.forall_mem_cons.2 ⟨(Nat.le_max_right ..).trans hle, hall⟩
    · obtain hfound | ⟨n', hn', hfound⟩ := hfound
      · obtain hm | hm := Nat.le_total m (n.toInt.toNat + 1)
        · exact .inr ⟨n, List.mem_cons_self, hfound.trans (Nat.max_eq_right hm)⟩
        · exact .inl (hfound.trans (Nat.max_eq_left hm))
      · exact .inr ⟨n', List.mem_cons_of_mem n hn', hfound⟩

/-- If there were none, there are as many as the largest number needs. -/
theorem exists_copies_eq {ns : List Int64} (hne : ns ≠ []) (hns : ∀ n ∈ ns, 0 ≤ n) :
    ∃ n ∈ ns, (∀ n' ∈ ns, n' ≤ n) ∧ (copies 0 ns : Int) = 1 + n.toInt := by
  have hnonneg : ∀ n ∈ ns, 0 ≤ n.toInt := fun n hn => Int64.le_iff_toInt_le.1 (hns n hn)
  obtain ⟨-, hall, hnone | ⟨n, hn, heq⟩⟩ := copies_spec 0 ns
  · obtain ⟨n, hn⟩ := List.exists_mem_of_ne_nil ns hne
    have hpos := hall n hn
    omega
  · have hn₀ := hnonneg n hn
    refine ⟨n, hn, fun n' hn' => ?_, by omega⟩
    have hle := hall n' hn'
    have hn₁ := hnonneg n' hn'
    exact Int64.le_iff_toInt_le.2 (by omega)

theorem driven_nested {ns : List Int64} (hns : ∀ n ∈ ns, 0 ≤ n) : ∃ w' steps',
    Driven 0 (nested catalog m 0 w steps) ns (nested catalog (copies m ns) 0 w' steps') ∧
      w'.observations.toList =
        w.observations.toList ++ List.replicate ns.length ⟨"seen", [.int 0], w.heap⟩ := by
  induction ns generalizing m w steps with
  | nil => exact ⟨w, steps, .nil _, (List.append_nil _).symm⟩
  | cons n ns ih =>
    obtain ⟨hn, hns⟩ := List.forall_mem_cons.1 hns
    obtain ⟨taken, w₁, hheap, hseen₁, hrun⟩ := run_pulsed catalog (m := m) w steps hn
    obtain ⟨w', steps', hdriven, hseen⟩ := ih w₁ (steps + taken) hns
    refine ⟨w', steps', .cons (pulse_nested catalog w steps _) hrun hdriven, ?_⟩
    rw [hseen, hseen₁, hheap, List.append_assoc, List.singleton_append, ← List.replicate_succ,
      List.length_cons]

end Driving

/-- However numbers that are not negative are pulsed into the reference one after the other, each
run comes to rest.  The sink has then got a zero for each of them, nothing is bound, and the pool
holds as many copies as the largest number needs. -/
theorem counts_down (console : Console) {ns : List Int64} (hne : ns ≠ [])
    (hns : ∀ n ∈ ns, 0 ≤ n) :
    ∃ reference e e', build.run (fresh {} console) = .ok (reference, e) ∧
      Driven reference e ns e' ∧ e'.hasPending = false ∧
      e'.world.observations.toList = List.replicate ns.length ⟨"seen", [.int 0], {}⟩ ∧
      e'.watch = [] ∧
      ∃ n ∈ ns, (∀ n' ∈ ns, n' ≤ n) ∧ (e'.idleInstances key : Int) = 1 + n.toInt := by
  have hbuild := run_build equipped_standard { console }
  obtain ⟨w', steps', hdriven, hseen⟩ := driven_nested Catalog.standard (m := 0)
    (World.reportAll { console } [.declared key 1 1, .edited key 1 0]) 0 hns
  refine ⟨0, _, _, hbuild, hdriven, rfl, hseen, rfl, ?_⟩
  rw [idleInstances_nested]
  exact exists_copies_eq hne hns

theorem counts_down_three_two : ∃ reference e e',
    build.run (fresh {} (.script {})) = .ok (reference, e) ∧ Driven reference e [3, 2] e' ∧
      e'.world.observations.toList = [⟨"seen", [.int 0], {}⟩, ⟨"seen", [.int 0], {}⟩] ∧
      e'.watch = [] ∧ e'.idleInstances key = 4 := by
  have hns : ∀ n ∈ ([3, 2] : List Int64), 0 ≤ n := by simp
  obtain ⟨reference, e, e', hbuild, hdriven, -, hseen, hwatch, n, hn, hmax, hidle⟩ :=
    counts_down (.script {}) (List.cons_ne_nil 3 [2]) hns
  have hthree : n = 3 := by
    obtain rfl | rfl : n = 3 ∨ n = 2 := by simpa using hn
    · rfl
    · exact absurd (hmax 3 List.mem_cons_self) (by decide)
  rw [hthree] at hidle
  have hfour : 1 + (3 : Int64).toInt = 4 := by decide
  exact ⟨reference, e, e', hbuild, hdriven, hseen, hwatch, by omega⟩

end PulseFlow.Countdown
