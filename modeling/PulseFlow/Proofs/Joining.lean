import PulseFlow.Proofs.Histories

/-!
# What firings get

A node fires when a signal has come to each of its inputs.  Over a whole history this is: a firing
gets, at each input, the signal that was delivered there last before its wave began, and it was
delivered after the node was put into the graph and after the wave began in which the node fired
last.  So every input has received a signal since then, and what was delivered once is got once.
The signals are those that the inputs hold; this is the invariant.

    n.inputs[port]? = some (some s) → ∃ d, Lies e H d k ⟨id, port⟩ s          (lies_of_inputs)
    H[t]? = some (.fire shot) → ∃ w n, Joins e H t shot w n                   (joins_of_records)
    Passes e H d t → Passes e H d t' → t = t'                                 (passes_once)
-/

namespace PulseFlow.Engine

/-! ## Positions in a history -/

/-- The engine just before the deed at a position. -/
def before (e : Engine) (H : List Deed) (k : Nat) : Engine := e.replay (H.take k)

/-- What happens at position `t` happens in the wave that begins at position `w`. -/
structure Begins (H : List Deed) (w t : Nat) : Prop where
  lt : w < t
  collects : H[w]? = some .collect
  last : ∀ k, w < k → k < t → H[k]? ≠ some .collect

/-- The signal delivered at position `d` lies on the input at position `k`: the node has been in the
graph all the time, nothing else has been delivered to the input, and the node was not pending when
a wave began, so it has not fired with it. -/
structure Lies (e : Engine) (H : List Deed) (d k : Nat) (target : Socket) (s : Signal) : Prop where
  lt : d < k
  delivered : H[d]? = some (.deliver target s)
  present : ∀ j, d ≤ j → j ≤ k → ∃ n, (e.before H j).graph.get? target.node = some n
  last : ∀ j, d < j → j < k → ∀ s', H[j]? ≠ some (.deliver target s')
  kept : ∀ j, d < j → j < k → H[j]? = some .collect → target.node ∉ (e.before H j).pending

/-- The firing at position `t` gets the signal delivered at position `d`. -/
def Passes (e : Engine) (H : List Deed) (d t : Nat) : Prop :=
  ∃ shot w target s, H[t]? = some (.fire shot) ∧ Begins H w t ∧ target.node = shot.id ∧
    Lies e H d w target s

/-- The firing at position `t` gets a signal at each input of the node, the one that lies there when
its wave begins. -/
structure Joins (e : Engine) (H : List Deed) (t : Nat) (shot : Shot) (w : Nat) (n : Node) :
    Prop where
  begins : Begins H w t
  pending : shot.id ∈ (e.before H w).pending
  node : (e.before H w).graph.get? shot.id = some n
  /-- The node that fires is the one that was pending. -/
  stays : ∀ j, w ≤ j → j ≤ t → ∃ m, (e.before H j).graph.get? shot.id = some m ∧ n.SameForm m
  arity : n.inputs.length = shot.inputs.length
  some_input : shot.inputs ≠ []
  inputs : ∀ port s, shot.inputs[port]? = some s → ∃ d, Lies e H d w ⟨shot.id, port⟩ s
  /-- All of it was delivered after the wave began in which the node fired before. -/
  since : ∀ t₀ shot₀ w₀, t₀ < t → H[t₀]? = some (.fire shot₀) → shot₀.id = shot.id →
    Begins H w₀ t₀ → w₀ < w ∧ ∀ d target s, target.node = shot.id → Lies e H d w target s → w₀ < d

variable {e e' : Engine} {H : List Deed} {d k t t' w w' : Nat} {target : Socket} {s : Signal}

theorem before_succ {deed : Deed} (h : H[k]? = some deed) :
    e.before H (k + 1) = (e.before H k).carryOut deed := by
  obtain ⟨hk, rfl⟩ := List.getElem?_eq_some_iff.1 h
  rw [before, List.take_succ_eq_append_getElem hk, replay_append]
  rfl

theorem Lawful.permits (h : e.Lawful H) {deed : Deed} (hk : H[k]? = some deed) :
    (e.before H k).Permits deed := by
  induction H generalizing e k with
  | nil => cases hk
  | cons first H ih =>
    cases k with
    | zero =>
      cases hk
      exact h.1
    | succ k => exact ih h.2 hk

/-- A number in use from one position to another stands for one node all the time. -/
theorem Lawful.oneWay (h : e.Lawful H) (k : Nat) :
    Graph.OneWay (e.before H k).graph (e.before H (k + 1)).graph := by
  cases hk : H[k]? with
  | some deed =>
    rw [before_succ hk]
    exact (h.permits hk).oneWay
  | none =>
    have hlength := List.getElem?_eq_none_iff.1 hk
    rw [before, before, List.take_of_length_le hlength, List.take_of_length_le (by omega)]
    exact .inr fun _ n hn => ⟨n, hn⟩

theorem Begins.unique (h : Begins H w t) (h' : Begins H w' t) : w = w' := by
  rcases Nat.lt_trichotomy w w' with hlt | heq | hgt
  · exact absurd h'.collects (h.last w' hlt h'.lt)
  · exact heq
  · exact absurd h.collects (h'.last w hgt h.lt)

/-! ## What inputs hold -/

theorem Lies.next {deed : Deed} (h : Lies e H d k target s) (hk : H[k]? = some deed)
    (hlive : ∃ n, (e.before H (k + 1)).graph.get? target.node = some n)
    (hdeliver : ∀ s', deed ≠ .deliver target s')
    (hcollect : deed = .collect → target.node ∉ (e.before H k).pending) :
    Lies e H d (k + 1) target s where
  lt := Nat.lt_succ_of_lt h.lt
  delivered := h.delivered
  present := by
    intro j hd hj
    rcases Nat.lt_or_ge k j with hkj | hkj
    · have heq : j = k + 1 := by omega
      rw [heq]
      exact hlive
    · exact h.present j hd hkj
  last := by
    intro j hd hj s' hs'
    rcases Nat.lt_or_ge j k with hjk | hjk
    · exact h.last j hd hjk s' hs'
    · have heq : j = k := by omega
      rw [heq, hk] at hs'
      exact hdeliver s' (Option.some.inj hs')
  kept := by
    intro j hd hj hc
    rcases Nat.lt_or_ge j k with hjk | hjk
    · exact h.kept j hd hjk hc
    · have heq : j = k := by omega
      rw [heq] at hc ⊢
      rw [hk] at hc
      exact hcollect (Option.some.inj hc)

/-- What has just been delivered lies on its input. -/
theorem lies_self (hk : H[k]? = some (.deliver target s))
    (hlive : ∃ n, (e.before H k).graph.get? target.node = some n)
    (hnext : ∃ n, (e.before H (k + 1)).graph.get? target.node = some n) :
    Lies e H k (k + 1) target s where
  lt := Nat.lt_succ_self k
  delivered := hk
  present := by
    intro j hd hj
    rcases Nat.eq_or_lt_of_le hd with rfl | hlt
    · exact hlive
    · have heq : j = k + 1 := by omega
      rw [heq]
      exact hnext
  last := fun j hd hj => by omega
  kept := fun j hd hj => by omega

/-- The induction is on the position.  Each deed keeps what lies on an input, replaces it, or takes
it away. -/
theorem lies_of_inputs (hstart : ∀ id, e.graph.get? id = none) (h : e.Lawful H) (hk : k ≤ H.length)
    {id : NodeId} {n : Node} (hn : (e.before H k).graph.get? id = some n) {port : Nat}
    (hs : n.inputs[port]? = some (some s)) : ∃ d, Lies e H d k ⟨id, port⟩ s := by
  induction k generalizing n s with
  | zero =>
    rw [show (e.before H 0).graph.get? id = none from hstart id] at hn
    cases hn
  | succ k ih =>
    obtain ⟨deed, hdeed⟩ : ∃ deed, H[k]? = some deed := ⟨_, List.getElem?_eq_getElem hk⟩
    have hlive : ∃ n, (e.before H (k + 1)).graph.get? id = some n := ⟨n, hn⟩
    have hnext := hn
    rw [before_succ hdeed] at hnext
    rcases inputs_carryOut (h.permits hdeed) hnext with ⟨m, hm, hfed⟩ | ⟨-, hempty⟩
    · have hstay : m.inputs[port]? = some (some s) →
          (∀ s', deed ≠ .deliver ⟨id, port⟩ s') →
          (deed = .collect → id ∉ (e.before H k).pending) →
          ∃ d, Lies e H d (k + 1) ⟨id, port⟩ s := by
        intro hsame hdeliver hcollect
        obtain ⟨d, hd⟩ := ih (Nat.le_of_succ_le hk) hm hsame
        exact ⟨d, hd.next hdeed hlive hdeliver hcollect⟩
      rw [hfed] at hs
      cases deed with
      | deliver target s' =>
        have hother : target ≠ ⟨id, port⟩ → m.inputs[port]? = some (some s) →
            ∃ d, Lies e H d (k + 1) ⟨id, port⟩ s := by
          intro hne hsame
          refine hstay hsame (fun s'' heq => ?_) nofun
          cases heq
          exact hne rfl
        rw [Deed.fed] at hs
        split at hs
        · next hid =>
          rw [List.getElem?_set] at hs
          split at hs
          · next hport =>
            have htarget : target = ⟨id, port⟩ := by rw [← hid, ← hport]
            split at hs
            · cases hs
              rw [htarget] at hdeed
              exact ⟨k, lies_self hdeed ⟨m, hm⟩ hlive⟩
            · cases hs
          · next hport => exact hother (fun heq => hport (congrArg Socket.port heq)) hs
        · next hid => exact hother (fun heq => hid (congrArg Socket.node heq)) hs
      | collect =>
        rw [Deed.fed] at hs
        split at hs
        · obtain ⟨_, -, hnone⟩ := List.mem_map.1 (List.mem_of_getElem? hs)
          cases hnone
        · next hid => exact hstay hs nofun fun _ => hid
      | call c => exact hstay hs nofun nofun
      | lose source => exact hstay hs nofun nofun
      | fire shot => exact hstay hs nofun nofun
      | sweep => exact hstay hs nofun nofun
    · cases hempty _ (List.mem_of_getElem? hs)

/-! ## What fires -/

/-- Position `t` is inside the wave that begins at position `w` with a sound engine. -/
structure Inside (e : Engine) (H : List Deed) (w t : Nat) : Prop where
  sound : Sound (.rest (e.before H w))
  deed : ∀ i, i < (e.before H w).waveDeeds.length → H[w + i]? = (e.before H w).waveDeeds[i]?
  engine : ∀ i, i < (e.before H w).waveDeeds.length →
    e.before H (w + i) = (e.before H w).replay ((e.before H w).waveDeeds.take i)
  gt : w < t
  lt : t < w + (e.before H w).waveDeeds.length

theorem Records.inside (h : Records e H e') {shot : Shot} (ht : H[t]? = some (.fire shot)) :
    ∃ w, Inside e H w t := by
  obtain ⟨prior, after, hdeeds, hsound, hgt, hlt⟩ := h.waved t shot ht
  have hbefore : e.before H prior.length = e.replay prior := by
    rw [before, hdeeds, List.take_left]
  refine ⟨prior.length, ?_, fun i hi => ?_, fun i hi => ?_, hgt, ?_⟩
  · rw [hbefore]
    exact hsound
  · rw [hbefore] at hi ⊢
    rw [hdeeds, List.getElem?_append_right (Nat.le_add_right _ _), Nat.add_sub_cancel_left,
      List.getElem?_append_left hi]
  · rw [hbefore] at hi ⊢
    rw [before, hdeeds, List.take_length_add_append, replay_append,
      List.take_append_of_le_length (Nat.le_of_lt hi)]
  · rw [hbefore]
    exact hlt

theorem Inside.begins (h : Inside e H w t) : Begins H w t := by
  refine ⟨h.gt, ?_, fun k hw hk hc => ?_⟩
  · exact h.deed 0 (Nat.zero_lt_succ _)
  · obtain ⟨i, rfl⟩ : ∃ i, k = w + (i + 1) := ⟨k - w - 1, by omega⟩
    have hi : i + 1 < (e.before H w).waveDeeds.length := by
      have := h.lt
      omega
    rw [h.deed (i + 1) hi] at hc
    exact (e.before H w).collect_not_mem_tail (List.mem_of_getElem? hc)

/-- What fires in a wave was pending when it began, and gets what it held then. -/
theorem Inside.asHeld {shot : Shot} (h : Inside e H w t) (ht : H[t]? = some (.fire shot)) :
    shot.id ∈ (e.before H w).pending ∧ AsHeld (e.before H w).graph shot.id shot := by
  obtain ⟨i, rfl⟩ : ∃ i, t = w + i := ⟨t - w, by have := h.gt; omega⟩
  rw [h.deed i (by have := h.lt; omega)] at ht
  have hmem : shot ∈ (e.before H w).waveDeeds.filterMap Deed.shot? :=
    List.mem_filterMap.2 ⟨_, List.mem_of_getElem? ht, rfl⟩
  rw [filterMap_waveDeeds h.sound] at hmem
  exact ⟨id_mem_of_mem_collect hmem, asHeld_of_mem_collect h.sound hmem⟩

/-- A node fires once in a wave. -/
theorem Inside.unique {shot shot' : Shot} (h : Inside e H w t) (h' : Inside e H w t')
    (ht : H[t]? = some (.fire shot)) (ht' : H[t']? = some (.fire shot'))
    (hid : shot.id = shot'.id) : t = t' := by
  have hpairs := pairwise_waveDeeds h.sound
  obtain ⟨i, rfl⟩ : ∃ i, t = w + i := ⟨t - w, by have := h.gt; omega⟩
  obtain ⟨j, rfl⟩ : ∃ j, t' = w + j := ⟨t' - w, by have := h'.gt; omega⟩
  have hi : i < (e.before H w).waveDeeds.length := by
    have := h.lt
    omega
  have hj : j < (e.before H w).waveDeeds.length := by
    have := h'.lt
    omega
  rw [h.deed i hi, List.getElem?_eq_getElem hi, Option.some.injEq] at ht
  rw [h.deed j hj, List.getElem?_eq_getElem hj, Option.some.injEq] at ht'
  rw [List.pairwise_iff_getElem] at hpairs
  rcases Nat.lt_trichotomy i j with hlt | heq | hgt
  · exact absurd hid (hpairs i j hi hj hlt shot (by rw [ht]; rfl) shot' (by rw [ht']; rfl))
  · rw [heq]
  · exact absurd hid.symm (hpairs j i hj hi hgt shot' (by rw [ht']; rfl) shot (by rw [ht]; rfl))

theorem Inside.lasts (h : Inside e H w t) {j : Nat} (hw : w ≤ j) (hj : j ≤ t) :
    Graph.Lasts (e.before H w).graph (e.before H j).graph := by
  obtain ⟨i, rfl⟩ : ∃ i, j = w + i := ⟨j - w, by omega⟩
  have hi : i < (e.before H w).waveDeeds.length := by
    have := h.lt
    omega
  rw [h.engine i hi]
  exact lasts_waveDeeds h.sound hi

/-- What lies on an input when a wave begins was delivered after all earlier waves in which the node
was pending. -/
theorem Lies.since (h : Lies e H d w' target s) (hlt : w < w') (hcollects : H[w]? = some .collect)
    (hpending : target.node ∈ (e.before H w).pending) : w < d := by
  rcases Nat.lt_trichotomy w d with hwd | heq | hdw
  · exact hwd
  · rw [heq, h.delivered] at hcollects
    cases hcollects
  · exact absurd hpending (h.kept w hdw hlt hcollects)

/-- Of two firings of a node, the earlier one is in an earlier wave. -/
theorem Inside.earlier {shot shot' : Shot} (h : Inside e H w t) (h' : Inside e H w' t')
    (ht : H[t]? = some (.fire shot)) (ht' : H[t']? = some (.fire shot'))
    (hid : shot.id = shot'.id) (hlt : t < t') : w < w' := by
  rcases Nat.lt_trichotomy w w' with hww | heq | hww
  · exact hww
  · subst heq
    have hsame := h.unique h' ht ht' hid
    omega
  · exact absurd h.begins.collects (h'.begins.last w hww (Nat.lt_trans h.gt hlt))

theorem joins_of_records (hstart : ∀ id, e.graph.get? id = none) (h : Records e H e') {shot : Shot}
    (ht : H[t]? = some (.fire shot)) : ∃ w n, Joins e H t shot w n := by
  obtain ⟨w, hw⟩ := h.inside ht
  obtain ⟨hpending, -, n, hn, hinputs⟩ := hw.asHeld ht
  have hlength : w ≤ H.length := by
    have := (List.getElem?_eq_some_iff.1 hw.begins.collects).1
    omega
  refine ⟨w, n, hw.begins, hpending, hn, fun j hwj hjt => ?_, ?_, ?_, fun port s hs => ?_, ?_⟩
  · obtain ⟨m, hm, -, hform⟩ := (hw.lasts hwj hjt).live shot.id n hn
    exact ⟨m, hm, hform⟩
  · rw [hinputs, List.length_map]
  · obtain ⟨m, hm, hne, -⟩ := ((punctual_of_sound hw.sound).full shot.id).1 hpending
    cases hm.symm.trans hn
    rw [hinputs] at hne
    exact fun hnil => hne (hnil ▸ rfl)
  · refine lies_of_inputs hstart h.lawful hlength hn ?_
    rw [hinputs, List.getElem?_map, hs]
    rfl
  · intro t₀ shot₀ w₀ hlt ht₀ hid hbegins
    obtain ⟨v, hv⟩ := h.inside ht₀
    cases hv.begins.unique hbegins
    have hww := hv.earlier hw ht₀ ht hid hlt
    refine ⟨hww, fun d target s htarget hlies => hlies.since hww hv.begins.collects ?_⟩
    rw [htarget, ← hid]
    exact (hv.asHeld ht₀).1

/-- A later wave does not begin with the signal still there, because the node was pending. -/
theorem passes_once (h : Records e H e') (ht : Passes e H d t) (ht' : Passes e H d t') :
    t = t' := by
  have hpasses : ∀ {t t'}, Passes e H d t → Passes e H d t' → ¬ t < t' := by
    rintro t t' ⟨shot, w, target, s, hfire, hbegins, hnode, hlies⟩
      ⟨shot', w', target', s', hfire', hbegins', hnode', hlies'⟩ hlt
    have htarget : target = target' := by
      have heq := hlies.delivered.symm.trans hlies'.delivered
      injection heq with heq
      injection heq
    subst htarget
    obtain ⟨v, hv⟩ := h.inside hfire
    obtain ⟨v', hv'⟩ := h.inside hfire'
    cases hv.begins.unique hbegins
    cases hv'.begins.unique hbegins'
    have hww := hv.earlier hv' hfire hfire' (hnode.symm.trans hnode') hlt
    have hwd := hlies'.since hww hbegins.collects (hnode ▸ (hv.asHeld hfire).1)
    exact Nat.lt_asymm hwd hlies.lt
  exact Nat.le_antisymm (Nat.not_lt.1 (hpasses ht' ht)) (Nat.not_lt.1 (hpasses ht ht'))

/-- Every session has a history that leads to where the session leads.  A number that is in use from
one deed to the next stands for one node; each firing in it joins what was delivered to all inputs
of the node since the node fired last; and no delivery is got by two firings. -/
theorem joins_history (settings : Settings) (console : Console) (commands : List Command) :
    let e := fresh settings console
    let H := e.history commands
    e.replay H = e.after commands ∧
      (∀ k, Graph.OneWay (e.before H k).graph (e.before H (k + 1)).graph) ∧
      (∀ t shot, H[t]? = some (.fire shot) → ∃ w n, Joins e H t shot w n) ∧
      ∀ d t t', Passes e H d t → Passes e H d t' → t = t' := by
  intro e H
  have hrecords : Records e H (e.after commands) :=
    records_history (fresh_settled settings console) commands
  have hstart : ∀ id, e.graph.get? id = none := Slots.get?_empty
  exact ⟨hrecords.replay, hrecords.lawful.oneWay, fun t shot => joins_of_records hstart hrecords,
    fun d t t' => passes_once hrecords⟩

end PulseFlow.Engine
