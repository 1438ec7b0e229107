import PulseFlow.Proofs.Accounts
import PulseFlow.Proofs.Progress
import PulseFlow.Proofs.Transparency
import PulseFlow.Proofs.Wirings

/-!
# Work without circles comes to an end

Where connections and references go round in no circle, every node at work has a level: the rank of
a visible node in the wiring, and for a node of a bound instance the level of the reference and its
rank in the template on top (`Level`).  A wave sends signals to higher levels only, so whatever is
pending after `k` waves is at level `k` or above (`Due`).  No level is as high as the extent of the
wiring, so after as many waves nothing is pending, whatever the signals are and whatever the logics
do with them.

    Level e₀ e x a → a + e₀.wiring.weight (n.joint x) ≤ e₀.wiring.extent       (Level.add_weight_le)
    Level e₀ e x a → Leads e.graph ⟨x, port⟩ t → Level e₀ e t.node b with a < b     (Level.leads)
    Aligned e₀ e → Due e₀ k e → Due e₀ (k + 1) e.swept                             (due_swept)
-/

namespace PulseFlow.Engine

variable {e₀ e e' : Engine} {x r id : NodeId} {n : Node} {k : Key} {i : Instance}
  {a b : Nat} {t : Socket}

/-! ## What waves leave as it is -/

/-- Since `e₀` nothing has changed in the templates and in the wiring of visible nodes, and all
instances are copies of the templates as they are. -/
structure Aligned (e₀ e : Engine) : Prop where
  drawn : e.Drawn
  faithful : e.Faithful
  template : ∀ k q, e.prototype? k = some q → ∃ p, e₀.prototype? k = some p ∧ q.bare = p.bare
  visible : ∀ x n, e.graph.get? x = some n → n.internal = false → n.joint x ∈ e₀.wiring.visible
  current : ∀ k i p, e.InstanceOf k i → e.prototype? k = some p → i.revision = p.revision

/-- A scope in which nothing is drawn, placed, wired or erased. -/
def still : Scope := ⟨fun _ => False, True, False, False, False⟩

/-- Changes of signals and bindings keep an engine aligned. -/
theorem Aligned.change (ha : Aligned e₀ e) (h : Sound (.rest e)) (h' : Sound (.rest e'))
    (hc : Change still e e')
    (hbare : ∀ k q, e'.prototype? k = some q → ∃ p, e.prototype? k = some p ∧ q.bare = p.bare)
    (hknown : ∀ x n', e'.graph.get? x = some n' → n'.internal = false →
      ∃ n, e.graph.get? x = some n ∧ n.internal = false ∧ n.SameForm n') : Aligned e₀ e' where
  drawn := hc.drawn h ha.drawn
  faithful := hc.faithful h h' ha.drawn ha.faithful
  template := by
    intro k q hq
    obtain ⟨p, hp, hqp⟩ := hbare k q hq
    obtain ⟨p₀, hp₀, hpp⟩ := ha.template k p hp
    exact ⟨p₀, hp₀, hqp.trans hpp⟩
  visible := by
    intro x n' hn' hv'
    obtain ⟨n, hn, hv, hform⟩ := hknown x n' hn' hv'
    obtain ⟨m, hm, -, hout⟩ := hc.steady h h' id id x n hn hv
    cases hm.symm.trans hn'
    have hjoint : n'.joint x = n.joint x := by rw [Node.joint, Node.joint, hform.refers?, hout]
    rw [hjoint]
    exact ha.visible x n hn hv
  current := by
    intro k i q hi hq
    obtain ⟨p, hp, hqp⟩ := hbare k q hq
    have hrev : q.bare.revision = p.bare.revision := by rw [hqp]
    refine Eq.trans ?_ hrev.symm
    rcases hc.instanceOf h h' ha.drawn hi with hold | ⟨p', f, hp', hcopy, -⟩
    · exact ha.current k i p hold hp
    · cases hp.symm.trans hp'
      exact hcopy

theorem aligned_self (hd : e.Drawn) (hf : e.Faithful) (h : Sound (.rest e))
    (hun : ∀ id, e.instance? id = none) : Aligned e e where
  drawn := hd
  faithful := hf
  template := fun k q hq => ⟨q, hq, rfl⟩
  visible := fun x n => mem_visible
  current := by
    rintro k i p (⟨r, n, hn, hb⟩ | ⟨q, hq, hi⟩) hp
    · have hbound : e.instance? r = some i :=
        (Graph.instance?_of_get? hn).trans (Node.instance?_of_reference hb)
      rw [hun r] at hbound
      cases hbound
    · cases hq.symm.trans hp
      exact (h.idle k p hp i hi).current

theorem Aligned.feed (ha : Aligned e₀ e) (h : Sound (.rest e)) (h' : Sound (.rest e'))
    (hal : Graph.Alike e.graph e'.graph) (hr : e'.registry = e.registry) : Aligned e₀ e' := by
  have hc : Change still e e' := .feed (.inl trivial) hal hr
  refine ha.change h h' hc (fun k q hq => ?_) fun x n' hn' hv' => ?_
  · rw [prototype?, hr] at hq
    exact ⟨q, hq, rfl⟩
  · obtain ⟨n, hn, hal⟩ := hal.row hn'
    exact ⟨n, hn, hal.internal.symm.trans hv', hal.sameForm⟩

theorem Aligned.bind (ha : Aligned e₀ e) (h : Sound (.rest e)) (h' : Sound (.rest e'))
    (hn : e.graph.get? id = some n) (hb : n.body = .reference k none) (hid : ¬ e.Pooled id)
    (hengage : e.engage id = .ok e') : Aligned e₀ e' := by
  have hc : Change still e e' := .bind trivial hn hb hid hengage
  have hlasts := lasts_engage h hn hb hengage
  refine ha.change h h' hc (fun k' q hq => ?_) fun x m' hm' hv' => ?_
  · obtain ⟨p, hp, -⟩ := prototype?_of_reference h hn hb
    rw [engage_eq hn hb hp] at hengage
    cases hengage
    exact registry_acquire (h.named k p hp) hp hq
  · obtain ⟨m, hm⟩ := hlasts.known x m' hm' hv'
    obtain ⟨c, hc, hint, hform⟩ := hlasts.live x m hm
    cases hc.symm.trans hm'
    exact ⟨m, hm, hint.symm.trans hv', hform⟩

theorem Aligned.sweep (ha : Aligned e₀ e) (h : Sound (.rest e)) : Aligned e₀ e.sweep := by
  have hmoves := (sweep_moves h).1
  have hc : Change still e e.sweep := .tear hmoves (sweep_restores h)
  have hfades : Graph.Fades e.graph e.sweep.graph := hmoves.fades
  refine ha.change h (hmoves.sound h) hc (fun k q hq => hmoves.prototype hq)
    fun x n' hn' hv' => ?_
  obtain ⟨n, hn, hfade⟩ := hfades x n' hn'
  exact ⟨n, hn, hfade.internal.symm.trans hv', hfade.sameForm⟩

/-! ## Levels -/

/-- A sound engine whose wiring goes round in no circle. -/
structure Orderly (e : Engine) : Prop where
  sound : Sound (.rest e)
  drawn : e.Drawn
  acyclic : e.wiring.Acyclic

/-- How much leads to a node, from the visible nodes down to the instance that the node is in. -/
inductive Level (e₀ e : Engine) : NodeId → Nat → Prop
  | visible {x : NodeId} (visible : Graph.Visible e.graph x) :
      Level e₀ e x (e₀.wiring.rank e₀.wiring.visible x)
  | inside {r old : NodeId} {a : Nat} {n m : Node} {k : Key} {i : Instance} {p : Prototype}
      {f : NodeId → NodeId} (level : Level e₀ e r a) (get : e.graph.get? r = some n)
      (body : n.body = .reference k (some i)) (prototype : e₀.prototype? k = some p)
      (copied : p.CopiedIn e.graph i f) (node : p.graph.get? old = some m) :
      Level e₀ e (f old) (a + 1 + e₀.wiring.rank p.graph.joints old)

/-- What a bound reference holds is like a template of `e₀`. -/
theorem Aligned.copiedIn (ha : Aligned e₀ e) (h : Sound (.rest e)) (hn : e.graph.get? r = some n)
    (hb : n.body = .reference k (some i)) :
    ∃ p f, e₀.prototype? k = some p ∧ p.Drawn ∧ p.CopiedIn e.graph i f := by
  have hi : e.InstanceOf k i := .inl ⟨r, n, hn, hb⟩
  obtain ⟨q, hq⟩ := prototype?_of_instanceOf h hi
  obtain ⟨f, hcopy⟩ := (ha.faithful k q i hq hi).2 (ha.current k i q hi hq)
  obtain ⟨p, hp, hbare⟩ := ha.template k q hq
  have hg : p.bare.graph = q.bare.graph := by rw [hbare]
  have hin : p.bare.inputs = q.bare.inputs := by rw [hbare]
  have hout : p.bare.outputs = q.bare.outputs := by rw [hbare]
  exact ⟨p, f, hp, (ha.drawn k q hq).of_bare hbare.symm, hcopy.congr hg hin hout⟩

namespace Level

/-- A node keeps its level where it stays, with all that holds it: `P` is what is known of it and of
the references above it. -/
theorem transfer {P : NodeId → Prop} (hlevel : Level e₀ e x a) (hx : P x)
    (hup : ∀ r i m, e.instance? r = some i → m ∈ i.nodes → P m → P r)
    (hvisible : ∀ x, P x → Graph.Visible e.graph x → Graph.Visible e'.graph x)
    (hbound : ∀ r n k i, P r → e.graph.get? r = some n → n.body = .reference k (some i) →
      ∃ n', e'.graph.get? r = some n' ∧ n'.body = .reference k (some i))
    (hkept : ∀ r i, P r → e.instance? r = some i → i.Kept e.graph e'.graph)
    (h₀ : Orderly e₀) : Level e₀ e' x a := by
  induction hlevel with
  | visible hv => exact .visible (hvisible _ hx hv)
  | @inside r old a n m k i p f _ get body prototype copied node ih =>
    have hi : e.instance? r = some i :=
      (Graph.instance?_of_get? get).trans (Node.instance?_of_reference body)
    have hm : f old ∈ i.nodes := copied.bijOn.mapsTo (Option.isSome_iff_exists.2 ⟨m, node⟩)
    have hr := hup r i (f old) hi hm hx
    obtain ⟨n', hn', hb'⟩ := hbound r n k i hr get body
    exact .inside (ih hr) hn' hb' prototype
      (copied.of_kept (h₀.sound.templates k p prototype) (hkept r i hr hi)) node

theorem feed (hlevel : Level e₀ e x a) (h₀ : Orderly e₀)
    (hal : Graph.Alike e.graph e'.graph) : Level e₀ e' x a := by
  refine hlevel.transfer (P := fun _ => True) trivial (fun _ _ _ _ _ _ => trivial)
    (fun x _ => hal.visible) (fun r n k i _ hn hb => ?_) (fun r i _ _ => ?_) h₀
  · obtain ⟨n', hn', hnode⟩ := hal.live hn
    rcases hnode.body with hsame | ⟨l, l', hl, -⟩
    · exact ⟨n', hn', hsame.trans hb⟩
    · rw [hb] at hl
      cases hl
  · intro m _ c hc
    obtain ⟨c', hc', hnode⟩ := hal.live hc
    exact ⟨c', hc', hnode.sameForm, fun _ => hnode.outputs⟩

theorem bind (hlevel : Level e₀ e x a) (h₀ : Orderly e₀) (h : Sound (.rest e))
    (h' : Sound (.rest e')) (hn : e.graph.get? id = some n) (hb : n.body = .reference k none)
    (hid : ¬ e.Pooled id) (hengage : e.engage id = .ok e') : Level e₀ e' x a := by
  have hc : Change still e e' := .bind trivial hn hb hid hengage
  obtain ⟨p, j, e₁, hE⟩ := engage_engaged h hn hb hengage
  have hbound : ∀ r c k' i, e.graph.get? r = some c → c.body = .reference k' (some i) →
      ∃ c', e'.graph.get? r = some c' ∧ c'.body = .reference k' (some i) := by
    intro r c k' i hr hbody
    obtain ⟨c', hc'⟩ := hE.live ((hE.acquired h).keep r c hr)
    obtain ⟨d, hd, -, -, -, hsame⟩ := row_engaged (hE.graph ▸ hc')
    cases hd.symm.trans ((hE.acquired h).keep r c hr)
    have hne : r ≠ id := by
      rintro rfl
      cases hr.symm.trans hn
      rw [hb] at hbody
      cases hbody
    rw [if_neg hne] at hsame
    exact ⟨c', hc', hsame.trans hbody⟩
  refine hlevel.transfer (P := fun _ => True) trivial (fun _ _ _ _ _ _ => trivial)
    (fun x _ hv => ?_) (fun r c k' i _ => hbound r c k' i) (fun r i _ hr => ?_) h₀
  · obtain ⟨m, hm, hv⟩ := hv
    obtain ⟨m', hm', hv', -⟩ := hc.steady h h' (fun hw => hw) (fun he => he) x m hm hv
    exact ⟨m', hm', hv'⟩
  · obtain ⟨c, hcr, hi⟩ := Graph.instance?_eq_some_iff.1 hr
    obtain ⟨k', hbody⟩ := Node.reference_of_instance? hi
    obtain ⟨c', hc', hbody'⟩ := hbound r c k' i hcr hbody
    exact hc.kept h h' (InstanceOf.mem (.inl ⟨r, c, hcr, hbody⟩))
      (InstanceOf.mem (.inl ⟨r, c', hc', hbody'⟩))

/-- The sweep does not touch what is active, and a reference is active if anything in its instance
is. -/
theorem sweep (hlevel : Level e₀ e x a) (h₀ : Orderly e₀) (h : Sound (.rest e))
    (hx : Graph.Active e.graph x) : Level e₀ e.sweep x a := by
  have hmoves := (sweep_moves h).1
  have hkeep : ∀ r, Graph.Active e.graph r → e.sweep.graph.get? r = e.graph.get? r := fun r hr =>
    hmoves.keep fun hnot => hnot hr
  refine hlevel.transfer hx (fun r i m hi hm hact => .inside hi hm hact) (fun x hx hv => ?_)
    (fun r n k i hr hn hb => ⟨n, (hkeep r hr).trans hn, hb⟩) (fun r i hr hi => ?_) h₀
  · obtain ⟨n, hn, hv⟩ := hv
    exact ⟨n, (hkeep x hx).trans hn, hv⟩
  · obtain ⟨n, hn, hni⟩ := Graph.instance?_eq_some_iff.1 hi
    have hi' : e.sweep.instance? r = some i :=
      Graph.instance?_eq_some_iff.2 ⟨n, (hkeep r hr).trans hn, hni⟩
    exact hmoves.kept h (Sound.mem_of_bound (w := .rest e.sweep) hi')

/-! ## Levels rise -/

/-- The weight of a reference covers all that its instance can come to. -/
theorem rank_le_weight (h₀ : Orderly e₀) {p : Prototype} {old : NodeId} {m : Node}
    (hb : n.body = .reference k (some i)) (hp : e₀.prototype? k = some p)
    (hm : p.graph.get? old = some m) :
    1 + e₀.wiring.rank p.graph.joints old + e₀.wiring.weight (m.joint old) ≤
      e₀.wiring.weight (n.joint r) := by
  have hacyclic : Acyclic (Joint.Leads p.graph.joints) :=
    h₀.acyclic.templates _ (mem_templates hp)
  have hmass : e₀.wiring.rank p.graph.joints old + e₀.wiring.weight (m.joint old) ≤
      e₀.wiring.mass p.graph.joints := Wiring.rank_add_le_mass hacyclic (Graph.joint_mem hm)
  have hweight : e₀.wiring.weight (n.joint r) = 1 + e₀.wiring.mass p.graph.joints := by
    rw [Wiring.weight_of_refers h₀.acyclic (Node.refers?_of_reference hb), template_wiring hp]
  omega

/-- No level is as high as the extent of the wiring. -/
theorem add_weight_le (h₀ : Orderly e₀) (ha : Aligned e₀ e) (hlevel : Level e₀ e x a) :
    ∀ n, e.graph.get? x = some n → a + e₀.wiring.weight (n.joint x) ≤ e₀.wiring.extent := by
  induction hlevel with
  | @visible x hv =>
    intro n hn
    obtain ⟨n', hn', hv⟩ := hv
    cases hn.symm.trans hn'
    rw [Wiring.extent_eq]
    exact Wiring.rank_add_le_mass h₀.acyclic.visible (ha.visible x n hn hv)
  | @inside r old a n m k i p f _ get body prototype copied node ih =>
    intro c hc
    obtain ⟨c', hc', -, hform⟩ := copied.form old m node
    cases hc.symm.trans hc'
    have hover := ih n get
    have hin := rank_le_weight (r := r) h₀ body prototype node
    rw [e₀.wiring.weight_of_sameForm hform old (f old)]
    omega

/-- A connection leads up, by the weight of the node that it leaves. -/
theorem leads (h₀ : Orderly e₀) (ha : Aligned e₀ e) (h : Sound (.rest e))
    (hlevel : Level e₀ e x a) : ∀ n, e.graph.get? x = some n → ∀ port t,
      Graph.Leads e.graph ⟨x, port⟩ t →
        ∃ b, a + e₀.wiring.weight (n.joint x) ≤ b ∧ Level e₀ e t.node b := by
  induction hlevel with
  | @visible x hv =>
    intro n hn port t hl
    obtain ⟨n', hn', hv⟩ := hv
    cases hn.symm.trans hn'
    have hj := ha.visible x n hn hv
    refine ⟨_, Wiring.rank_add_le h₀.acyclic.visible hj (Graph.joint_leads hl hn hj), .visible ?_⟩
    exact hl.node hn (h.wired.visible x n hn hv)
  | @inside r old a n m k i p f level get body prototype copied node ih =>
    intro c hc port t hl
    obtain ⟨c', hc', -, hform⟩ := copied.form old m node
    cases hc.symm.trans hc'
    rw [e₀.wiring.weight_of_sameForm hform old (f old)]
    by_cases hout : old ∈ p.outputs
    · -- an output leads where the reference leads
      have hi : e.instance? r = some i :=
        (Graph.instance?_of_get? get).trans (Node.instance?_of_reference body)
      have hmem : f old ∈ i.outputs := by
        rw [copied.outputs]
        exact List.mem_map_of_mem hout
      obtain ⟨port', hl'⟩ := leads_of_output (s := ⟨f old, port⟩) h hi hmem hl
      obtain ⟨b, hb, hlevel⟩ := ih n get port' t hl'
      have hin := rank_le_weight (r := r) h₀ body prototype node
      exact ⟨b, by omega, hlevel⟩
    · obtain ⟨t', hl', rfl⟩ := (copied.leads old m port t node hout).1 hl
      obtain ⟨m', hm', -⟩ := (h₀.drawn k p prototype).plugged _ _ hl'
      have hacyclic : Acyclic (Joint.Leads p.graph.joints) :=
        h₀.acyclic.templates _ (mem_templates prototype)
      have hrise : e₀.wiring.rank p.graph.joints old + e₀.wiring.weight (m.joint old) ≤
          e₀.wiring.rank p.graph.joints t'.node :=
        Wiring.rank_add_le hacyclic (Graph.joint_mem node)
          (Graph.joint_leads hl' node (Graph.joint_mem node))
      exact ⟨_, by omega, .inside level get body prototype copied hm'⟩

/-- What is handed to an instance goes up by one level at least. -/
theorem entry (ha : Aligned e₀ e) (h : Sound (.rest e))
    (hlevel : Level e₀ e r a) (hi : e.instance? r = some i) {placeholder : NodeId}
    (hplaceholder : placeholder ∈ i.inputs) {port : Nat}
    (hl : Graph.Leads e.graph ⟨placeholder, port⟩ t) :
    ∃ b, a + 1 ≤ b ∧ Level e₀ e t.node b := by
  obtain ⟨n, hn, hni⟩ := Graph.instance?_eq_some_iff.1 hi
  obtain ⟨k, hb⟩ := Node.reference_of_instance? hni
  obtain ⟨p, f, hp, hdrawn, hcopied⟩ := ha.copiedIn h hn hb
  rw [hcopied.inputs] at hplaceholder
  obtain ⟨old, hold, rfl⟩ := List.mem_map.1 hplaceholder
  obtain ⟨m, hm, -⟩ := hdrawn.sockets old (List.mem_append_left _ hold)
  have hout : old ∉ p.outputs := fun hout =>
    (List.nodup_append.1 hdrawn.distinct).2.2 old hold old hout rfl
  obtain ⟨t', hl', rfl⟩ := (hcopied.leads old m port t hm hout).1 hl
  obtain ⟨m', hm', -⟩ := hdrawn.plugged _ _ hl'
  exact ⟨_, Nat.le_add_right _ _, .inside hlevel hn hb hp hcopied hm'⟩

end Level

/-! ## Sending -/

theorem mem_pending_deliver {target : Socket} {s : Signal}
    (hx : x ∈ (e.deliver target s).pending) : x ∈ e.pending ∨ x = target.node := by
  unfold deliver at hx
  split at hx
  · exact .inl hx
  · dsimp only at hx
    split at hx
    · split at hx
      · exact (List.mem_append.1 hx).imp_right List.mem_singleton.1
      · exact .inl hx
    · exact .inl hx

theorem mem_pending_foldl_deliver {targets : List Socket} {s : Signal}
    (hx : x ∈ (targets.foldl (fun e target => e.deliver target s) e).pending) :
    x ∈ e.pending ∨ ∃ t ∈ targets, t.node = x := by
  induction targets generalizing e with
  | nil => exact .inl hx
  | cons target targets ih =>
    rcases ih hx with hx | ⟨t, ht, rfl⟩
    · exact (mem_pending_deliver hx).imp_right fun hx => ⟨target, List.mem_cons_self, hx.symm⟩
    · exact .inr ⟨t, List.mem_cons_of_mem target ht, rfl⟩

/-- What becomes pending when a signal goes out is where the output leads. -/
theorem mem_pending_emit {source : Socket} {s : Signal} (hx : x ∈ (e.emit source s).pending) :
    x ∈ e.pending ∨ ∃ t, Graph.Leads e.graph source t ∧ t.node = x := by
  unfold emit at hx
  split at hx
  · next fan hfan =>
    obtain ⟨n, hn, hfan⟩ := Option.bind_eq_some_iff.1 hfan
    refine (mem_pending_foldl_deliver hx).imp_right ?_
    rintro ⟨t, ht, rfl⟩
    exact ⟨t, ⟨n, fan, hn, hfan, ht⟩, rfl⟩
  · exact .inl hx

theorem leads_of_alike (hal : Graph.Alike e.graph e'.graph) {s : Socket}
    (hl : Graph.Leads e'.graph s t) : Graph.Leads e.graph s t := by
  obtain ⟨n', hn'⟩ := hl.live
  obtain ⟨n, hn, hnode⟩ := hal.row hn'
  exact (Graph.leads_congr hn hn' hnode.outputs).1 hl

theorem mem_pending_send (h : Sound (.rest e)) {out : List (Socket × Signal)}
    (hout : ∀ m ∈ out, ¬ e.Pooled m.1.node) (hx : x ∈ (e.send out).pending) :
    x ∈ e.pending ∨ ∃ m ∈ out, ∃ t, Graph.Leads e.graph m.1 t ∧ t.node = x := by
  induction out generalizing e with
  | nil => exact .inl hx
  | cons m out ih =>
    have hf := emit_feeds h (hout m List.mem_cons_self) m.2
    have hrest := ih hf.sound (fun y hy hp =>
      hout y (List.mem_cons_of_mem m hy) ((hf.pooled_iff _).1 hp)) hx
    rcases hrest with hx | ⟨y, hy, t, hl, rfl⟩
    · exact (mem_pending_emit hx).imp_right fun hl => ⟨m, List.mem_cons_self, hl⟩
    · exact .inr ⟨y, List.mem_cons_of_mem m hy, t, leads_of_alike hf.alike hl, rfl⟩

/-! ## Waves -/

/-- What is pending is at level `k` or above. -/
def Due (e₀ : Engine) (k : Nat) (e : Engine) : Prop :=
  ∀ x ∈ e.pending, ∃ a, k ≤ a ∧ Level e₀ e x a

/-- A node has fired: levels are as before, and it sends from its own outputs or from the inputs of
its instance. -/
structure Sends (e₀ e : Engine) (shot : Shot) (e₁ : Engine) (out : List (Socket × Signal)) :
    Prop where
  aligned : Aligned e₀ e₁
  level : ∀ x a, Level e₀ e x a → Level e₀ e₁ x a
  source : ∀ m ∈ out, m.1.node = shot.id ∨ ∃ i, e₁.instance? shot.id = some i ∧ m.1.node ∈ i.inputs

theorem discharge_sends (h₀ : Orderly e₀) (ha : Aligned e₀ e) (h : Sound (.rest e)) {shot : Shot}
    (hid : ¬ e.Pooled shot.id) {e₁ : Engine} {out : List (Socket × Signal)}
    (hd : e.discharge shot = some (e₁, out)) : Sends e₀ e shot e₁ out := by
  unfold discharge at hd
  cases hn : e.graph.get? shot.id with
  | none =>
    rw [hn] at hd
    cases hd
  | some n =>
    have htrace := traceFiring_feeds h shot.id n
    have hn' : (e.traceFiring shot.id n).graph.get? shot.id = some n := by
      rw [graph_traceFiring]
      exact hn
    have hid' : ¬ (e.traceFiring shot.id n).Pooled shot.id := fun hp =>
      hid ((htrace.pooled_iff shot.id).1 hp)
    have ha' := ha.feed h htrace.sound htrace.alike htrace.registry
    rw [hn] at hd
    dsimp only at hd
    cases hb : n.body with
    | native l =>
      rw [hb] at hd
      cases hd
      have hreact := reacted_feeds htrace.sound hn' hb hid'
        (l.sameKind_fire shot.inputs (e.traceFiring shot.id n).world)
      refine ⟨ha'.feed htrace.sound hreact.sound hreact.alike hreact.registry,
        fun x a hlevel => (hlevel.feed h₀ htrace.alike).feed h₀ hreact.alike, fun m hm => .inl ?_⟩
      obtain ⟨y, -, rfl⟩ := List.mem_map.1 hm
      rfl
    | reference key b =>
      rw [hb] at hd
      cases b with
      | some i =>
        cases hd
        exact ⟨ha', fun x a hlevel => hlevel.feed h₀ htrace.alike,
          fun m hm => .inr (mem_forwarded hm)⟩
      | none =>
        obtain ⟨e₂, hengage, hsound, -⟩ := engage_spec htrace.sound hn' hb hid'
        dsimp only at hd
        rw [hengage] at hd
        cases hd
        refine ⟨ha'.bind htrace.sound hsound hn' hb hid' hengage, fun x a hlevel => ?_,
          fun m hm => .inr (mem_forwarded hm)⟩
        exact (hlevel.feed h₀ htrace.alike).bind h₀ htrace.sound hsound hn' hb hid' hengage

/-- A node at level `k` or above makes nodes pending that are above level `k`. -/
theorem Sends.due {k : Nat} {shot : Shot} {e₁ : Engine} {out : List (Socket × Signal)}
    (h₀ : Orderly e₀) (hs : Sends e₀ e shot e₁ out) (hd : e.Discharges shot e₁ out)
    (hf : Feeds e₁ (e₁.send out)) (hk : k ≤ a) (hlevel : Level e₀ e shot.id a)
    (hdue : Due e₀ (k + 1) e) : Due e₀ (k + 1) (e₁.send out) := by
  intro x hx
  rcases mem_pending_send hd.sound hd.out hx with hx | ⟨m, hm, t, hl, rfl⟩
  · rw [hd.pending] at hx
    obtain ⟨b, hb, hx⟩ := hdue x hx
    exact ⟨b, hb, (hs.level x b hx).feed h₀ hf.alike⟩
  · have hshot := hs.level shot.id a hlevel
    obtain ⟨b, hb, ht⟩ : ∃ b, a + 1 ≤ b ∧ Level e₀ e₁ t.node b := by
      rcases hs.source m hm with hown | ⟨i, hi, hentry⟩
      · obtain ⟨n, hn, -⟩ := hd.takes
        have hl' : Graph.Leads e₁.graph ⟨shot.id, m.1.port⟩ t := by
          rw [← hown]
          exact hl
        obtain ⟨b, hb, ht⟩ := hshot.leads h₀ hs.aligned hd.sound n hn m.1.port t hl'
        have hweight := e₀.wiring.one_le_weight (n.joint shot.id)
        exact ⟨b, by omega, ht⟩
      · exact Level.entry hs.aligned hd.sound hshot hi hentry hl
    exact ⟨b, by omega, ht.feed h₀ hf.alike⟩

theorem due_fireAll {k : Nat} {shots : List Shot} (h₀ : Orderly e₀) (h : Sound (.rest e))
    (hshots : ∀ shot ∈ shots, ¬ e.Pooled shot.id ∧
      ∃ n, e.graph.get? shot.id = some n ∧ n.inputs.length = shot.inputs.length)
    (ha : Aligned e₀ e) (hlevels : ∀ shot ∈ shots, ∃ a, k ≤ a ∧ Level e₀ e shot.id a)
    (hdue : Due e₀ (k + 1) e) :
    Aligned e₀ (e.fireAll shots).2 ∧ Due e₀ (k + 1) (e.fireAll shots).2 := by
  revert ha hlevels hdue
  refine inTurn_induct (P := fun e shots => Aligned e₀ e →
    (∀ shot ∈ shots, ∃ a, k ≤ a ∧ Level e₀ e shot.id a) → Due e₀ (k + 1) e →
      Aligned e₀ (e.fireAll shots).2 ∧ Due e₀ (k + 1) (e.fireAll shots).2)
    (fun ha _ hdue => ⟨ha, hdue⟩) ?_ h hshots
  intro e shot e₁ out shots hsound hid hd hf ih ha hlevels hdue
  have hsends := discharge_sends h₀ ha hsound hid hd.discharge
  obtain ⟨a, hk, hlevel⟩ := hlevels shot List.mem_cons_self
  rw [hd.fireAll]
  refine ih (hsends.aligned.feed hd.sound hf.sound hf.alike hf.registry) (fun x hx => ?_)
    (hsends.due h₀ hd hf hk hlevel hdue)
  obtain ⟨b, hb, hx⟩ := hlevels x (List.mem_cons_of_mem shot hx)
  exact ⟨b, hb, (hsends.level x.id b hx).feed h₀ hf.alike⟩

/-- With each wave what is pending goes up by a level. -/
theorem due_swept {k : Nat} (h₀ : Orderly e₀) (h : Sound (.rest e)) (ha : Aligned e₀ e)
    (hdue : Due e₀ k e) : Aligned e₀ e.swept ∧ Due e₀ (k + 1) e.swept := by
  have hcollect := (collected_spec h).1
  have hwave := (wave_spec h).2.1
  have hcollected : Aligned e₀ e.collected := ha.feed h hcollect e.alike_collected rfl
  obtain ⟨hfired, hfiredDue⟩ : Aligned e₀ e.wave ∧ Due e₀ (k + 1) e.wave := by
    refine due_fireAll h₀ hcollect (fun shot hshot => live_of_mem_collect h hshot) hcollected
      (fun shot hshot => ?_) fun x hx => absurd hx List.not_mem_nil
    obtain ⟨a, hk, hlevel⟩ := hdue shot.id (id_mem_of_mem_collect hshot)
    exact ⟨a, hk, hlevel.feed h₀ e.alike_collected⟩
  have hsweep := (sweep_moves hwave).1.sound hwave
  refine ⟨(hfired.sweep hwave).feed hsweep (swept_sound h) (.refl _) rfl, fun x hx => ?_⟩
  have hx' : x ∈ e.wave.pending := by
    rw [← pending_sweep hwave]
    exact hx
  obtain ⟨a, hk, hlevel⟩ := hfiredDue x hx'
  obtain ⟨n, hn, hs⟩ := (mem_pending_iff hwave x).1 hx'
  exact ⟨a, hk, (hlevel.sweep h₀ hwave (.scheduled hn hs)).feed h₀ (.refl _)⟩

/-! ## Runs -/

/-- Above the extent of the wiring there is nothing. -/
theorem not_pending_of_due (h₀ : Orderly e₀) (h : Sound (.rest e)) (ha : Aligned e₀ e)
    (hdue : Due e₀ e₀.wiring.extent e) : e.hasPending = false := by
  have hnil : e.pending = [] := by
    refine List.eq_nil_iff_forall_not_mem.2 fun x hx => ?_
    obtain ⟨a, hk, hlevel⟩ := hdue x hx
    obtain ⟨n, hn, -⟩ := (mem_pending_iff h x).1 hx
    have hle := hlevel.add_weight_le h₀ ha n hn
    have hweight := e₀.wiring.one_le_weight (n.joint x)
    omega
  simp [hasPending, hnil]

theorem Due.mono {k k' : Nat} (h : Due e₀ k' e) (hk : k ≤ k') : Due e₀ k e := by
  intro x hx
  obtain ⟨a, ha, hlevel⟩ := h x hx
  exact ⟨a, hk.trans ha, hlevel⟩

theorem not_pending_steps {k steps : Nat} (h₀ : Orderly e₀) (h : Sound (.rest e))
    (ha : Aligned e₀ e) (hdue : Due e₀ k e) (hsteps : e₀.wiring.extent ≤ k + steps) :
    ((fun e => e.step.2)^[steps] e).hasPending = false := by
  induction steps generalizing e k with
  | zero => exact not_pending_of_due h₀ h ha (hdue.mono hsteps)
  | succ steps ih =>
    obtain ⟨ha', hdue'⟩ := due_swept h₀ h ha hdue
    rw [Function.iterate_succ_apply, step_eq h]
    exact ih (swept_sound h) ha' hdue' (by omega)

/-- A run without a limit is as many waves as are needed. -/
theorem idle_of_due {k taken budget : Nat} (h₀ : Orderly e₀) (h : Sound (.rest e))
    (ha : Aligned e₀ e) (hdue : Due e₀ k e) (hmax : e.settings.maxSteps = none)
    (hbudget : e₀.wiring.extent ≤ k + budget) :
    ∃ total, (runFrom taken budget e).1 = .idle total ∧
      total + k ≤ taken + max k e₀.wiring.extent := by
  induction budget generalizing e k taken with
  | zero =>
    have hidle := not_pending_of_due h₀ h ha (hdue.mono hbudget)
    refine ⟨taken, ?_, by omega⟩
    rw [runFrom, hidle]
    rfl
  | succ budget ih =>
    by_cases hp : e.hasPending = true
    · obtain ⟨ha', hdue'⟩ := due_swept h₀ h ha hdue
      have hlt : k < e₀.wiring.extent := by
        by_contra hge
        rw [not_pending_of_due h₀ h ha (hdue.mono (Nat.not_lt.1 hge))] at hp
        cases hp
      have hmax' := (congrArg Settings.maxSteps (settings_swept h)).trans hmax
      obtain ⟨total, hrun, hle⟩ : ∃ total, (runFrom (taken + 1) budget e.swept).1 = .idle total ∧
          total + (k + 1) ≤ taken + 1 + max (k + 1) e₀.wiring.extent :=
        ih (swept_sound h) ha' hdue' hmax' (by omega)
      refine ⟨total, ?_, by omega⟩
      rw [runFrom_of_step hp hmax (step_eq h)]
      exact hrun
    · refine ⟨taken, ?_, by omega⟩
      rw [runFrom, if_neg hp]

/-- Where nothing is bound, what is pending is visible. -/
theorem due_zero (h : Sound (.rest e)) (hun : ∀ id, e.instance? id = none) : Due e 0 e := by
  intro x hx
  have hs := (mem_pending_iff h x).1 hx
  obtain ⟨n, hn, -⟩ := id hs
  refine ⟨_, Nat.zero_le _, .visible ⟨n, hn, ?_⟩⟩
  cases hint : n.internal with
  | false => rfl
  | true =>
    have howner := h.owning.mem_of_internal ⟨n, hn, hint⟩
    obtain ⟨i, hi, hm⟩ := howner.resolve_left List.not_mem_nil
    rcases Work.mem_instances.1 hi with hi | ⟨r, hi⟩ | ⟨key, p, hp, hi⟩
    · cases hi
    · exact absurd ((hun r).symm.trans hi) (by simp)
    · exact absurd ⟨key, p, i, hp, hi, hm⟩ (not_pooled_of_scheduled h hs)

theorem unbound_of_watch (h : Sound (.rest e)) (hwatch : e.watch = []) (id : NodeId) :
    e.instance? id = none := by
  cases hi : e.instance? id with
  | none => rfl
  | some i =>
    have hmem : id ∈ e.watch := (h.watching.mem_iff id).2 ⟨i, hi⟩
    rw [hwatch] at hmem
    cases hmem

theorem drawn_faithful_after (settings : Settings) (console : Console) (commands : List Command) :
    ((fresh settings console).after commands).Drawn ∧
      ((fresh settings console).after commands).Faithful := by
  refine after_induct (P := fun e => e.Drawn ∧ e.Faithful) (fun h h' hc he => ?_) ⟨?_, ?_⟩ commands
  · exact ⟨hc.drawn h he.1, hc.faithful h h' he.1 he.2⟩
  · exact drawn_fresh settings console
  · intro k p i hp
    cases hp

/-- Where nothing is watched and the wiring has no circle, there is nothing left to do after as many
steps as the wiring extends, however they are made: one by one or by a run without a limit. -/
theorem idle_of_acyclic (settings : Settings) (console : Console) (commands : List Command)
    (hwatch : ((fresh settings console).after commands).watch = [])
    (hacyclic : ((fresh settings console).after commands).wiring.Acyclic) :
    let e := (fresh settings console).after commands
    (∀ steps, e.wiring.extent ≤ steps → ((fun e => e.step.2)^[steps] e).hasPending = false) ∧
      (e.settings.maxSteps = none → ∀ budget, e.wiring.extent ≤ budget →
        ∃ taken ≤ e.wiring.extent, (e.run budget).1 = .idle taken) := by
  intro e
  have h : Sound (.rest e) := (settled_after settings console commands).sound
  obtain ⟨hdrawn, hfaithful⟩ := drawn_faithful_after settings console commands
  have hun := unbound_of_watch h hwatch
  have h₀ : Orderly e := ⟨h, hdrawn, hacyclic⟩
  have ha : Aligned e e := aligned_self hdrawn hfaithful h hun
  have hdue : Due e 0 e := due_zero h hun
  constructor
  · intro steps hsteps
    exact not_pending_steps h₀ h ha hdue (by omega)
  · intro hmax budget hbudget
    obtain ⟨taken, hrun, hle⟩ : ∃ taken, (runFrom 0 budget e).1 = .idle taken ∧
        taken + 0 ≤ 0 + max 0 e.wiring.extent :=
      idle_of_due h₀ h ha hdue hmax (by omega)
    exact ⟨taken, by omega, hrun⟩

def doubleKey : Key := ⟨"User", "Double"⟩

def fourfoldKey : Key := ⟨"User", "Fourfold"⟩

def doubleCourse : Edit Unit :=
  .act (.add ⟨"Math", "Add"⟩) fun _ =>
  .act (.connect ⟨0, 0⟩ ⟨2, 0⟩) fun _ =>
  .act (.connect ⟨0, 0⟩ ⟨2, 1⟩) fun _ =>
  .act (.connect ⟨2, 0⟩ ⟨1, 0⟩) fun _ =>
  .finish ()

def fourfoldCourse : Edit Unit :=
  .act (.add doubleKey) fun _ =>
  .act (.add doubleKey) fun _ =>
  .act (.connect ⟨0, 0⟩ ⟨2, 0⟩) fun _ =>
  .act (.connect ⟨2, 0⟩ ⟨3, 0⟩) fun _ =>
  .act (.connect ⟨3, 0⟩ ⟨1, 0⟩) fun _ =>
  .finish ()

/-- A template with references to another, and a signal on its way in. -/
def fourfoldSession : List Command :=
  [.call (.register doubleKey 1 1 doubleCourse), .call (.register fourfoldKey 1 1 fourfoldCourse),
    .call (.create fourfoldKey), .call (.create ⟨"IO", "Print"⟩),
    .call (.connect ⟨0, 0⟩ ⟨1, 0⟩), .call (.pulse ⟨0, 0⟩ (.int 3))]

theorem fourfold_idle :
    let e := (fresh {} (.script {})).after fourfoldSession
    e.watch = [] ∧ e.wiring.Acyclic ∧ e.hasPending = true ∧
      ∀ budget, 12 ≤ budget → ∃ taken ≤ 12, (e.run budget).1 = .idle taken := by
  intro e
  obtain ⟨hwatch, hclimbs, hpending, hextent, hmax⟩ : e.watch = [] ∧
      e.wiring.Climbs (fun x => if x = 1 then 4 else x)
        (fun key => if key = doubleKey then 1 else 0) ∧
      e.hasPending = true ∧ e.wiring.extent = 12 ∧ e.settings.maxSteps = none := by
    decide +kernel
  have hidle := (idle_of_acyclic {} (.script {}) fourfoldSession hwatch hclimbs.acyclic).2 hmax
  rw [hextent] at hidle
  exact ⟨hwatch, hclimbs.acyclic, hpending, hidle⟩

end PulseFlow.Engine
