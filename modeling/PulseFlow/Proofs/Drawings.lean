import PulseFlow.Proofs.Changes

/-!
# Templates as they are drawn

What every template of a session satisfies besides being well made (`Drawn`): its placeholders are
distinct sockets, whatever leads somewhere in it leads to an input that is there, and nothing leads
out of the placeholder of an output.

A template changes by being declared and by actions on a draft, and in no other way
(`Change.template`), so this is kept by every change if it is kept by every action.

    (Prototype.declare key inputs outputs).Declared                  (declared_declare)
    p.Declared → p.Drawn                                             (Declared.drawn)
    d.prototype.Drawn → (d.perform r a).2.prototype.Drawn             (perform_drawn)
-/

namespace PulseFlow

/-! ## Where templates come from -/

theorem Moves.catalog {S : NodeId → Prop} {w w' : Work} (m : Moves S w w') :
    w'.engine.registry.catalog = w.engine.registry.catalog := by
  induction m with
  | refl => rfl
  | tail _ hm ih => cases hm <;> exact ih

namespace Engine

variable {e e' : Engine} {scope : Scope} {id : NodeId} {j k : Key} {p q : Prototype}

/-- Getting an instance takes it out of a pool at most. -/
theorem bare_acquire (h : p.key = k) (hp : e.prototype? k = some p) (j : Key) :
    ((e.acquire id p).2.prototype? j).map Prototype.bare = (e.prototype? j).map Prototype.bare := by
  unfold acquire
  split
  · next i pool hpool =>
    have hget : ((e.putPrototype { p with pool }).report (.reused i.id p.key)).prototype? j =
        if j = p.key then some { p with pool } else e.prototype? j := Table.get?_insert _ _ _ _
    rw [hget]
    split
    · next hj =>
      have hpj : e.prototype? j = some p := hj ▸ h ▸ hp
      rw [hpj]
      rfl
    · rfl
  · rfl

theorem registry_acquire (h : p.key = k) (hp : e.prototype? k = some p)
    (hq : (e.acquire id p).2.prototype? j = some q) :
    ∃ p', e.prototype? j = some p' ∧ q.bare = p'.bare := by
  have hbare : ((e.acquire id p).2.prototype? j).map Prototype.bare =
      (e.prototype? j).map Prototype.bare := bare_acquire h hp j
  rw [hq, Option.map_some, eq_comm, Option.map_eq_some_iff] at hbare
  obtain ⟨p', hp', hb⟩ := hbare
  exact ⟨p', hp', hb.symm⟩

theorem catalog_acquire (e : Engine) (id : NodeId) (p : Prototype) :
    (e.acquire id p).2.registry.catalog = e.registry.catalog := by
  unfold acquire
  split <;> rfl

/-- Binding a reference is getting an instance, leading its outputs on and handing it over. -/
theorem engage_eq {n : Node} (hn : e.graph.get? id = some n) (hb : n.body = .reference k none)
    (hp : e.prototype? k = some p) :
    e.engage id = .ok { (e.acquire id p).2 with
      graph := Graph.handOver
        (route (e.acquire id p).2.graph (e.acquire id p).1.outputs n.outputs) id
        (e.acquire id p).1
      watch := (e.acquire id p).2.watch ++ [id] } := by
  unfold engage
  rw [hn]
  dsimp only
  rw [hb]
  dsimp only
  rw [hp]
  rfl

/-- A reference stands for a prototype that is there. -/
theorem prototype?_of_reference (h : Sound (.rest e)) {n : Node} {b : Option Instance}
    (hn : e.graph.get? id = some n) (hb : n.body = .reference k b) :
    ∃ p, e.prototype? k = some p ∧ n.inputs.length = p.inputs.length ∧
      n.outputs.length = p.outputs.length := by
  have harity := h.registered id n hn k b hb
  obtain ⟨p, hp, hports⟩ := Option.map_eq_some_iff.1 harity
  simp only [Prod.mk.injEq] at hports
  exact ⟨p, hp, hports.1.symm, hports.2.symm⟩

/-- A template found after a change was there before but for its pool, or was declared, or comes
from one that was there by actions. -/
theorem Change.template (h : Sound (.rest e)) (hc : Change scope e e')
    (hq : e'.prototype? k = some q) :
    (∃ p, e.prototype? k = some p ∧ q.bare = p.bare) ∨
      (∃ inputs outputs, e.registry.contains k = false ∧ q = Prototype.declare k inputs outputs) ∨
      ∃ p heap d, e.prototype? k = some p ∧ Draft.Steps scope.drawing e.registry ⟨p, heap⟩ d ∧
        q = { d.prototype with revision := p.revision + 1, pool := [] } := by
  have hsame : e'.registry.prototypes = e.registry.prototypes →
      ∃ p, e.prototype? k = some p ∧ q.bare = p.bare := by
    intro hr
    rw [prototype?, hr] at hq
    exact ⟨q, hq, rfl⟩
  cases hc with
  | feed _ _ registry => exact .inl (hsame (registry ▸ rfl))
  | file _ _ registry => exact .inl (hsame (registry ▸ rfl))
  | bind _ get body _ engaged =>
    obtain ⟨p, hp, -⟩ := prototype?_of_reference h get body
    rw [engage_eq get body hp] at engaged
    cases engaged
    exact .inl (registry_acquire (h.named _ p hp) hp hq)
  | tear moves _ => exact .inl (moves.prototype hq)
  | place _ _ _ registry => exact .inl (hsame (registry ▸ rfl))
  | relead _ _ _ _ _ registry => exact .inl (hsame (registry ▸ rfl))
  | erase _ _ _ _ registry => exact .inl (hsame (registry ▸ rfl))
  | @declare key inputs outputs fresh _ registry =>
    have hget : e'.prototype? k =
        if k = key then some (Prototype.declare key inputs outputs) else e.prototype? k := by
      rw [prototype?, registry]
      exact Table.get?_insert _ _ _ _
    rw [hget] at hq
    split at hq
    · next hk =>
      cases hq
      subst hk
      exact .inr (.inl ⟨inputs, outputs, fresh, rfl⟩)
    · exact .inl ⟨q, hq, rfl⟩
  | @replace key p r _ get keyed template _ _ registry =>
    have hget : e'.prototype? k = if k = r.key then some r else e.prototype? k := by
      rw [prototype?, registry]
      exact Table.get?_insert _ _ _ _
    rw [hget] at hq
    split at hq
    · next hk =>
      cases hq
      have hp : e.prototype? k = some p := by rw [hk, keyed]; exact get
      rcases template with rfl | ⟨heap, d, steps, rfl⟩
      · exact .inl ⟨p, hp, rfl⟩
      · exact .inr (.inr ⟨p, heap, d, hp, steps, rfl⟩)
    · exact .inl ⟨q, hq, rfl⟩

end Engine

/-! ## Drawn templates -/

/-- A template as it can be drawn. -/
structure Prototype.Drawn (p : Prototype) : Prop where
  plugged : Graph.Plugged p.graph
  ends : ∀ source target, Graph.Leads p.graph source target → source.node ∉ p.outputs
  distinct : (p.inputs ++ p.outputs).Nodup
  sockets : ∀ b ∈ p.inputs ++ p.outputs, ∃ n, p.graph.get? b = some n ∧
    n.body = .native .socket ∧ n.inputs.length = 1 ∧ n.outputs.length = 1

namespace Prototype.Drawn

variable {p q : Prototype}

/-- Being drawn depends on the template and the placeholders only. -/
theorem congr (h : p.Drawn) (hg : q.graph = p.graph) (hi : q.inputs = p.inputs)
    (ho : q.outputs = p.outputs) : q.Drawn := by
  obtain ⟨h₁, h₂, h₃, h₄⟩ := h
  rw [← hg] at h₁ h₂ h₄
  rw [← hi] at h₃ h₄
  rw [← ho] at h₂ h₃ h₄
  exact ⟨h₁, h₂, h₃, h₄⟩

theorem of_bare (h : p.Drawn) (hb : q.bare = p.bare) : q.Drawn := by
  have hg : q.bare.graph = p.bare.graph := by rw [hb]
  have hi : q.bare.inputs = p.bare.inputs := by rw [hb]
  have ho : q.bare.outputs = p.bare.outputs := by rw [hb]
  exact h.congr hg hi ho

/-- Another template with the same placeholders. -/
theorem redraw (h : p.Drawn) (hi : q.inputs = p.inputs) (ho : q.outputs = p.outputs)
    (hrow : ∀ b ∈ p.inputs ++ p.outputs, ∀ n, p.graph.get? b = some n →
      ∃ n', q.graph.get? b = some n' ∧ n'.body = n.body ∧ n'.inputs = n.inputs ∧
        n'.outputs.length = n.outputs.length)
    (hleads : ∀ s t, Graph.Leads q.graph s t → s.node ∉ p.outputs ∧ Graph.HasInput q.graph t) :
    q.Drawn where
  plugged := fun s t hl => (hleads s t hl).2
  ends := by
    intro s t hl
    rw [ho]
    exact (hleads s t hl).1
  distinct := by
    rw [hi, ho]
    exact h.distinct
  sockets := by
    rw [hi, ho]
    intro b hb
    obtain ⟨n, hn, hbody, hin, hout⟩ := h.sockets b hb
    obtain ⟨n', hn', hbody', hin', hout'⟩ := hrow b hb n hn
    exact ⟨n', hn', hbody'.trans hbody, by rw [hin', hin], hout'.trans hout⟩

end Prototype.Drawn

theorem Prototype.length_addPlaceholders (g : Graph) (n : Nat) :
    (addPlaceholders g n).1.length = n := by
  induction n generalizing g with
  | zero => rfl
  | succ n ih => rw [addPlaceholders, List.length_cons, ih]

/-- Placeholders get the next numbers in order. -/
theorem Prototype.addPlaceholders_packed {g : Graph} (h : g.vacant = []) (n : Nat) :
    (addPlaceholders g n).1 = List.range' g.cells.size n ∧
      (addPlaceholders g n).2.vacant = [] ∧
      (addPlaceholders g n).2.cells.size = g.cells.size + n := by
  induction n generalizing g with
  | zero => exact ⟨rfl, h, rfl⟩
  | succ n ih =>
    rw [addPlaceholders, Slots.add_of_packed h]
    obtain ⟨hids, hvacant, hsize⟩ :=
      ih (g := { g with cells := g.cells.push (some (Node.native .socket)) }) h
    rw [Array.size_push] at hids hsize
    refine ⟨?_, hvacant, hsize.trans (by omega)⟩
    rw [List.range'_succ]
    exact congrArg (g.cells.size :: ·) hids

/-- A template that has only its placeholders. -/
structure Prototype.Declared (p : Prototype) : Prop where
  tidy : p.graph.Tidy
  packed : p.graph.vacant = []
  order : p.inputs ++ p.outputs = List.range p.graph.cells.size
  distinct : (p.inputs ++ p.outputs).Nodup
  node : ∀ id n, p.graph.get? id = some n ↔ id ∈ p.inputs ++ p.outputs ∧ n = Node.native .socket

theorem Prototype.declared_declare (key : Key) (inputs outputs : Nat) :
    (Prototype.declare key inputs outputs).Declared := by
  unfold declare
  obtain ⟨hins, hv₁, hs₁⟩ := addPlaceholders_packed (g := Graph.empty) rfl inputs
  obtain ⟨houts, hv₂, hs₂⟩ := addPlaceholders_packed hv₁ outputs
  have horder : (addPlaceholders Graph.empty inputs).1 ++
      (addPlaceholders (addPlaceholders Graph.empty inputs).2 outputs).1 =
        List.range (addPlaceholders (addPlaceholders Graph.empty inputs).2 outputs).2.cells.size := by
    have hempty : Graph.empty.cells.size = 0 := rfl
    rw [hins, houts, hs₂, hs₁, hempty, Nat.zero_add, List.range_eq_range', ← List.range'_append_1,
      Nat.zero_add]
  clear hins houts hv₁ hs₁ hs₂
  have h₁ := addPlaceholders_placed (Slots.tidy_empty (α := Node)) inputs
  change Placed Graph.empty (addPlaceholders Graph.empty inputs).1
    (addPlaceholders Graph.empty inputs).2 at h₁
  generalize addPlaceholders Graph.empty inputs = first at h₁ horder hv₂ ⊢
  obtain ⟨ins, g₁⟩ := first
  have h₂ := addPlaceholders_placed h₁.tidy outputs
  dsimp only at h₁ h₂ horder hv₂ ⊢
  generalize addPlaceholders g₁ outputs = second at h₂ horder hv₂ ⊢
  obtain ⟨outs, g₂⟩ := second
  dsimp only at h₂ horder hv₂ ⊢
  refine ⟨h₂.tidy, hv₂, horder, List.nodup_append.2 ⟨h₁.nodup, h₂.nodup, fun a ha b hb hab => ?_⟩,
    fun id n => ?_⟩
  · subst hab
    have hnone := h₂.fresh a hb
    rw [h₁.placed a ha] at hnone
    cases hnone
  · rw [List.mem_append]
    constructor
    · intro hn
      rcases h₂.row id n hn with hn | ⟨hid, hn⟩
      · rcases h₁.row id n hn with hn | ⟨hid, hn⟩
        · rw [show (Graph.empty : Graph).get? id = none from Slots.get?_empty id] at hn
          cases hn
        · exact ⟨.inl hid, hn⟩
      · exact ⟨.inr hid, hn⟩
    · rintro ⟨hid | hid, rfl⟩
      · exact h₂.keep id _ (h₁.placed id hid)
      · exact h₂.placed id hid

theorem Prototype.Declared.not_leads {p : Prototype} (h : p.Declared) {s t : Socket} :
    ¬ Graph.Leads p.graph s t := by
  intro hl
  obtain ⟨n, hn⟩ := hl.live
  refine hl.node (P := fun _ => False) hn ?_
  rw [((h.node s.node n).1 hn).2]
  exact Node.leadsTo_make _ _ _ _ _

theorem Prototype.Declared.drawn {p : Prototype} (h : p.Declared) : p.Drawn where
  plugged := fun _ _ hl => (h.not_leads hl).elim
  ends := fun _ _ hl => (h.not_leads hl).elim
  distinct := h.distinct
  sockets := fun b hb => ⟨_, (h.node b _).2 ⟨hb, rfl⟩, rfl, rfl, rfl⟩

/-! ## Actions on a draft -/

namespace Draft

variable {r : Registry} {d d' : Draft}

theorem addNode_drawn (htidy : d.prototype.graph.Tidy) (h : d.prototype.Drawn) {n : Node}
    (hn : n.LeadsTo fun _ => False) : (d.addNode n).2.prototype.Drawn := by
  refine h.redraw rfl rfl (fun b _ m hb => ?_) fun s t hl => ?_
  · exact ⟨m, Slots.get?_add_of_some htidy n hb, rfl, rfl, rfl⟩
  · have hl' := (Graph.leads_add htidy hn).1 hl
    exact ⟨h.ends s t hl', (h.plugged s t hl').add htidy n⟩

/-- A node keeps all but its connections where the fan of one output is changed. -/
theorem row_modifyFan {g : Graph} {source : Socket} {change : Fan → Fan} {b : NodeId} {n : Node}
    (hn : g.get? b = some n) :
    ∃ n', (g.modify source.node fun m => m.modifyFan source.port change).get? b = some n' ∧
      n'.body = n.body ∧ n'.inputs = n.inputs ∧ n'.outputs.length = n.outputs.length := by
  rw [Slots.get?_modify, hn]
  split
  · exact ⟨_, rfl, rfl, rfl, by simp⟩
  · exact ⟨n, rfl, rfl, rfl, rfl⟩

theorem connect_drawn (h : d.prototype.Drawn) {source target : Socket}
    (hc : d.connect source target = .ok d') : d'.prototype.Drawn := by
  unfold connect at hc
  by_cases hs : d.prototype.outputs.contains source.node = true
  · rw [if_pos hs] at hc
    cases hc
  · rw [if_neg hs] at hc
    obtain ⟨g, hg, hc⟩ := ok_of_bind hc
    cases hc
    have hsource : source.node ∉ d.prototype.outputs := by simpa using hs
    have hin : ∀ t, Graph.HasInput d.prototype.graph t → Graph.HasInput g t := by
      intro t ht
      rw [Engine.graph_connect_ok hg]
      exact (Graph.hasInput_modifyFan source.port).2 ht
    refine h.redraw rfl rfl (fun b _ n hn => ?_) fun s t hl => ?_
    · show ∃ n', g.get? b = some n' ∧ _
      rw [Engine.graph_connect_ok hg]
      exact row_modifyFan hn
    · rcases (Graph.leads_connect hg).1 hl with hl | ⟨rfl, rfl⟩
      · exact ⟨h.ends s t hl, hin t (h.plugged s t hl)⟩
      · exact ⟨hsource, hin t (Graph.connect_spec hg).2⟩

theorem disconnect_drawn (h : d.prototype.Drawn) {source : Socket}
    (hc : d.disconnect source = .ok d') : d'.prototype.Drawn := by
  unfold disconnect at hc
  obtain ⟨g, hg, hc⟩ := ok_of_bind hc
  cases hc
  refine h.redraw rfl rfl (fun b _ n hn => ?_) fun s t hl => ?_
  · show ∃ n', g.get? b = some n' ∧ _
    rw [Engine.graph_disconnect_ok hg]
    exact row_modifyFan hn
  · change Graph.Leads g s t at hl
    change _ ∧ Graph.HasInput g t
    rw [Engine.graph_disconnect_ok hg] at hl ⊢
    rw [Graph.hasInput_modifyFan]
    by_cases hs : s = source
    · subst hs
      obtain ⟨n, f, -, -, ht⟩ := Graph.leads_modifyFan_self.1 hl
      exact absurd ht (SortedSet.not_mem_empty t)
    · have hl' := (Graph.leads_modifyFan_of_ne hs).1 hl
      exact ⟨h.ends s t hl', h.plugged s t hl'⟩

theorem remove_drawn (h : d.prototype.Drawn) {id : NodeId} (hc : d.remove id = .ok d') :
    d'.prototype.Drawn := by
  unfold remove at hc
  by_cases hb : d.prototype.isBoundary id = true
  · rw [if_pos hb] at hc
    cases hc
  · rw [if_neg hb] at hc
    have hinner : id ∉ d.prototype.inputs ++ d.prototype.outputs := by
      simpa [Prototype.isBoundary] using hb
    obtain ⟨g, hg, hc⟩ := ok_of_bind hc
    cases hc
    refine h.redraw rfl rfl (fun b hb n hn => ?_) fun s t hl => ?_
    · exact Graph.live_bypass hg (fun he => hinner (he ▸ hb)) hn
    · obtain ⟨-, ht, hl⟩ := (Graph.leads_bypass hg).1 hl
      have hold : s.node ∉ d.prototype.outputs ∧ Graph.HasInput d.prototype.graph t := by
        rcases hl with hl | ⟨port, hin, hout⟩
        · exact ⟨h.ends s t hl, h.plugged s t hl⟩
        · exact ⟨h.ends s _ hin, h.plugged _ t hout⟩
      obtain ⟨hs, n, hn, hp⟩ := hold
      obtain ⟨n', hn', -, hin, -⟩ := Graph.live_bypass hg ht hn
      exact ⟨hs, n', hn', hin ▸ hp⟩

theorem perform_drawn (r : Registry) (htidy : d.prototype.graph.Tidy) (h : d.prototype.Drawn)
    (a : Action) : (d.perform r a).2.prototype.Drawn := by
  have hsettle := settle_induct (fun d' => d'.prototype.Drawn) h
  cases a with
  | input port | output port | allocate items | targets source => exact h
  | add key =>
    rw [perform]
    cases ha : d.add r key with
    | error err => exact h
    | ok made =>
      obtain ⟨⟨n, heap⟩, hn, ha⟩ := ok_of_bind ha
      cases ha
      exact addNode_drawn (d := { d with heap }) htidy h (Registry.fresh_makeNode hn).leads
  | addLogic l => exact addNode_drawn htidy h (Node.leadsTo_make _ _ _ _ _)
  | connect source target => exact hsettle _ fun _ => connect_drawn h
  | disconnect source => exact hsettle _ fun _ => disconnect_drawn h
  | remove id => exact hsettle _ fun _ => remove_drawn h
  | place id spot =>
    refine hsettle _ fun d' hd' => ?_
    obtain ⟨_, -, hd'⟩ := ok_of_bind hd'
    cases hd'
    exact h.congr rfl rfl rfl
  | setCanvas canvas => exact h.congr rfl rfl rfl

theorem Steps.drawn {ok : Action → Prop} (hs : Steps ok r d d')
    (hm : d.prototype.WellMade r.prototypes) (h : d.prototype.Drawn) : d'.prototype.Drawn :=
  (hs.induct (P := fun d => d.prototype.WellMade r.prototypes ∧ d.prototype.Drawn)
    (fun _ a _ hd => ⟨(perform_redraws hd.1 a).made, perform_drawn r hd.1.tidy hd.2 a⟩) ⟨hm, h⟩).2

end Draft

/-! ## All templates of an engine -/

namespace Engine

variable {e e' : Engine} {scope : Scope}

/-- All templates are drawn. -/
def Drawn (e : Engine) : Prop := ∀ k p, e.prototype? k = some p → p.Drawn

theorem drawn_fresh (settings : Settings) (console : Console) : (fresh settings console).Drawn := by
  intro k p hp
  cases hp

theorem Change.drawn (h : Sound (.rest e)) (hc : Change scope e e') (hd : e.Drawn) : e'.Drawn := by
  intro k q hq
  rcases hc.template h hq with ⟨p, hp, hb⟩ | ⟨inputs, outputs, -, rfl⟩ | ⟨p, heap, d, hp, hs, rfl⟩
  · exact (hd k p hp).of_bare hb
  · exact (Prototype.declared_declare k inputs outputs).drawn
  · exact (hs.drawn (h.templates k p hp) (hd k p hp)).congr rfl rfl rfl

end Engine

end PulseFlow
