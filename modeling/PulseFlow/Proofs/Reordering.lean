import PulseFlow.Proofs.Admission
import PulseFlow.Proofs.Blocks

/-!
# The order of the prototypes in a document

All prototypes of a document are declared before the first template is filled, and filling one
looks at nothing but the numbers of inputs and outputs that keys stand for.  So the order in which
the prototypes stand in the document does not matter: it decides neither whether the document is
taken in nor what the templates are.

Only the blocks of arrays that are made on the way follow the order of the document.  A block begins
where the one before it ends (`places`), and another order exchanges blocks (`places_perm`).  Since
arrays are told apart by nothing but their contents, one permutation of places that leaves all older
arrays alone takes the arrays and the templates of one load to those of the other.

    ts ~ ts' → ∃ σ, every block of `ts` is moved by `σ` to its place in `ts'`     (places_perm)
    Fills r h xs h₁ → Fills r h ys h₂ → xs ~ ys → ∃ σ, h₁ and h₂ are rearranged   (fills_perm)
    p ~ p' → (p is taken in ↔ p' is) ∧ the engines are equal up to `σ`            (reordered_after)
-/

namespace PulseFlow

open Document

/-! ## Blocks in another order -/

/-- Exchanges two neighbouring blocks of `m` and `n` places, the first of which begins at `o`. -/
def exchange (o m n a : Nat) : Nat :=
  if a < o then a
  else if a < o + m then a + n
  else if a < o + m + n then a - m
  else a

theorem exchange_exchange (o m n a : Nat) : exchange o n m (exchange o m n a) = a := by
  unfold exchange
  split_ifs <;> omega

def blockSwap (o m n : Nat) : Equiv.Perm Nat where
  toFun := exchange o m n
  invFun := exchange o n m
  left_inv := exchange_exchange o m n
  right_inv := exchange_exchange o n m

theorem blockSwap_apply (o m n a : Nat) : blockSwap o m n a = exchange o m n a := rfl

section

variable {size : Template → Nat} {ts ts' : List Template} {o : Nat}

/-- Takes blocks that begin at `o` to their places in another order, and moves nothing else. -/
structure Rearranges (size : Template → Nat) (o : Nat) (ts ts' : List Template)
    (σ : Equiv.Perm Nat) : Prop where
  below : ∀ a < o, σ a = a
  beyond : ∀ a, o + (ts.map size).sum ≤ a → σ a = a
  block : ∀ q ∈ places size o ts, ∃ o', (q.1, o') ∈ places size o ts' ∧
    ∀ j < size q.1, σ (q.2 + j) = o' + j

theorem Rearranges.refl (size : Template → Nat) (o : Nat) (ts : List Template) :
    Rearranges size o ts ts (Equiv.refl Nat) :=
  ⟨fun _ _ => rfl, fun _ _ => rfl, fun q hq => ⟨q.2, hq, fun _ _ => rfl⟩⟩

theorem Rearranges.cons {σ : Equiv.Perm Nat} {t : Template}
    (h : Rearranges size (o + size t) ts ts' σ) : Rearranges size o (t :: ts) (t :: ts') σ where
  below a ha := h.below a (by omega)
  beyond a ha := by
    rw [List.map_cons, List.sum_cons] at ha
    exact h.beyond a (by omega)
  block q hq := by
    rcases List.mem_cons.1 hq with rfl | hq
    · exact ⟨o, List.mem_cons_self, fun j hj => h.below _ (Nat.add_lt_add_left hj o)⟩
    · obtain ⟨o', ho', hblock⟩ := h.block q hq
      exact ⟨o', List.mem_cons_of_mem _ ho', hblock⟩

theorem Rearranges.swap (size : Template → Nat) (o : Nat) (s t : Template) (ts : List Template) :
    Rearranges size o (s :: t :: ts) (t :: s :: ts) (blockSwap o (size s) (size t)) := by
  have hplace : ∀ q ∈ places size (o + size s + size t) ts, o + size s + size t ≤ q.2 :=
    fun q hq => le_of_mem_places hq
  refine ⟨fun a ha => ?_, fun a ha => ?_, fun q hq => ?_⟩
  · rw [blockSwap_apply, exchange, if_pos ha]
  · simp only [List.map_cons, List.sum_cons] at ha
    rw [blockSwap_apply, exchange]
    split_ifs <;> omega
  · simp only [places, List.mem_cons] at hq ⊢
    rcases hq with rfl | rfl | hq
    · refine ⟨o + size t, .inr (.inl rfl), fun j hj => ?_⟩
      dsimp only at hj ⊢
      rw [blockSwap_apply, exchange]
      split_ifs <;> omega
    · refine ⟨o, .inl rfl, fun j hj => ?_⟩
      dsimp only at hj ⊢
      rw [blockSwap_apply, exchange]
      split_ifs <;> omega
    · have hle := hplace q hq
      refine ⟨q.2, .inr (.inr ?_), fun j _ => ?_⟩
      · rwa [Nat.add_right_comm]
      · rw [blockSwap_apply, exchange]
        split_ifs <;> omega

theorem Rearranges.trans {ts'' : List Template} {σ τ : Equiv.Perm Nat}
    (h : Rearranges size o ts ts' σ) (h' : Rearranges size o ts' ts'' τ) (hp : ts.Perm ts') :
    Rearranges size o ts ts'' (σ.trans τ) := by
  have hsum : (ts.map size).sum = (ts'.map size).sum := (hp.map size).sum_eq
  refine ⟨fun a ha => ?_, fun a ha => ?_, fun q hq => ?_⟩
  · rw [Equiv.trans_apply, h.below a ha, h'.below a ha]
  · rw [Equiv.trans_apply, h.beyond a ha, h'.beyond a (hsum ▸ ha)]
  · obtain ⟨o', ho', hblock⟩ := h.block q hq
    obtain ⟨o'', ho'', hblock'⟩ := h'.block _ ho'
    refine ⟨o'', ho'', fun j hj => ?_⟩
    rw [Equiv.trans_apply, hblock j hj, hblock' j hj]

/-- Blocks can be brought into any order. -/
theorem places_perm (size : Template → Nat) (hp : ts.Perm ts') (o : Nat) :
    ∃ σ, Rearranges size o ts ts' σ := by
  induction hp generalizing o with
  | nil => exact ⟨_, .refl size o []⟩
  | cons t _ ih =>
    obtain ⟨σ, hσ⟩ := ih (o + size t)
    exact ⟨σ, hσ.cons⟩
  | swap s t ts => exact ⟨_, .swap size o t s ts⟩
  | trans hp _ ih ih' =>
    obtain ⟨σ, hσ⟩ := ih o
    obtain ⟨τ, hτ⟩ := ih' o
    exact ⟨σ.trans τ, hσ.trans hτ hp⟩

/-- Every new place is in a block. -/
theorem exists_block {a : Nat} (ho : o ≤ a) (ha : a < o + (ts.map size).sum) :
    ∃ q ∈ places size o ts, ∃ j < size q.1, a = q.2 + j := by
  induction ts generalizing o with
  | nil =>
    simp only [List.map_nil, List.sum_nil] at ha
    omega
  | cons t ts ih =>
    rw [List.map_cons, List.sum_cons] at ha
    by_cases hlt : a < o + size t
    · exact ⟨(t, o), List.mem_cons_self, a - o, by dsimp only; omega, by dsimp only; omega⟩
    · obtain ⟨q, hq, hj⟩ := ih (Nat.le_of_not_lt hlt) (by omega)
      exact ⟨q, List.mem_cons_of_mem _ hq, hj⟩

end

theorem Fills.heap_eq {r : Registry} {h h' : Heap} {xs : List (Template × Draft)}
    (hcat : Draft.Holds r.catalog fun _ => False) (hf : Fills r h xs h') : h' = h := by
  induction hf with
  | nil => rfl
  | cons first _ ih => exact ih.trans (Template.heap_load hcat _ first)

/-- Two heaps that grew out of one by the same arrays, at places that `σ` exchanges. -/
structure Heap.Exchanged (h₀ : Heap) (σ : Equiv.Perm ArrayId) (h₁ h₂ : Heap) : Prop where
  size : h₂.size = h₁.size
  old : ∀ a < h₀.size, σ a = a ∧ h₂.items a = h₁.items a
  beyond : ∀ a, h₁.size ≤ a → σ a = a
  new : ∀ a, h₀.size ≤ a → h₂.items (σ a) = (h₁.items a).map (Signal.renameArrays σ)

/-- Templates that are loaded in another order are the same, over exchanged blocks. -/
theorem fills_perm {r : Registry} {h₀ h₁ h₂ : Heap} {S : ArrayId → Prop}
    {xs ys : List (Template × Draft)} (hc : h₀.Closed S) (hcat : Draft.Holds r.catalog S)
    (hx : Fills r h₀ xs h₁) (hy : Fills r h₀ ys h₂)
    (hp : (xs.map Prod.fst).Perm (ys.map Prod.fst)) :
    ∃ σ, h₀.Exchanged σ h₁ h₂ ∧ ∀ x ∈ xs, ∃ y ∈ ys, y.1 = x.1 ∧
      y.2.prototype = x.2.prototype.renameArrays σ := by
  obtain ⟨hsize₁, hsettles₁⟩ := hx.settles hc hcat (.refl h₀)
  obtain ⟨hsize₂, hsettles₂⟩ := hy.settles hc hcat (.refl h₀)
  have hsum := (hp.map (Template.extent r h₀)).sum_eq
  obtain ⟨σ, hσ⟩ := places_perm (Template.extent r h₀) hp h₀.size
  -- a place in the block of a template alone, or an older one
  have hmove : ∀ (q : Template × Nat) o', (∀ j < q.1.extent r h₀, σ (q.2 + j) = o' + j) →
      ∀ a < h₀.size + q.1.extent r h₀, σ (shift h₀.size q.2 a) = shift h₀.size o' a := by
    intro q o' hblock a ha
    by_cases hlt : a < h₀.size
    · rw [shift_of_lt hlt, shift_of_lt hlt, hσ.below a hlt]
    · obtain ⟨j, rfl⟩ := Nat.exists_eq_add_of_le (Nat.le_of_not_lt hlt)
      rw [shift_add, shift_add, hblock j (Nat.lt_of_add_lt_add_left ha)]
  refine ⟨σ, ⟨?_, fun a ha => ⟨hσ.below a ha, ?_⟩, ?_, fun a ha => ?_⟩, fun x hxs => ?_⟩
  · rw [hsize₁, hsize₂, hsum]
  · rw [(hx.grows hc hcat (.refl h₀)).items_eq ha, (hy.grows hc hcat (.refl h₀)).items_eq ha]
  · rw [hsize₁]
    exact hσ.beyond
  · by_cases hlt : a < h₁.size
    · rw [hsize₁] at hlt
      obtain ⟨q, hq, j, hj, rfl⟩ := exists_block ha hlt
      obtain ⟨o', ho', hblock⟩ := hσ.block q hq
      obtain ⟨x, -, hx⟩ := exists_mem_of_forall₂_right hsettles₁ hq
      obtain ⟨y, -, hy⟩ := exists_mem_of_forall₂_right hsettles₂ ho'
      rw [hblock j hj, hx.items j hj, hy.items j hj, List.map_map]
      refine List.map_congr_left fun s hs => ?_
      cases s with
      | array b =>
        have hb := hx.inner _ b (Nat.le_add_right _ _) hs
        exact congrArg Signal.array (hmove q o' hblock b hb).symm
      | _ => rfl
    · have hle := Nat.le_of_not_lt hlt
      have hle₂ : h₂.size ≤ a := by rwa [hsize₂, ← hsum, ← hsize₁]
      rw [hσ.beyond a (hsize₁ ▸ hle), Heap.items_of_le hle₂, Heap.items_of_le hle, List.map_nil]
  · obtain ⟨q, hq, hx⟩ := exists_mem_of_forall₂ hsettles₁ hxs
    obtain ⟨o', ho', hblock⟩ := hσ.block q hq
    obtain ⟨y, hys, hy⟩ := exists_mem_of_forall₂_right hsettles₂ ho'
    refine ⟨y, hys, hy.template.trans hx.template.symm, ?_⟩
    rw [hx.prototype, hy.prototype, Prototype.renameArrays_comp]
    exact Prototype.renameArrays_congr fun a ha => (hmove q o' hblock a (hx.names a ha)).symm

/-! ## Documents in another order -/

namespace Document.Project

variable {p p' : Project}

/-- Keys stand for the same in whatever order the prototypes are. -/
theorem arity?_perm (hp : p.prototypes.Perm p'.prototypes)
    (hkeys : (p.prototypes.map Template.key).Nodup) (r : Registry) : p.arity? r = p'.arity? r := by
  have hfind : ∀ k, p.prototypes.find? (fun t => t.key == k) =
      p'.prototypes.find? fun t => t.key == k := by
    intro k
    have hkeys' : (p'.prototypes.map Template.key).Nodup := (hp.map _).nodup_iff.1 hkeys
    cases hf : p.prototypes.find? fun t => t.key == k with
    | none =>
      refine (List.find?_eq_none.2 fun t ht => ?_).symm
      exact List.find?_eq_none.1 hf t (hp.mem_iff.2 ht)
    | some t =>
      have ht := List.mem_of_find?_eq_some hf
      have hk : t.key = k := by simpa using List.find?_some hf
      cases hf' : p'.prototypes.find? fun t => t.key == k with
      | none =>
        have hnot := List.find?_eq_none.1 hf' t (hp.mem_iff.1 ht)
        simp [hk] at hnot
      | some s =>
        have hs := List.mem_of_find?_eq_some hf'
        have hk' : s.key = k := by simpa using List.find?_some hf'
        rw [List.inj_on_of_nodup_map hkeys' (hp.mem_iff.1 ht) hs (hk.trans hk'.symm)]
  funext k
  rw [arity?, arity?, hfind]

theorem WellFormed.perm {r : Registry} (h : p.WellFormed r) (hp : p.prototypes.Perm p'.prototypes) :
    p'.WellFormed r := by
  refine ⟨(hp.map _).nodup_iff.1 h.distinct, fun t ht => h.fresh t (hp.mem_iff.2 ht), ?_⟩
  rw [← arity?_perm hp h.distinct]
  exact fun t ht => h.templates t (hp.mem_iff.2 ht)

end Document.Project

theorem Registry.eq_of {r r' : Registry} (hcatalog : r.catalog = r'.catalog)
    (hprototypes : r.prototypes = r'.prototypes) : r = r' := by
  cases r
  cases r'
  cases hcatalog
  cases hprototypes
  rfl

namespace Engine

variable {e e' : Engine} {ts : List Template} {p p' : Project}

/-- What is declared does not depend on the order. -/
theorem Outlines.registry_perm {e₁ e₂ : Engine} {ts ts' : List Template} (h₁ : Outlines ts e e₁)
    (h₂ : Outlines ts' e e₂) (hp : ts.Perm ts') : e₂.registry = e₁.registry := by
  have hkey : ∀ k, k ∈ ts.map Template.key ↔ k ∈ ts'.map Template.key := fun k =>
    (hp.map Template.key).mem_iff
  have htable : e₂.registry.prototypes = e₁.registry.prototypes := by
    refine Table.ext_get? fun k => ?_
    show e₂.prototype? k = e₁.prototype? k
    by_cases hk : k ∈ ts.map Template.key
    · obtain ⟨t, ht, rfl⟩ := List.mem_map.1 hk
      rw [h₁.new t ht, h₂.new t (hp.mem_iff.1 ht)]
    · rw [h₁.keep k hk, h₂.keep k fun hk' => hk ((hkey k).2 hk')]
  exact Registry.eq_of (h₂.catalog.trans h₁.catalog.symm) htable

theorem Revises.catalog {e₁ : Engine} (h : e.Revises e₁) :
    e₁.registry.catalog = e.registry.catalog := by
  obtain ⟨_, _, _, rfl, -, -⟩ := h
  rfl

/-- Engines that were both revised differ in nothing else. -/
theorem Revises.both {e₁ e₂ : Engine} (h₁ : e.Revises e₁) (h₂ : e.Revises e₂) :
    ∃ prototypes heap events, e₂ = { e₁ with
      registry := { e₁.registry with prototypes }
      world := { e₁.world with heap, events } } := by
  obtain ⟨_, _, _, rfl, -, -⟩ := h₁
  obtain ⟨prototypes, heap, events, rfl, -, -⟩ := h₂
  exact ⟨prototypes, heap, events, rfl⟩

/-- All arrays that constants of the catalog lead to are there. -/
def Grounded (e : Engine) : Prop :=
  ∃ S, e.world.heap.Closed S ∧ Draft.Holds e.registry.catalog S

/-- Two engines that grew out of one and are equal but for the places of new arrays. -/
structure Corresponds (e : Engine) (keys : List Key) (σ : Equiv.Perm ArrayId) (e₁ e₂ : Engine) :
    Prop where
  heap : e.world.heap.Exchanged σ e₁.world.heap e₂.world.heap
  prototypes : ∀ k, e₂.prototype? k = if k ∈ keys then
    (e₁.prototype? k).map (Prototype.renameArrays σ) else e₁.prototype? k

namespace Imported

variable {r : Registry} {xs ys : List (Template × Draft)} {e₁ e₂ : Engine}

/-- What holds of templates filled in both orders, and of those that were there, holds of all. -/
theorem both (h₁ : Imported r xs e e₁) (h₂ : Imported r ys e e₂)
    (hp : (xs.map Prod.fst).Perm (ys.map Prod.fst))
    {Q : Key → Option Prototype → Option Prototype → Prop}
    (hold : ∀ k, k ∉ (xs.map Prod.fst).map Template.key → Q k (e.prototype? k) (e.prototype? k))
    (hnew : ∀ x ∈ xs, ∃ y ∈ ys, y.1 = x.1 ∧ Q x.1.key (some (filed x)) (some (filed y)))
    (k : Key) : Q k (e₁.prototype? k) (e₂.prototype? k) := by
  by_cases hk : k ∈ (xs.map Prod.fst).map Template.key
  · obtain ⟨t, ht, rfl⟩ := List.mem_map.1 hk
    obtain ⟨x, hx, rfl⟩ := List.mem_map.1 ht
    obtain ⟨y, hy, hyx, hQ⟩ := hnew x hx
    rw [h₁.new x hx, ← hyx, h₂.new y hy, hyx]
    exact hQ
  · have hk' : k ∉ (ys.map Prod.fst).map Template.key := fun hm => hk ((hp.map _).mem_iff.2 hm)
    rw [h₁.keep k hk, h₂.keep k hk']
    exact hold k hk

/-- Whatever the heap is, the templates are the same but for the arrays that constants hold. -/
theorem erased (h₁ : Imported r xs e e₁) (h₂ : Imported r ys e e₂)
    (hp : (xs.map Prod.fst).Perm (ys.map Prod.fst)) (k : Key) :
    (e₁.prototype? k).map (Prototype.renameArrays fun _ => 0) =
      (e₂.prototype? k).map (Prototype.renameArrays fun _ => 0) := by
  refine h₁.both h₂ hp (Q := fun _ q q' => q.map (Prototype.renameArrays fun _ => 0) =
    q'.map (Prototype.renameArrays fun _ => 0)) (fun _ _ => rfl) (fun x hx => ?_) k
  obtain ⟨y, hy, hyx⟩ := List.mem_map.1 (hp.mem_iff.1 (List.mem_map_of_mem hx))
  obtain ⟨h, hload⟩ := h₁.fills.load hx
  obtain ⟨h', hload'⟩ := h₂.fills.load hy
  rw [hyx] at hload'
  obtain ⟨d, hd, halike⟩ := (x.1.load_erased r h h').ok_right hload
  rw [hload'] at hd
  cases hd
  refine ⟨y, hy, hyx, congrArg some ?_⟩
  have hfiled := congrArg (fun q : Prototype =>
    { q with revision := x.1.outline.revision + 1, pool := [] }) halike.prototype
  rw [filed, filed, hyx]
  exact hfiled

/-- Where no array is missing, the engines are equal up to the places of new arrays. -/
theorem corresponds (h₁ : Imported r xs e e₁) (h₂ : Imported r ys e e₂)
    (hp : (xs.map Prod.fst).Perm (ys.map Prod.fst)) (hcatalog : r.catalog = e.registry.catalog)
    (he : e.Grounded) :
    ∃ σ, e.Corresponds ((xs.map Prod.fst).map Template.key) σ e₁ e₂ := by
  obtain ⟨S, hc, hcat⟩ := he
  obtain ⟨σ, hheap, hfilled⟩ := fills_perm hc (hcatalog ▸ hcat) h₁.fills h₂.fills hp
  refine ⟨σ, hheap, h₁.both h₂ hp (Q := fun k q q' => q' = if k ∈ _ then
    q.map (Prototype.renameArrays σ) else q) (fun k hk => (if_neg hk).symm) fun x hx => ?_⟩
  obtain ⟨y, hy, hyx, hproto⟩ := hfilled x hx
  refine ⟨y, hy, hyx, ?_⟩
  rw [if_pos (List.mem_map_of_mem (List.mem_map_of_mem hx)), filed, filed, hproto, hyx]
  rfl

end Imported

/-- Where no array was made, nothing was moved. -/
theorem Corresponds.eq {keys : List Key} {σ : Equiv.Perm ArrayId} {e₁ e₂ : Engine}
    (h : e.Corresponds keys σ e₁ e₂) (hheap : e₁.world.heap = e.world.heap) :
    e₂.registry.prototypes = e₁.registry.prototypes := by
  have hσ : ⇑σ = id := by
    funext a
    by_cases ha : a < e.world.heap.size
    · exact (h.heap.old a ha).1
    · exact h.heap.beyond a (hheap ▸ Nat.le_of_not_lt ha)
  have hid : Prototype.renameArrays id = id := funext Prototype.renameArrays_id
  refine Table.ext_get? fun k => (h.prototypes k).trans ?_
  rw [hσ, hid, Option.map_id, id, ite_self]
  rfl

/-- In every engine that commands lead to, documents with the same prototypes in another order are
both taken in or both refused.  If they are taken in, the engines are equal up to the report: they
have the same graph and the same work to do, and each key has the same template, up to the places of
arrays that were made on the way. -/
theorem reordered_after (settings : Settings) (console : Console) (commands : List Command)
    {p p' : Project} (hp : p.prototypes.Perm p'.prototypes) :
    let e := (fresh settings console).after commands
    let e₁ := (e.importProject p).2
    let e₂ := (e.importProject p').2
    ((e.importProject p).1 = .ok () ↔ (e.importProject p').1 = .ok ()) ∧
      ((e.importProject p).1 = .ok () →
        (∃ prototypes heap events, e₂ = { e₁ with
          registry := { e₁.registry with prototypes }
          world := { e₁.world with heap, events } }) ∧
        (∀ k, (e₁.prototype? k).map (Prototype.renameArrays fun _ => 0) =
          (e₂.prototype? k).map (Prototype.renameArrays fun _ => 0)) ∧
        (e.Grounded → ∃ σ, e.Corresponds (p.prototypes.map Template.key) σ e₁ e₂) ∧
        ((∀ k a, e.registry.catalog.get? k ≠ some (.constant (.array a))) →
          e₁.registry = e₂.registry ∧ e₁.world.heap = e₂.world.heap)) := by
  intro e e₁ e₂
  have h : e.Settled := settled_after settings console commands
  have hiff : (e.importProject p).1 = .ok () ↔ (e.importProject p').1 = .ok () := by
    rw [importProject_ok_iff h, importProject_ok_iff h]
    exact ⟨fun hw => hw.perm hp, fun hw => hw.perm hp.symm⟩
  refine ⟨hiff, fun hok => ?_⟩
  obtain ⟨-, hout, xs, hxs, h₁⟩ := (importProject_decides h p).of_ok hok
  obtain ⟨-, hout', ys, hys, h₂⟩ := (importProject_decides h p').of_ok (hiff.1 hok)
  rw [hout.registry_perm hout' hp] at h₂
  have hp' : (xs.map Prod.fst).Perm (ys.map Prod.fst) := hxs ▸ hys ▸ hp
  have hcorresponds := h₁.corresponds h₂ hp' hout.catalog
  rw [hxs] at hcorresponds
  refine ⟨?_, h₁.erased h₂ hp', hcorresponds, fun hnone => ?_⟩
  · exact h₁.revises.both h₂.revises
  · have hcat : Draft.Holds e.registry.catalog fun _ => False := fun k a hk => hnone k a hk
    have hclosed : e.world.heap.Closed fun _ => False := fun a ha => ha.elim
    obtain ⟨σ, hσ⟩ := hcorresponds ⟨_, hclosed, hcat⟩
    have hcat' : Draft.Holds (e.declareAll p.prototypes).2.2.registry.catalog fun _ => False :=
      hout.catalog ▸ hcat
    have hheap₁ := h₁.fills.heap_eq hcat'
    have hheap₂ := h₂.fills.heap_eq hcat'
    exact ⟨Registry.eq_of (h₁.revises.catalog.trans h₂.revises.catalog.symm) (hσ.eq hheap₁).symm,
      hheap₁.trans hheap₂.symm⟩

/-- An array in an array, and a constant of the catalog that holds it. -/
def nestedSession : List Command :=
  [.call (.outside { heap := ⟨#[[.array 1, .int 5], [.int 7]]⟩ }),
    .call (.registerLogic (.constant (.array 0)))]

/-- A template with some of these constants and a reference to another template. -/
def ring (own other : String) (constants : Nat) : Template :=
  { key := ⟨"User", own⟩
    nodes := { named := (List.range constants).map (fun i =>
        { index := i, category := some "Constant", identifier := some "Array" }) ++
      [{ index := constants, category := some "User", identifier := some other }] } }

theorem world_registerLogic (e : Engine) (l : Logic) : (e.registerLogic l).2.world = e.world := by
  unfold registerLogic
  split
  · rfl
  · split <;> rfl

theorem grounded_nestedSession : ((fresh {} (.script {})).after nestedSession).Grounded := by
  have hworld : ∀ e : Engine, (e.after nestedSession).world =
      { heap := ⟨#[[.array 1, .int 5], [.int 7]]⟩ } := fun e => world_registerLogic _ _
  refine ⟨fun a => a < 2, ?_, fun k a hk => ?_⟩
  · rw [hworld]
    have hitems : ∀ a < 2, ∀ s ∈ (Heap.mk #[[.array 1, .int 5], [.int 7]]).items a,
        s.asArray?.getD 0 < 2 := by decide
    exact fun a ha => ⟨ha, fun b hb => hitems a ha _ hb⟩
  · have hentries : ∀ x ∈ ((fresh {} (.script {})).after nestedSession).registry.catalog.entries,
        (x.2.constant?.bind Signal.asArray?).getD 0 < 2 := by decide +kernel
    exact hentries (k, _) (Table.get?_eq_some_iff.1 hk)

theorem reordered_after_ring :
    let e := (fresh {} (.script {})).after nestedSession
    let p : Project := ⟨[ring "Left" "Right" 2, ring "Right" "Left" 1]⟩
    let p' : Project := ⟨[ring "Right" "Left" 1, ring "Left" "Right" 2]⟩
    (e.importProject p).1 = .ok () ∧ (e.importProject p').1 = .ok () ∧
      ∃ σ, e.Corresponds [⟨"User", "Left"⟩, ⟨"User", "Right"⟩] σ (e.importProject p).2
        (e.importProject p').2 := by
  intro e p p'
  have hok : (e.importProject p).1 = .ok () := by decide +kernel
  have hperm : p.prototypes.Perm p'.prototypes := .swap _ _ _
  obtain ⟨hiff, hsame⟩ := reordered_after {} (.script {}) nestedSession hperm
  exact ⟨hok, hiff.1 hok, (hsame hok).2.2.1 grounded_nestedSession⟩

end Engine

end PulseFlow
