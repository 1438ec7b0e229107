import PulseFlow.Proofs.Placing
import PulseFlow.Proofs.Waves

/-!
# Numbers out of use

The number of a node that was taken out for good is never given to another node.  It is known to the
store, empty, and not among the numbers to hand out again (`Retired`), and none of the operations of
a store changes that:

    s.Evolves s' → s.Retired i → s'.Retired i                        (Evolves.retired)
    s.Retired i → (s.add a).1 ≠ i                                    (Retired.add_ne)

Whatever an engine does, it does to its graph by these operations (`engage_evolves`,
`send_evolves`, `Moves.evolves` and those beside them).
-/

namespace PulseFlow

namespace Slots

variable {α : Type} {s s' : Slots α} {i : Nat}

/-! ## Histories of stores -/

/-- One operation on a store. -/
inductive Op : Slots α → Slots α → Prop
  | add (s : Slots α) (a : α) : Op s (s.add a).2
  | modify (s : Slots α) (i : Nat) (f : α → α) : Op s (s.modify i f)
  | map (s : Slots α) (f : α → α) : Op s (s.map f)
  | vacate (s : Slots α) (i : Nat) : Op s (s.vacate i)
  | close (s : Slots α) (i : Nat) : Op s (s.close i)

/-- Any number of operations. -/
abbrev Evolves : Slots α → Slots α → Prop := Relation.ReflTransGen Op

/-- A fold makes the store evolve if each of its steps does. -/
theorem evolves_foldl {β γ : Type} (store : γ → Slots α) {f : γ → β → γ}
    (hf : ∀ c b, Evolves (store c) (store (f c b))) (c : γ) (l : List β) :
    Evolves (store c) (store (l.foldl f c)) := by
  induction l generalizing c with
  | nil => exact .refl
  | cons b l ih => exact (hf c b).trans (ih (f c b))

theorem Evolves.tidy (h : s.Evolves s') (ht : s.Tidy) : s'.Tidy := by
  induction h with
  | refl => exact ht
  | tail _ ho ih =>
    cases ho with
    | add a => exact tidy_add ih a
    | modify i f => exact tidy_modify ih i f
    | map f => exact tidy_map ih f
    | vacate i => exact tidy_vacate ih i
    | close i => exact tidy_close ih i

/-! ## Numbers that are not handed out again -/

/-- A number that was in use and never will be again. -/
structure Retired (s : Slots α) (i : Nat) : Prop where
  known : i < s.cells.size
  empty : s.get? i = none
  out : i ∉ s.vacant

theorem retired_close {a : α} (h : s.Tidy) (hi : s.get? i = some a) : (s.close i).Retired i := by
  refine ⟨?_, ?_, fun hv => ?_⟩
  · rw [size_close]
    exact lt_size_of_get? hi
  · rw [get?_close, if_pos rfl]
  · have hvacant : (s.close i).vacant = s.vacant := by
      unfold close
      rw [hi]
    rw [hvacant] at hv
    rw [(h.unused i hv).2] at hi
    cases hi

namespace Retired

theorem add_ne (h : s.Retired i) (a : α) : (s.add a).1 ≠ i := by
  unfold add
  split
  · next j rest hv =>
    rintro rfl
    exact h.out (by rw [hv]; exact List.mem_cons_self)
  · have := h.known
    show s.cells.size ≠ i
    omega

theorem add (h : s.Retired i) (a : α) : (s.add a).2.Retired i := by
  have hne := h.add_ne a
  have hempty := h.empty
  refine ⟨size_add_of_mem a h.known, ?_, ?_⟩
  · unfold Slots.add at hne ⊢
    split at hne
    · next j rest hv =>
      have hj : j ≠ i := hne
      rw [get?_eq_join] at hempty ⊢
      simp [hj, hempty]
    · have hi : i ≠ s.cells.size := Nat.ne_of_lt h.known
      rw [get?_eq_join] at hempty ⊢
      simp [Array.getElem?_push, hi, hempty]
  · unfold Slots.add
    split
    · next j rest hv => exact fun hi => h.out (by rw [hv]; exact List.mem_cons_of_mem j hi)
    · exact h.out

theorem op (h : s.Retired i) (ho : Op s s') : s'.Retired i := by
  cases ho with
  | add a => exact h.add a
  | modify j f =>
    refine ⟨by rw [size_modify]; exact h.known, ?_, h.out⟩
    rw [get?_modify, h.empty]
    split <;> rfl
  | map f =>
    refine ⟨by rw [size_map]; exact h.known, ?_, h.out⟩
    rw [get?_map, h.empty]
    rfl
  | vacate j =>
    refine ⟨by rw [size_vacate]; exact h.known, ?_, ?_⟩
    · rw [get?_vacate, h.empty]
      split <;> rfl
    · unfold Slots.vacate
      split
      · next a ha =>
        -- what is vacated was in use
        have hne : i ≠ j := by
          rintro rfl
          rw [h.empty] at ha
          cases ha
        exact fun hi => h.out ((List.mem_cons.1 hi).resolve_left hne)
      · exact h.out
  | close j =>
    refine ⟨by rw [size_close]; exact h.known, ?_, ?_⟩
    · rw [get?_close, h.empty]
      split <;> rfl
    · unfold Slots.close
      split <;> exact h.out

end Retired

theorem Evolves.retired (h : s.Evolves s') (hi : s.Retired i) : s'.Retired i := by
  induction h with
  | refl => exact hi
  | tail _ ho ih => exact ih.op ho

end Slots

open Slots (Evolves evolves_foldl)

/-! ## Making and taking apart instances -/

namespace Prototype

theorem copyNodes_evolves (g : Graph) (h : Heap) (es : List (NodeId × Node)) :
    Evolves g (copyNodes g h es).2.1 := by
  induction es generalizing g h with
  | nil => exact .refl
  | cons entry es ih => exact .head (.add g (entry.2.duplicate h).1) (ih _ _)

theorem wireCopies_evolves (r : Renaming) (g : Graph) (es : List (NodeId × Node)) :
    Evolves g (wireCopies r g es) := by
  refine evolves_foldl id (fun g entry => ?_) g es
  dsimp only [id]
  split
  · exact .single (.modify _ _ _)
  · exact .refl

theorem instantiate_evolves (p : Prototype) (id : Nat) (g : Graph) (h : Heap) :
    Evolves g (p.instantiate id g h).2.1 :=
  (copyNodes_evolves g h p.graph.entries).trans (wireCopies_evolves _ _ _)

end Prototype

theorem Move.evolves {S : NodeId → Prop} {w w' : Work} (m : Move S w w') :
    Evolves w.engine.graph w'.engine.graph := by
  cases m with
  | take _ _ => exact .single (.modify _ _ _)
  | unroute _ _ => exact evolves_foldl id (fun g o => .single (.modify g o _)) _ _
  | vacate _ _ _ => exact .single (.vacate _ _)
  | report _ | pool _ _ _ | breakUp | flush _ => exact .refl

theorem Moves.evolves {S : NodeId → Prop} {w w' : Work} (m : Moves S w w') :
    Evolves w.engine.graph w'.engine.graph := by
  induction m with
  | refl => exact .refl
  | tail _ m ih => exact ih.trans m.evolves

namespace Engine

variable {e e' : Engine} {id : NodeId}

/-! ## Waves -/

theorem deliver_evolves (e : Engine) (target : Socket) (s : Signal) :
    Evolves e.graph (e.deliver target s).graph := by
  unfold deliver
  split
  · exact .refl
  · dsimp only
    split
    · split
      · exact .single (.modify _ _ _)
      · exact .single (.modify _ _ _)
    · exact .refl

theorem send_evolves (e : Engine) (out : List (Socket × Signal)) :
    Evolves e.graph (e.send out).graph := by
  refine evolves_foldl Engine.graph (fun e m => ?_) e out
  unfold emit
  split
  · exact evolves_foldl Engine.graph (fun e target => e.deliver_evolves target m.2) e _
  · exact .refl

theorem forward_evolves (e : Engine) (id : NodeId) (inputs : List Signal) :
    Evolves e.graph (e.forward id inputs).graph := by
  rw [forward_eq]
  exact send_evolves _ _

theorem fireLogic_evolves (e : Engine) (id : NodeId) (l : Logic) (inputs : List Signal) :
    Evolves e.graph (e.fireLogic id l inputs).graph := by
  have hreact : Evolves e.graph (e.reacted id (l.fire inputs e.world)).graph :=
    .single (.modify _ _ _)
  rw [fireLogic_eq]
  exact hreact.trans (send_evolves _ _)

theorem acquire_evolves (e : Engine) (id : NodeId) (p : Prototype) :
    Evolves e.graph (e.acquire id p).2.graph := by
  unfold acquire
  split
  · exact .refl
  · exact p.instantiate_evolves e.nextInstance e.graph e.world.heap

theorem route_evolves (g : Graph) (outputs : List NodeId) (fans : List Fan) :
    Evolves g (route g outputs fans) :=
  evolves_foldl (fun g => g) (fun g _ => .single (.modify g _ _)) g _

theorem engage_evolves (h : e.engage id = .ok e') : Evolves e.graph e'.graph := by
  unfold engage at h
  split at h
  · cases h
  · split at h
    · cases h
    · split at h
      · cases h
      · next p _ =>
        cases h
        exact ((e.acquire_evolves id p).trans (route_evolves _ _ _)).tail (.modify _ _ _)

theorem collect_evolves (g : Graph) (ids : List NodeId) : Evolves g (collect g ids).2 := by
  induction ids generalizing g with
  | nil => exact .refl
  | cons id ids ih =>
    rw [collect]
    split
    · exact .head (.modify _ _ _) (ih _)
    · exact ih g

/-! ## Calls -/

theorem pulse_evolves (e : Engine) (target : Socket) (s : Signal) :
    Evolves e.graph (e.pulse target s).2.graph := by
  unfold pulse
  split
  · exact .refl
  · split
    · exact .refl
    · exact e.deliver_evolves target s

theorem releaded_evolves (e : Engine) (source : Socket) (change : Fan → Fan) :
    Evolves e.graph (e.releaded source change) := by
  unfold releaded
  split
  · exact .tail (.single (.modify _ _ _)) (.modify _ _ _)
  · exact .single (.modify _ _ _)

theorem erase_evolves (g : Graph) (id : NodeId) : Evolves g (Graph.erase g id) :=
  .tail (.single (.close _ _)) (.map _ _)

end Engine

end PulseFlow
