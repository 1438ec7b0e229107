import PulseFlow.Logic.Basic
import PulseFlow.Proofs.Legibility
import PulseFlow.Signal.Literal

/-!
# Which texts are literals

The forms of literals, said without the reader: a text between quotes (`Quotable`), the word `NaN`,
and a whole number with or without a sign (`Spells`), each with blanks around it (`Trims`).  The
reader takes exactly these for texts, `nan` and integers, and reads the label of a constant back as
its value.

    trim cs = m ↔ Trims cs m                                                       (trim_eq_iff)
    readTrimmed? cs = some (text s) ↔ cs = '"' :: s ++ ['"'] ∧ Quotable s  (readTrimmed?_eq_text)
    readTrimmed? cs = some (int n) ↔ Spells cs n                            (readTrimmed?_eq_int)
-/

namespace PulseFlow

/-! ## Blanks -/

namespace Text

/-- `m` is `cs` without the blanks before and after it. -/
structure Trims (cs m : List Char) : Prop where
  around : ∃ front back, cs = front ++ (m ++ back) ∧ (∀ c ∈ front, isBlank c = true) ∧
    ∀ c ∈ back, isBlank c = true
  head : ∀ c ∈ m.head?, isBlank c = false
  last : ∀ c ∈ m.getLast?, isBlank c = false

variable {cs m : List Char}

theorem dropBlanks_eq_iff : dropBlanks cs = m ↔ ∃ front, cs = front ++ m ∧
    (∀ c ∈ front, isBlank c = true) ∧ ∀ c ∈ m.head?, isBlank c = false := by
  constructor
  · rintro rfl
    refine ⟨cs.takeWhile isBlank, List.takeWhile_append_dropWhile.symm,
      fun c => List.mem_takeWhile_imp, fun c hc => ?_⟩
    have hnot := List.head?_dropWhile_not isBlank cs
    rw [dropBlanks] at hc
    rw [Option.mem_def.1 hc] at hnot
    simpa using hnot
  · rintro ⟨front, rfl, hfront, hhead⟩
    rw [dropBlanks, List.dropWhile_append_of_pos hfront]
    cases m with
    | nil => rfl
    | cons c m => rw [List.dropWhile_cons_of_neg (by simp [hhead c rfl])]

/-- Trimming takes the blanks off and nothing else. -/
theorem trim_eq_iff : trim cs = m ↔ Trims cs m := by
  have hback : trim cs = m ↔ dropBlanks (dropBlanks cs).reverse = m.reverse := by
    rw [trim, List.reverse_eq_iff]
  rw [hback, dropBlanks_eq_iff]
  constructor
  · rintro ⟨back, hrest, hblank, hlast⟩
    rw [List.reverse_eq_iff, List.reverse_append, List.reverse_reverse] at hrest
    obtain ⟨front, hcs, hfront, hhead⟩ := dropBlanks_eq_iff.1 hrest
    refine ⟨⟨front, back.reverse, hcs, hfront, by simpa using hblank⟩, fun c hc => hhead c ?_, ?_⟩
    · rw [List.head?_append, Option.mem_def.1 hc]
      rfl
    · simpa using hlast
  · rintro ⟨⟨front, back, rfl, hfront, hblank⟩, hhead, hlast⟩
    cases m with
    | nil =>
      have hall : dropBlanks (front ++ ([] ++ back)) = [] := by
        refine dropBlanks_eq_iff.2 ⟨front ++ back, by simp, fun c hc => ?_, by simp⟩
        exact (List.mem_append.1 hc).elim (hfront c) (hblank c)
      exact ⟨[], by rw [hall]; rfl, by simp, by simp⟩
    | cons c m =>
      have hdrop : dropBlanks (front ++ (c :: m ++ back)) = c :: m ++ back :=
        dropBlanks_eq_iff.2 ⟨front, rfl, hfront, hhead⟩
      exact ⟨back.reverse, by rw [hdrop, List.reverse_append], by simpa using hblank,
        by rw [List.head?_reverse]; exact hlast⟩

end Text

namespace Signal

open Text Decimal

/-! ## Texts between quotes -/

/-- Characters that may stand between quotes: other than the quote and the backslash, or any one
character after a backslash. -/
inductive Quotable : List Char → Prop
  | nil : Quotable []
  | plain {c : Char} {cs : List Char} (hquote : c ≠ '"') (hslash : c ≠ '\\') (h : Quotable cs) :
    Quotable (c :: cs)
  | escaped {c : Char} {cs : List Char} (h : Quotable cs) : Quotable ('\\' :: c :: cs)

variable {cs s : List Char}

theorem wellQuoted_iff : wellQuoted cs = true ↔ Quotable cs := by
  constructor
  · intro h
    induction cs using wellQuoted.induct with
    | case1 => exact .nil
    | case2 => simp [wellQuoted] at h
    | case3 c rest ih => exact .escaped (ih (by simpa [wellQuoted] using h))
    | case4 c rest hend hmore ih =>
      have hslash : c ≠ '\\' := by
        intro hc
        cases rest with
        | nil => exact hend hc rfl
        | cons d rest => exact hmore d rest hc rfl
      simp only [wellQuoted, Bool.and_eq_true, bne_iff_ne] at h
      exact .plain h.1 hslash (ih h.2)
  · intro h
    induction h with
    | nil => rfl
    | plain hquote hslash _ ih => simp [wellQuoted, hquote, hslash, ih]
    | escaped _ ih => simpa [wellQuoted] using ih

theorem readQuoted?_eq_some : readQuoted? cs = some s ↔ cs = '"' :: s ++ ['"'] ∧ Quotable s := by
  rw [← wellQuoted_iff]
  constructor
  · intro h
    unfold readQuoted? at h
    split at h
    · next rest =>
      split at h
      · next hlast =>
        obtain ⟨front, rfl⟩ := List.getLast?_eq_some_iff.1 hlast
        rw [List.dropLast_concat] at h
        obtain ⟨hwell, hs⟩ := Option.ite_none_right_eq_some.1 h
        cases hs
        exact ⟨rfl, hwell⟩
      · cases h
    · cases h
  · rintro ⟨rfl, hwell⟩
    simp [readQuoted?, hwell]

/-! ## Whole numbers -/

/-- One or more decimal digits. -/
structure IsDigits (ds : List Char) : Prop where
  ne_nil : ds ≠ []
  digit : ∀ c ∈ ds, c.isDigit = true

/-- A whole number as text: digits, with or without a sign before them. -/
inductive Spells : List Char → Int → Prop
  | bare {ds : List Char} (h : IsDigits ds) : Spells ds (Nat.ofDigitChars 10 ds 0)
  | plus {ds : List Char} (h : IsDigits ds) : Spells ('+' :: ds) (Nat.ofDigitChars 10 ds 0)
  | minus {ds : List Char} (h : IsDigits ds) :
    Spells ('-' :: ds) (-(Nat.ofDigitChars 10 ds 0 : Int))

theorem ofDigits_eq (ds : List Char) : ofDigits ds = Nat.ofDigitChars 10 ds 0 :=
  Nat.ofDigitChars_eq_foldl.symm

theorem fits_iff {m : Int} {n : Int64} :
    (if FitsInt m then some (Int64.ofInt m) else none) = some n ↔ n.toInt = m := by
  constructor
  · intro h
    obtain ⟨hm, hn⟩ := Option.ite_none_right_eq_some.1 h
    cases hn
    exact Int64.toInt_ofInt_of_le hm.1 hm.2
  · rintro rfl
    rw [if_pos ⟨n.le_toInt, n.toInt_lt⟩, Int64.ofInt_toInt]

theorem readInt?_of_takeSign {n : Int64} {negative : Bool} {ds : List Char}
    (h : takeSign cs = (negative, ds)) : readInt? cs = some n ↔ IsDigits ds ∧ n.toInt =
      if negative then -(Nat.ofDigitChars 10 ds 0 : Int) else Nat.ofDigitChars 10 ds 0 := by
  have hdigits : IsDigits ds ↔ ds ≠ [] ∧ ds.all Char.isDigit = true := by
    rw [List.all_eq_true]
    exact ⟨fun hd => ⟨hd.ne_nil, hd.digit⟩, fun hd => ⟨hd.1, hd.2⟩⟩
  rw [readInt?, h, hdigits, ← ofDigits_eq, ← fits_iff]
  exact Option.ite_none_right_eq_some

theorem takeSign_cases (cs : List Char) : (∃ ds, cs = '-' :: ds ∧ takeSign cs = (true, ds)) ∨
    (∃ ds, cs = '+' :: ds ∧ takeSign cs = (false, ds)) ∨ takeSign cs = (false, cs) := by
  unfold takeSign
  split
  · next ds => exact .inl ⟨ds, rfl, rfl⟩
  · next ds => exact .inr (.inl ⟨ds, rfl, rfl⟩)
  · exact .inr (.inr rfl)

theorem takeSign_of_isDigits {ds : List Char} (h : IsDigits ds) : takeSign ds = (false, ds) := by
  obtain ⟨_, rfl, -⟩ | ⟨_, rfl, -⟩ | hsign := takeSign_cases ds
  · exact absurd (h.digit '-' List.mem_cons_self) (by decide)
  · exact absurd (h.digit '+' List.mem_cons_self) (by decide)
  · exact hsign

theorem readInt?_eq_some {n : Int64} : readInt? cs = some n ↔ Spells cs n.toInt := by
  constructor
  · intro h
    obtain ⟨ds, rfl, hsign⟩ | ⟨ds, rfl, hsign⟩ | hsign := takeSign_cases cs
    · obtain ⟨hd, hn⟩ := (readInt?_of_takeSign hsign).1 h
      rw [hn]
      exact .minus hd
    · obtain ⟨hd, hn⟩ := (readInt?_of_takeSign hsign).1 h
      rw [hn]
      exact .plus hd
    · obtain ⟨hd, hn⟩ := (readInt?_of_takeSign hsign).1 h
      rw [hn]
      exact .bare hd
  · intro h
    generalize hn : n.toInt = m at h
    cases h with
    | bare hd => exact (readInt?_of_takeSign (takeSign_of_isDigits hd)).2 ⟨hd, hn⟩
    | plus hd => exact (readInt?_of_takeSign rfl).2 ⟨hd, hn⟩
    | minus hd => exact (readInt?_of_takeSign rfl).2 ⟨hd, hn⟩

theorem Spells.head {m : Int} (h : Spells cs m) :
    ∃ c rest, cs = c :: rest ∧ (c.isDigit = true ∨ c = '+' ∨ c = '-') := by
  cases h with
  | bare hd =>
    obtain ⟨c, rest, rfl⟩ := List.exists_cons_of_ne_nil hd.ne_nil
    exact ⟨c, rest, rfl, .inl (hd.digit c List.mem_cons_self)⟩
  | plus hd => exact ⟨'+', _, rfl, .inr (.inl rfl)⟩
  | minus hd => exact ⟨'-', _, rfl, .inr (.inr rfl)⟩

/-! ## Literals without blanks around them -/

/-- The four forms of a literal. -/
theorem readTrimmed?_cases {v : Signal} (h : readTrimmed? cs = some v) :
    (∃ s, readQuoted? cs = some s ∧ v = text (String.ofList s)) ∨
      (cs = ['N', 'a', 'N'] ∧ v = nan) ∨ (∃ n, readInt? cs = some n ∧ v = int n) ∨
      ∃ x, v = real x := by
  unfold readTrimmed? at h
  split at h
  · next s hs =>
    cases h
    exact .inl ⟨s, hs, rfl⟩
  · split at h
    · next hcs =>
      cases h
      exact .inr (.inl ⟨hcs, rfl⟩)
    · split at h
      · next n hn =>
        cases h
        exact .inr (.inr (.inl ⟨n, hn, rfl⟩))
      · obtain ⟨x, -, hx⟩ := Option.map_eq_some_iff.1 h
        exact .inr (.inr (.inr ⟨x, hx.symm⟩))

theorem readTrimmed?_eq_text {s : String} : readTrimmed? cs = some (text s) ↔
    cs = '"' :: s.toList ++ ['"'] ∧ Quotable s.toList := by
  rw [← readQuoted?_eq_some]
  constructor
  · intro h
    obtain ⟨q, hq, hs⟩ | ⟨-, hs⟩ | ⟨_, -, hs⟩ | ⟨_, hs⟩ := readTrimmed?_cases h <;> cases hs
    rw [String.toList_ofList]
    exact hq
  · intro h
    rw [readTrimmed?, h]
    dsimp only
    rw [String.ofList_toList]

theorem readTrimmed?_eq_nan : readTrimmed? cs = some nan ↔ cs = ['N', 'a', 'N'] := by
  constructor
  · intro h
    obtain ⟨_, -, hv⟩ | ⟨hcs, -⟩ | ⟨_, -, hv⟩ | ⟨_, hv⟩ := readTrimmed?_cases h
    · cases hv
    · exact hcs
    · cases hv
    · cases hv
  · rintro rfl
    rfl

theorem readTrimmed?_eq_int {n : Int64} :
    readTrimmed? cs = some (int n) ↔ Spells cs n.toInt := by
  rw [← readInt?_eq_some]
  constructor
  · intro h
    obtain ⟨_, -, hv⟩ | ⟨-, hv⟩ | ⟨_, hn, hv⟩ | ⟨_, hv⟩ := readTrimmed?_cases h <;> cases hv
    exact hn
  · intro h
    -- a sign or a digit in front excludes the forms that are tried before
    obtain ⟨c, rest, rfl, hc⟩ := (readInt?_eq_some.1 h).head
    have hquoted : readQuoted? (c :: rest) = none := by
      refine Option.eq_none_iff_forall_ne_some.2 fun q hq => ?_
      obtain ⟨hcs, -⟩ := readQuoted?_eq_some.1 hq
      cases hcs
      exact absurd hc (by decide)
    have hnan : c :: rest ≠ ['N', 'a', 'N'] := by
      rintro ⟨⟩
      exact absurd hc (by decide)
    rw [readTrimmed?, hquoted, h]
    dsimp only
    rw [if_neg hnan]

/-! ## Labels -/

theorem isBlank_of_isDigit {c : Char} (h : c.isDigit = true) : isBlank c = false := by
  simp only [Char.isDigit, Bool.and_eq_true, decide_eq_true_eq, ge_iff_le,
    UInt32.le_iff_toNat_le] at h
  have hlow : 48 ≤ c.toNat := h.1
  have hhigh : c.toNat ≤ 57 := h.2
  simp [isBlank]
  omega

theorem trims_self (hhead : ∀ c ∈ cs.head?, isBlank c = false)
    (hlast : ∀ c ∈ cs.getLast?, isBlank c = false) : Trims cs cs :=
  ⟨⟨[], [], by simp, by simp, by simp⟩, hhead, hlast⟩

theorem Spells.trims {m : Int} (h : Spells cs m) : Trims cs cs := by
  have hdigits : ∀ ds, IsDigits ds → ∀ c ∈ ds, isBlank c = false := fun ds hd c hc =>
    isBlank_of_isDigit (hd.digit c hc)
  have hall : ∀ c ∈ cs, isBlank c = false := by
    cases h with
    | bare hd => exact hdigits _ hd
    | plus hd => exact List.forall_mem_cons.2 ⟨by decide, hdigits _ hd⟩
    | minus hd => exact List.forall_mem_cons.2 ⟨by decide, hdigits _ hd⟩
  exact trims_self (fun c hc => hall c (List.mem_of_mem_head? hc))
    fun c hc => hall c (List.mem_of_getLast? hc)

theorem spells_intText (n : Int64) : Spells (intText n).toList n.toInt := by
  have hdigits : IsDigits (digitsOf n.toInt.natAbs) :=
    ⟨Nat.toDigits_ne_nil, fun c hc => Json.Number.isDigit_of_mem_digitsOf hc⟩
  have hvalue : Nat.ofDigitChars 10 (digitsOf n.toInt.natAbs) 0 = n.toInt.natAbs := by
    rw [← ofDigits_eq, Json.Number.ofDigits_digitsOf]
  unfold intText
  split
  · have hspell := Spells.minus hdigits
    rw [hvalue, show -(n.toInt.natAbs : Int) = n.toInt by omega] at hspell
    rw [String.toList_ofList]
    exact hspell
  · have hspell := Spells.bare hdigits
    rw [hvalue, show (n.toInt.natAbs : Int) = n.toInt by omega] at hspell
    rw [String.toList_ofList]
    exact hspell

theorem readLiteral?_of_trims {t : String} (h : Trims t.toList t.toList) :
    readLiteral? t = readTrimmed? t.toList := by
  rw [readLiteral?, trim_eq_iff.2 h]

/-- The label of a constant made from a literal is a literal for the same value, reals apart. -/
theorem readLiteral?_label {t : String} {v : Signal} (h : readLiteral? t = some v)
    (hreal : v.kind ≠ .real) : readLiteral? (Logic.constant v).label = some v := by
  cases v with
  | nan => rfl
  | int n =>
    have hspell := spells_intText n
    show readLiteral? (intText n) = _
    rw [readLiteral?_of_trims hspell.trims]
    exact readTrimmed?_eq_int.2 hspell
  | real x => exact absurd rfl hreal
  | text s =>
    obtain ⟨-, hs⟩ := readTrimmed?_eq_text.1 h
    have hlabel : (Logic.constant (.text s)).label.toList = '"' :: s.toList ++ ['"'] := by
      simp [Logic.label]
    have htrims : Trims ('"' :: s.toList ++ ['"']) ('"' :: s.toList ++ ['"']) :=
      trims_self (fun c hc => by cases hc; decide) fun c hc => by
        rw [List.getLast?_concat] at hc
        cases hc
        decide
    rw [readLiteral?_of_trims (by rw [hlabel]; exact htrims), hlabel]
    exact readTrimmed?_eq_text.2 ⟨rfl, hs⟩
  | array i =>
    obtain ⟨_, -, hv⟩ | ⟨-, hv⟩ | ⟨_, -, hv⟩ | ⟨_, hv⟩ := readTrimmed?_cases h <;> cases hv

/-- A text is a literal for a text, for `nan` or for an integer exactly when it has the form of one,
blanks around it apart; and the label of a constant is a literal for its value. -/
theorem readLiteral?_exact (t : String) :
    (∀ s, readLiteral? t = some (.text s) ↔
        Trims t.toList ('"' :: s.toList ++ ['"']) ∧ Quotable s.toList) ∧
      (readLiteral? t = some .nan ↔ Trims t.toList ['N', 'a', 'N']) ∧
      (∀ n, readLiteral? t = some (.int n) ↔ ∃ m, Trims t.toList m ∧ Spells m n.toInt) ∧
      ∀ v, readLiteral? t = some v → v.kind ≠ .real →
        readLiteral? (Logic.constant v).label = some v := by
  refine ⟨fun s => ?_, ?_, fun n => ?_, fun v => readLiteral?_label⟩
  · rw [readLiteral?, readTrimmed?_eq_text, trim_eq_iff]
  · rw [readLiteral?, readTrimmed?_eq_nan, trim_eq_iff]
  · simp only [readLiteral?, readTrimmed?_eq_int, ← trim_eq_iff, exists_eq_left']

end Signal

end PulseFlow
