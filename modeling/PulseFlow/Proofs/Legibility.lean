import Mathlib.Data.List.Induction
import Mathlib.Data.List.TakeWhile
import PulseFlow.Json.Reader
import PulseFlow.Json.Writer

/-!
# Written values are read back

The text of a value reads back as that value, whatever its texts hold and however deep it is.  Whole
numbers in range are read back as well.  Of a real it has to be known that its own numeral stands
for it (`Number.Faithful`), because numerals are read in two roundings.

    readText? (s.toList.flatMap escapeChar ++ '"' :: rest) =
      some (some s, rest)                                                      (readText?_escaped)
    Number.read? cs = some (n, r) → Stops rest →
      Number.read? (cs ++ rest) = some (n, r ++ rest)                          (Number.read?_append)
    j.Legible → read? j.write = some j                                             (read?_write)
-/

namespace PulseFlow.Json

open Decimal

/-! ## Blanks -/

theorem skipGaps_newLine (level : Nat) (cs : List Char) :
    skipGaps ((newLine level).toList ++ cs) = skipGaps cs := by
  have hgap : ∀ c ∈ (newLine level).toList, isGap c = true := by
    intro c hc
    rw [newLine, String.toList_ofList, List.mem_cons, List.mem_replicate] at hc
    obtain rfl | ⟨-, rfl⟩ := hc <;> decide
  exact List.dropWhile_append_of_pos hgap

theorem skipGaps_cons {c : Char} (h : isGap c = false) (cs : List Char) :
    skipGaps (c :: cs) = c :: cs := by
  rw [skipGaps, List.dropWhile_cons_of_neg (by simp [h])]

/-! ## Texts -/

theorem controlEscape_eq : ∀ n < 32, controlEscape (Char.ofNat n) =
    ['\\', 'u', '0', '0', Nat.digitChar (n / 16), Nat.digitChar (n % 16)] := by
  decide

theorem hexUnit?_control : ∀ n < 32,
    (hexUnit? '0' '0' (Nat.digitChar (n / 16)) (Nat.digitChar (n % 16))).map Unit16.ofNat =
      some (.char (Char.ofNat n)) := by
  decide

theorem readUnits?_control {c : Char} (hc : c.toNat < 32) (done : List Unit16) (cs : List Char) :
    readUnits? done (controlEscape c ++ cs) = readUnits? (.char c :: done) cs := by
  have hc' : Char.ofNat c.toNat = c := Char.ofNat_toNat c
  have hunit := hexUnit?_control c.toNat hc
  obtain ⟨n, hn, hchar⟩ := Option.map_eq_some_iff.1 hunit
  rw [hc'] at hchar
  rw [← hc', controlEscape_eq c.toNat hc, hc']
  simp only [List.cons_append, List.nil_append, readUnits?, hn, hchar]

theorem readUnits?_escapeChar (done : List Unit16) (c : Char) (cs : List Char) :
    readUnits? done (escapeChar c ++ cs) = readUnits? (.char c :: done) cs := by
  unfold escapeChar
  -- The seven short escapes, the control characters, and what stands for itself.
  split_ifs with hquote hslash hback hfeed hline hreturn htab hcontrol
  · subst hquote; simp [readUnits?, shortEscape?]
  · subst hslash; simp [readUnits?, shortEscape?]
  · subst hback; simp [readUnits?, shortEscape?]
  · subst hfeed; simp [readUnits?, shortEscape?]
  · subst hline; simp [readUnits?, shortEscape?]
  · subst hreturn; simp [readUnits?, shortEscape?]
  · subst htab; simp [readUnits?, shortEscape?]
  · exact readUnits?_control hcontrol done cs
  · simp [readUnits?, hslash, hcontrol]

theorem readUnits?_escaped (s : List Char) (rest : List Char) (done : List Unit16) :
    readUnits? done (s.flatMap escapeChar ++ '"' :: rest) =
      some (done.reverse ++ s.map .char, rest) := by
  induction s generalizing done with
  | nil => simp [readUnits?]
  | cons c s ih =>
    rw [List.flatMap_cons, List.append_assoc, readUnits?_escapeChar, ih]
    simp

theorem joinUnits_char (s : List Char) : joinUnits (s.map .char) = some s := by
  induction s with
  | nil => rfl
  | cons c s ih => simp [joinUnits, ih]

/-- A text is read up to its own closing quote. -/
theorem readText?_escaped (s : String) (rest : List Char) :
    readText? (s.toList.flatMap escapeChar ++ '"' :: rest) = some (some s, rest) := by
  rw [readText?, readUnits?_escaped]
  simp [joinUnits_char]

theorem toList_writeText (s : String) :
    (writeText s).toList = '"' :: (s.toList.flatMap escapeChar ++ ['"']) := by
  simp [writeText]

/-! ## Numbers -/

/-- What follows cannot belong to a number. -/
def Stops (rest : List Char) : Prop :=
  ∀ c ∈ rest.head?, c.isDigit = false ∧ c ≠ '.' ∧ c ≠ 'e' ∧ c ≠ 'E'

theorem stops_cons {c : Char} (h : c.isDigit = false ∧ c ≠ '.' ∧ c ≠ 'e' ∧ c ≠ 'E')
    (cs : List Char) : Stops (c :: cs) := by
  intro c' hc'
  obtain rfl : c = c' := by simpa using hc'
  exact h

theorem takeDigits_append (cs : List Char) {rest : List Char} (h : Stops rest) :
    takeDigits (cs ++ rest) = ((takeDigits cs).1, (takeDigits cs).2 ++ rest) := by
  induction cs with
  | nil =>
    cases rest with
    | nil => rfl
    | cons c rest => simp [takeDigits, (h c rfl).1]
  | cons c cs ih =>
    simp only [takeDigits, Prod.mk.injEq] at ih
    by_cases hc : c.isDigit = true
    · simp [takeDigits, hc, ih.1, ih.2]
    · simp [takeDigits, hc]

namespace Number

/-- The numeral of a number stands for that number.  Not all reals have this: the second rounding
may end on a neighbour. -/
def Faithful (n : Number) : Prop := read? n.write.toList = some (n, [])

instance (n : Number) : Decidable n.Faithful := inferInstanceAs (Decidable (_ = _))

theorem takeMinus_append {cs : List Char} (h : cs ≠ []) (rest : List Char) :
    takeMinus (cs ++ rest) = ((takeMinus cs).1, (takeMinus cs).2 ++ rest) := by
  obtain ⟨c, cs, rfl⟩ := List.exists_cons_of_ne_nil h
  by_cases hc : c = '-'
  · simp [takeMinus, hc]
  · simp [takeMinus, hc]

theorem takeSign_append {cs : List Char} (h : cs ≠ []) (rest : List Char) :
    takeSign (cs ++ rest) = ((takeSign cs).1, (takeSign cs).2 ++ rest) := by
  obtain ⟨c, cs, rfl⟩ := List.exists_cons_of_ne_nil h
  by_cases hm : c = '-'
  · simp [takeSign, hm]
  · by_cases hp : c = '+'
    · simp [takeSign, hp]
    · simp [takeSign, hm, hp]

variable {rest cs r : List Char} {n : Number}

theorem readFraction?_append (hrest : Stops rest) {d : Digits} {p : Option (Nat × Int)}
    (h : readFraction? d cs = some (p, r)) :
    readFraction? d (cs ++ rest) = some (p, r ++ rest) := by
  cases cs with
  | nil =>
    obtain ⟨rfl, rfl⟩ : none = p ∧ [] = r := by simpa [readFraction?] using h
    cases rest with
    | nil => rfl
    | cons c rest => simp [readFraction?, (hrest c rfl).2.1]
  | cons c cs =>
    by_cases hc : c = '.'
    · subst hc
      simp only [readFraction?, List.cons_append, takeDigits_append cs hrest] at h ⊢
      split_ifs at h ⊢ with hempty
      simp only [Option.some.injEq, Prod.mk.injEq] at h ⊢
      exact ⟨h.1, by rw [h.2]⟩
    · obtain ⟨rfl, rfl⟩ : none = p ∧ c :: cs = r := by simpa [readFraction?, hc] using h
      simp [readFraction?, hc]

theorem readScale?_append (hrest : Stops rest) {minus : Bool} {d : Digits}
    {p : Option (Nat × Int)} (h : readScale? minus d p cs = some (n, r)) :
    readScale? minus d p (cs ++ rest) = some (n, r ++ rest) := by
  cases cs with
  | nil =>
    simp only [readScale?, Option.some.injEq, Prod.mk.injEq] at h
    obtain ⟨rfl, rfl⟩ := h
    cases rest with
    | nil => rfl
    | cons c rest => simp [readScale?, (hrest c rfl).2.2]
  | cons c cs =>
    by_cases hc : c = 'e' ∨ c = 'E'
    · have hne : cs ≠ [] := by
        rintro rfl
        simp [readScale?, hc, takeSign, takeDigits] at h
      simp only [List.cons_append, readScale?, hc, if_true, takeSign_append hne,
        takeDigits_append _ hrest] at h ⊢
      split_ifs at h ⊢ with hempty
      simp only [Option.some.injEq, Prod.mk.injEq] at h ⊢
      exact ⟨h.1, by rw [h.2]⟩
    · simp only [List.cons_append, readScale?, hc, if_false, Option.some.injEq,
        Prod.mk.injEq] at h ⊢
      obtain ⟨rfl, rfl⟩ := h
      simp

/-- A number is read the same in front of anything that cannot belong to it. -/
theorem read?_append (hrest : Stops rest) (h : read? cs = some (n, r)) :
    read? (cs ++ rest) = some (n, r ++ rest) := by
  have hne : cs ≠ [] := by
    rintro rfl
    simp [read?, takeMinus, takeDigits] at h
  simp only [read?, takeMinus_append hne, takeDigits_append _ hrest] at h ⊢
  split_ifs at h ⊢ with hwhole
  obtain ⟨p, hp, hscale⟩ := Option.bind_eq_some_iff.1 h
  rw [readFraction?_append hrest hp, Option.bind_some]
  exact readScale?_append hrest hscale

/-! Whole numbers -/

theorem ofDigits_append (ds : List Char) (c : Char) :
    ofDigits (ds ++ [c]) = 10 * ofDigits ds + (c.toNat - '0'.toNat) := by
  simp [ofDigits]

/-- Digits are collected as long as the number they spell fits. -/
theorem foldl_addWhole (ds : List Char) (h : ofDigits ds ≤ maxSignificand) :
    ds.foldl Digits.addWhole ⟨0, 0, false⟩ = ⟨ofDigits ds, 0, false⟩ := by
  induction ds using List.reverseRecOn with
  | nil => rfl
  | append_singleton ds c ih =>
    rw [ofDigits_append] at h ⊢
    have hfits : ¬ maxSignificand < 10 * ofDigits ds + (c.toNat - '0'.toNat) := by omega
    rw [List.foldl_append, ih (by omega)]
    simp only [List.foldl_cons, List.foldl_nil, Digits.addWhole, Bool.false_or, gt_iff_lt,
      decide_eq_true_eq, if_neg hfits]

theorem ofDigits_digitsOf (n : Nat) : ofDigits (digitsOf n) = n := by
  have h := @Nat.ofDigitChars_ten_toDigits n
  rwa [Nat.ofDigitChars_eq_foldl] at h

theorem isDigit_of_mem_digitsOf {n : Nat} {c : Char} (h : c ∈ digitsOf n) : c.isDigit = true :=
  Nat.isDigit_of_mem_toDigits (by decide) (by decide) h

theorem takeDigits_digitsOf (n : Nat) : takeDigits (digitsOf n) = (digitsOf n, []) := by
  rw [takeDigits, List.takeWhile_eq_self_iff.2 fun c => isDigit_of_mem_digitsOf,
    List.dropWhile_eq_nil_iff.2 fun c => isDigit_of_mem_digitsOf]

theorem head?_digitsOf {n : Nat} (h : 0 < n) : (digitsOf n).head? ≠ some '0' := by
  induction n using Nat.strongRecOn with
  | ind n ih =>
    by_cases hn : n < 10
    · rw [digitsOf, Nat.toDigits_of_lt_base hn]
      simp
      omega
    · have hhead := ih (n / 10) (by omega) (by omega)
      obtain ⟨c, ds, hds⟩ :=
        List.exists_cons_of_ne_nil (Nat.toDigits_ne_nil (n := n / 10) (b := 10))
      rw [digitsOf, hds] at hhead
      rw [digitsOf, Nat.toDigits_of_base_le (by decide) (by omega), hds]
      exact hhead

/-- Only the number zero starts with a zero. -/
theorem digitsOf_sound (n : Nat) :
    ¬ (digitsOf n = [] ∨ ((digitsOf n).head? = some '0' ∧ 1 < (digitsOf n).length)) := by
  rintro (hnil | ⟨hzero, hlong⟩)
  · exact Nat.toDigits_ne_nil hnil
  · obtain rfl : n = 0 := by
      by_contra hn
      exact head?_digitsOf (Nat.pos_of_ne_zero hn) hzero
    exact absurd hlong (by decide)

theorem takeMinus_digitsOf (n : Nat) : takeMinus (digitsOf n) = (false, digitsOf n) := by
  cases hds : digitsOf n with
  | nil => rfl
  | cons c ds =>
    have hc : c.isDigit = true := isDigit_of_mem_digitsOf (n := n) (by simp [hds])
    have hminus : c ≠ '-' := by rintro rfl; exact absurd hc (by decide)
    simp [takeMinus, hminus]

theorem faithful_natural {n : Nat} (h : n < twoTo 64) : (natural n).Faithful := by
  have hfits : ofDigits (digitsOf n) ≤ maxSignificand := by
    rw [ofDigits_digitsOf]
    exact Nat.le_of_lt_succ h
  rw [Faithful, write, String.toList_ofList, read?, takeMinus_digitsOf]
  simp only [takeDigits_digitsOf, if_neg (digitsOf_sound n), foldl_addWhole _ hfits,
    ofDigits_digitsOf, readFraction?, Option.bind_some, readScale?, finish, ofWhole]
  rfl

theorem faithful_negative {n : Int} (h : -(twoTo 63 : Int) ≤ n) (hn : n < 0) :
    (negative n).Faithful := by
  have hrange : twoTo 63 = 9223372036854775808 := rfl
  have hfits : ofDigits (digitsOf n.natAbs) ≤ maxSignificand := by
    rw [ofDigits_digitsOf, maxSignificand]
    omega
  have hwhole : ¬ (n.natAbs = 0 ∨ 9223372036854775808 < n.natAbs) := by omega
  have habs : -(n.natAbs : Int) = n := by omega
  rw [Faithful, write, String.toList_ofList, read?]
  simp only [takeMinus, takeDigits_digitsOf, if_neg (digitsOf_sound _), foldl_addWhole _ hfits,
    ofDigits_digitsOf, readFraction?, Option.bind_some, readScale?, finish, ofWhole, if_neg hwhole,
    habs]
  rfl

/-- A number starts with a minus sign or a digit. -/
theorem head_of_read? (h : read? cs = some (n, r)) :
    ∃ c tail, cs = c :: tail ∧ (c = '-' ∨ c.isDigit = true) := by
  cases cs with
  | nil => simp [read?, takeMinus, takeDigits] at h
  | cons c tail =>
    refine ⟨c, tail, rfl, ?_⟩
    by_contra hc
    obtain ⟨hminus, hdigit⟩ := not_or.1 hc
    simp [read?, takeMinus, takeDigits, hminus, hdigit] at h

end Number

/-! ## Values -/

theorem readValue?_number {cs r : List Char} {n : Number} (h : Number.read? cs = some (n, r))
    (fuel : Nat) : readValue? (fuel + 1) cs = some (number n, r) := by
  obtain ⟨c, tail, rfl, hc⟩ := Number.head_of_read? h
  have hother : ∀ d : Char, d ≠ '-' → d.isDigit = false → c ≠ d := by
    rintro d hminus hdigit rfl
    simp [hminus, hdigit] at hc
  have hgap : isGap c = false := by
    simp [isGap, hother ' ' (by decide) (by decide), hother '\t' (by decide) (by decide),
      hother '\n' (by decide) (by decide), hother '\r' (by decide) (by decide)]
  simp [readValue?, skipGaps_cons hgap, h, hother 'n' (by decide) (by decide),
    hother 't' (by decide) (by decide), hother 'f' (by decide) (by decide),
    hother '"' (by decide) (by decide), hother '[' (by decide) (by decide),
    hother '\x7b' (by decide) (by decide)]

theorem readValue?_newLine (fuel level : Nat) (cs : List Char) :
    readValue? fuel ((newLine level).toList ++ cs) = readValue? fuel cs := by
  cases fuel with
  | zero => rfl
  | succ fuel => simp only [readValue?, skipGaps_newLine]

theorem readValue?_blank (fuel : Nat) (cs : List Char) :
    readValue? fuel (' ' :: cs) = readValue? fuel cs := by
  cases fuel with
  | zero => rfl
  | succ fuel =>
    have hblank : skipGaps (' ' :: cs) = skipGaps cs := List.dropWhile_cons_of_pos (by decide)
    simp only [readValue?, hblank]

/-- No value starts with the end of a list. -/
theorem readValue?_bracket {cs r : List Char} (h : skipGaps cs = ']' :: r) (fuel : Nat) :
    readValue? fuel cs = none := by
  cases fuel with
  | zero => rfl
  | succ fuel =>
    have hnumber : Number.read? (']' :: r) = none := by
      simp [Number.read?, Number.takeMinus, takeDigits]
    simp [readValue?, h, hnumber]

/-- The text of a value, at any level and in front of anything that ends it, is read as that value
and no further.  Two calls for each character are enough. -/
def Reads (j : Json) : Prop :=
  ∀ level fuel rest, Stops rest → 2 * (writeAt level j).toList.length ≤ fuel →
    readValue? fuel ((writeAt level j).toList ++ rest) = some (j, rest)

theorem stops_newLine (level : Nat) (cs : List Char) : Stops ((newLine level).toList ++ cs) := by
  rw [newLine, String.toList_ofList]
  exact stops_cons (by decide) _

theorem stops_items (level outer : Nat) (js : List Json) (cs : List Char) :
    Stops ((writeItems level js).toList ++ ((newLine outer).toList ++ cs)) := by
  cases js with
  | nil =>
    rw [writeItems]
    exact stops_newLine outer cs
  | cons j js =>
    simp only [writeItems, String.toList_append, List.append_assoc]
    exact stops_cons (by decide) _

theorem stops_members (level outer : Nat) (ms : List (Option String × Json)) (cs : List Char) :
    Stops ((writeMembers level ms).toList ++ ((newLine outer).toList ++ cs)) := by
  cases ms with
  | nil =>
    rw [writeMembers]
    exact stops_newLine outer cs
  | cons m ms =>
    simp only [writeMembers, String.toList_append, List.append_assoc]
    exact stops_cons (by decide) _

theorem skipGaps_comma (cs : List Char) : skipGaps (',' :: cs) = ',' :: cs :=
  skipGaps_cons (by decide) cs

section Items

variable {j : Json} {cs after rest : List Char} {fuel : Nat}

theorem readItems?_comma (hvalue : readValue? fuel cs = some (j, after))
    (hafter : skipGaps after = ',' :: rest) (level : Nat) (done : List Json) :
    readItems? (fuel + 1) ((newLine level).toList ++ cs) done =
      readItems? fuel rest (j :: done) := by
  rw [readItems?, readValue?_newLine, hvalue]
  simp [hafter]

theorem readItems?_bracket (hvalue : readValue? fuel cs = some (j, after))
    (hafter : skipGaps after = ']' :: rest) (level : Nat) (done : List Json) :
    readItems? (fuel + 1) ((newLine level).toList ++ cs) done =
      some (done.reverse ++ [j], rest) := by
  rw [readItems?, readValue?_newLine, hvalue]
  simp [hafter]

end Items

/-- The items of a list are read up to its end. -/
theorem readItems?_written {j : Json} {js : List Json} (hj : j.Reads) (hjs : ∀ j ∈ js, j.Reads)
    (level outer : Nat) (rest : List Char) {fuel : Nat} (done : List Json)
    (hfuel : 2 * (writeAt level j).toList.length + 2 * (writeItems level js).toList.length < fuel) :
    readItems? fuel ((newLine level).toList ++ ((writeAt level j).toList ++
        ((writeItems level js).toList ++ ((newLine outer).toList ++ ']' :: rest)))) done =
      some (done.reverse ++ j :: js, rest) := by
  induction js generalizing j fuel done with
  | nil =>
    obtain ⟨fuel, rfl⟩ := Nat.exists_eq_add_one.2 (Nat.zero_lt_of_lt hfuel)
    have hvalue := hj level fuel _ (stops_items level outer [] (']' :: rest)) (by omega)
    refine readItems?_bracket hvalue ?_ level done
    rw [writeItems, String.toList_empty, List.nil_append, skipGaps_newLine,
      skipGaps_cons (by decide)]
  | cons j' js ih =>
    obtain ⟨fuel, rfl⟩ := Nat.exists_eq_add_one.2 (Nat.zero_lt_of_lt hfuel)
    have htext : (writeItems level (j' :: js)).toList = ',' :: ((newLine level).toList ++
        ((writeAt level j').toList ++ (writeItems level js).toList)) := by
      rw [writeItems]
      simp
    have hvalue := hj level fuel _ (stops_items level outer (j' :: js) (']' :: rest)) (by omega)
    have hshorter : 2 * (writeAt level j').toList.length
        + 2 * (writeItems level js).toList.length < fuel := by
      rw [htext] at hfuel
      simp only [List.length_cons, List.length_append] at hfuel
      omega
    have hrest := ih (hjs j' (by simp)) (fun j hj => hjs j (by simp [hj])) (j :: done) hshorter
    simp only [htext, List.append_assoc, List.cons_append] at hvalue ⊢
    rw [readItems?_comma hvalue (skipGaps_comma _) level done, hrest]
    simp

section Members

variable {k : String} {j : Json} {cs after rest : List Char} {fuel : Nat}

theorem readMembers?_comma (hvalue : readValue? fuel cs = some (j, after))
    (hafter : skipGaps after = ',' :: rest) (level : Nat) (done : List (Option String × Json)) :
    readMembers? (fuel + 1)
        ((newLine level).toList ++ ((writeText k).toList ++ (':' :: ' ' :: cs))) done =
      readMembers? fuel rest ((some k, j) :: done) := by
  rw [readMembers?, skipGaps_newLine]
  simp [toList_writeText, skipGaps_cons (c := '"') (by decide), readText?_escaped,
    skipGaps_cons (c := ':') (by decide), readValue?_blank, hvalue, hafter]

theorem readMembers?_brace (hvalue : readValue? fuel cs = some (j, after))
    (hafter : skipGaps after = '\x7d' :: rest) (level : Nat)
    (done : List (Option String × Json)) :
    readMembers? (fuel + 1)
        ((newLine level).toList ++ ((writeText k).toList ++ (':' :: ' ' :: cs))) done =
      some (done.reverse ++ [(some k, j)], rest) := by
  rw [readMembers?, skipGaps_newLine]
  simp [toList_writeText, skipGaps_cons (c := '"') (by decide), readText?_escaped,
    skipGaps_cons (c := ':') (by decide), readValue?_blank, hvalue, hafter]

end Members

/-- The members of an object are read up to its end. -/
theorem readMembers?_written {k : String} {j : Json} {ms : List (Option String × Json)}
    (hj : j.Reads) (hms : ∀ m ∈ ms, m.1.isSome = true ∧ m.2.Reads) (level outer : Nat)
    (rest : List Char) {fuel : Nat} (done : List (Option String × Json))
    (hfuel : 2 * (writeAt level j).toList.length + 2 * (writeMembers level ms).toList.length
      < fuel) :
    readMembers? fuel ((newLine level).toList ++ ((writeText k).toList ++ (':' :: ' ' ::
        ((writeAt level j).toList ++ ((writeMembers level ms).toList ++
          ((newLine outer).toList ++ '\x7d' :: rest)))))) done =
      some (done.reverse ++ (some k, j) :: ms, rest) := by
  induction ms generalizing k j fuel done with
  | nil =>
    obtain ⟨fuel, rfl⟩ := Nat.exists_eq_add_one.2 (Nat.zero_lt_of_lt hfuel)
    have hvalue := hj level fuel _ (stops_members level outer [] ('\x7d' :: rest)) (by omega)
    refine readMembers?_brace hvalue ?_ level done
    rw [writeMembers, String.toList_empty, List.nil_append, skipGaps_newLine,
      skipGaps_cons (by decide)]
  | cons m ms ih =>
    obtain ⟨fuel, rfl⟩ := Nat.exists_eq_add_one.2 (Nat.zero_lt_of_lt hfuel)
    obtain ⟨hname, hm⟩ := hms m (by simp)
    obtain ⟨k', hk'⟩ := Option.isSome_iff_exists.1 hname
    have hpair : m = (some k', m.2) := by rw [← hk']
    have htext : (writeMembers level (m :: ms)).toList = ',' :: ((newLine level).toList ++
        ((writeText k').toList ++ (':' :: ' ' :: ((writeAt level m.2).toList ++
          (writeMembers level ms).toList)))) := by
      rw [hpair, writeMembers]
      simp
    have hvalue := hj level fuel _ (stops_members level outer (m :: ms) ('\x7d' :: rest)) (by omega)
    have hshorter : 2 * (writeAt level m.2).toList.length
        + 2 * (writeMembers level ms).toList.length < fuel := by
      rw [htext] at hfuel
      simp only [List.length_cons, List.length_append] at hfuel
      omega
    have hrest := ih (k := k') hm (fun m hm => hms m (by simp [hm])) ((some k, j) :: done) hshorter
    simp only [htext, List.append_assoc, List.cons_append] at hvalue ⊢
    rw [readMembers?_comma hvalue (skipGaps_comma _) level done, hrest, ← hpair]
    simp

/-- A value without broken texts, all of whose numbers satisfy `P`. -/
inductive Whole (P : Number → Prop) : Json → Prop
  | null : Whole P null
  | bool (b : Bool) : Whole P (bool b)
  | number {n : Number} (h : P n) : Whole P (number n)
  | text (s : String) : Whole P (text (some s))
  | list {items : List Json} (h : ∀ j ∈ items, Whole P j) : Whole P (list items)
  | object {members : List (Option String × Json)} (hnames : ∀ m ∈ members, m.1.isSome = true)
      (h : ∀ m ∈ members, Whole P m.2) : Whole P (object members)

/-- A value whose text says all there is to it, since all numbers stand for themselves. -/
abbrev Legible : Json → Prop := Whole Number.Faithful

theorem reads_list {items : List Json} (h : ∀ j ∈ items, j.Reads) : (list items).Reads := by
  intro level fuel rest hrest hfuel
  cases items with
  | nil =>
    have htext : (writeAt level (list [])).toList = ['[', ']'] := by rw [writeAt]; rfl
    rw [htext] at hfuel ⊢
    obtain ⟨fuel, rfl⟩ := Nat.exists_eq_add_one.2 (Nat.lt_of_lt_of_le (by decide) hfuel)
    simp [readValue?, skipGaps_cons (c := '[') (by decide), skipGaps_cons (c := ']') (by decide)]
  | cons j js =>
    have htext : (writeAt level (list (j :: js))).toList = '[' :: ((newLine (level + 1)).toList ++
        ((writeAt (level + 1) j).toList ++ ((writeItems (level + 1) js).toList ++
          ((newLine level).toList ++ [']'])))) := by
      rw [writeAt]
      simp
    rw [htext] at hfuel ⊢
    simp only [List.length_cons, List.length_append] at hfuel
    obtain ⟨fuel, rfl⟩ := Nat.exists_eq_add_one.2 (Nat.lt_of_lt_of_le (by omega) hfuel)
    have hj : j.Reads := h j (by simp)
    have hjs : ∀ x ∈ js, x.Reads := fun x hx => h x (by simp [hx])
    have hshorter : 2 * (writeAt (level + 1) j).toList.length
        + 2 * (writeItems (level + 1) js).toList.length < fuel := by omega
    have hitems := readItems?_written hj hjs (level + 1) level rest [] hshorter
    -- The first item does not look like the end of the list, because it is read as a value.
    have hfirst := hj (level + 1) fuel _ (stops_items (level + 1) level js (']' :: rest)) (by omega)
    have hopen : ∀ r, skipGaps ((writeAt (level + 1) j).toList ++
        ((writeItems (level + 1) js).toList ++ ((newLine level).toList ++ ']' :: rest))) ≠
          ']' :: r := by
      intro r hr
      rw [readValue?_bracket hr] at hfirst
      cases hfirst
    simp only [List.cons_append, List.append_assoc, List.nil_append]
    rw [readValue?, skipGaps_cons (by decide)]
    simp [skipGaps_newLine, hitems]

theorem reads_object {members : List (Option String × Json)}
    (h : ∀ m ∈ members, m.1.isSome = true ∧ m.2.Reads) : (object members).Reads := by
  intro level fuel rest hrest hfuel
  cases members with
  | nil =>
    have htext : (writeAt level (object [])).toList = ['\x7b', '\x7d'] := by rw [writeAt]; rfl
    rw [htext] at hfuel ⊢
    obtain ⟨fuel, rfl⟩ := Nat.exists_eq_add_one.2 (Nat.lt_of_lt_of_le (by decide) hfuel)
    simp [readValue?, skipGaps_cons (c := '\x7b') (by decide),
      skipGaps_cons (c := '\x7d') (by decide)]
  | cons m ms =>
    obtain ⟨hname, hm⟩ := h m (by simp)
    obtain ⟨k, hk⟩ := Option.isSome_iff_exists.1 hname
    have hpair : m = (some k, m.2) := by rw [← hk]
    have htext : (writeAt level (object (m :: ms))).toList = '\x7b' ::
        ((newLine (level + 1)).toList ++ ((writeText k).toList ++ (':' :: ' ' ::
          ((writeAt (level + 1) m.2).toList ++ ((writeMembers (level + 1) ms).toList ++
            ((newLine level).toList ++ ['\x7d'])))))) := by
      rw [hpair, writeAt]
      simp
    rw [htext] at hfuel ⊢
    simp only [List.length_cons, List.length_append] at hfuel
    obtain ⟨fuel, rfl⟩ := Nat.exists_eq_add_one.2 (Nat.lt_of_lt_of_le (by omega) hfuel)
    have hshorter : 2 * (writeAt (level + 1) m.2).toList.length
        + 2 * (writeMembers (level + 1) ms).toList.length < fuel := by omega
    have hmembers := readMembers?_written (k := k) hm (fun x hx => h x (by simp [hx])) (level + 1)
      level rest [] hshorter
    rw [← hpair] at hmembers
    simp only [List.cons_append, List.append_assoc, List.nil_append]
    rw [readValue?, skipGaps_cons (by decide)]
    simp only [skipGaps_newLine, toList_writeText, List.cons_append,
      skipGaps_cons (c := '"') (by decide)] at hmembers ⊢
    simpa using hmembers

/-- A value without parts is read by one call, so all its text has to do is not to be empty. -/
theorem reads_leaf {j : Json} {c : Char} {cs : List Char}
    (htext : ∀ level, (writeAt level j).toList = c :: cs)
    (hread : ∀ fuel rest, Stops rest →
      readValue? (fuel + 1) (c :: cs ++ rest) = some (j, rest)) : j.Reads := by
  intro level fuel rest hrest hfuel
  rw [htext] at hfuel ⊢
  obtain ⟨fuel, rfl⟩ := Nat.exists_eq_add_one.2
    (Nat.lt_of_lt_of_le (by simp : 0 < 2 * (c :: cs).length) hfuel)
  exact hread fuel rest hrest

/-- Legible values are read back, wherever they stand. -/
theorem Legible.reads {j : Json} (h : j.Legible) : j.Reads := by
  induction h with
  | null =>
    have htext : ∀ level, (writeAt level Json.null).toList = ['n', 'u', 'l', 'l'] := by
      intro level; rw [writeAt]; rfl
    refine reads_leaf htext fun fuel rest _ => ?_
    simp [readValue?, skipGaps_cons (c := 'n') (by decide), afterWord?]
  | bool b =>
    cases b with
    | false =>
      have htext : ∀ level, (writeAt level (Json.bool false)).toList =
          ['f', 'a', 'l', 's', 'e'] := by
        intro level; rw [writeAt]; rfl
      refine reads_leaf htext fun fuel rest _ => ?_
      simp [readValue?, skipGaps_cons (c := 'f') (by decide), afterWord?]
    | true =>
      have htext : ∀ level, (writeAt level (Json.bool true)).toList = ['t', 'r', 'u', 'e'] := by
        intro level; rw [writeAt]; rfl
      refine reads_leaf htext fun fuel rest _ => ?_
      simp [readValue?, skipGaps_cons (c := 't') (by decide), afterWord?]
  | @number n hn =>
    obtain ⟨c, tail, htext, -⟩ := Number.head_of_read? hn
    refine reads_leaf (fun level => by rw [writeAt, htext]) fun fuel rest hrest => ?_
    rw [← htext]
    exact readValue?_number (Number.read?_append hrest hn) fuel
  | text s =>
    refine reads_leaf (fun level => by rw [writeAt, Option.getD_some, toList_writeText]) ?_
    intro fuel rest _
    simp [readValue?, skipGaps_cons (c := '"') (by decide), readText?_escaped]
  | list h ih => exact reads_list ih
  | object hnames h ih => exact reads_object fun m hm => ⟨hnames m hm, ih m hm⟩

/-- The text of a legible value is that value and nothing else. -/
theorem read?_write {j : Json} (h : j.Legible) : read? j.write = some j := by
  have hvalue := h.reads 0 (2 * j.write.toList.length + 2) [] (fun c hc => by simp at hc)
    (Nat.le_add_right _ _)
  rw [List.append_nil] at hvalue
  rw [read?]
  simp only [write] at hvalue ⊢
  rw [hvalue]
  rfl

end PulseFlow.Json
