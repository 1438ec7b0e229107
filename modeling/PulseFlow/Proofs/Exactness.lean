import PulseFlow.Logic.Basic

/-!
# Integers are exact or nothing

An operator on two integers gives the true result or `nan`, never a number that was cut down to 64
bits.  Sums, differences and products are `nan` exactly when they are out of range.  A quotient and
what it leaves are `nan` together: for a zero divisor, and for the one quotient that is too large.

    (ofInt n).Carries n                                                        (ofInt_carries)
    divideInts a b = nan ↔ Indivisible a b                                 (divideInts_eq_nan)
    moduloInts a b = nan ↔ Indivisible a b                                 (moduloInts_eq_nan)
-/

namespace PulseFlow

namespace Signal

variable {n : Int} {a b : Int64}

/-! ## Range -/

/-- The whole numbers that an integer signal can carry. -/
def InRange (n : Int) : Prop := Int64.minValue.toInt ≤ n ∧ n ≤ Int64.maxValue.toInt

/-- The signal is the integer `n`, or `nan` where there is no such integer. -/
structure Carries (s : Signal) (n : Int) : Prop where
  within : InRange n → ∃ v, s = int v ∧ v.toInt = n
  beyond : ¬ InRange n → s = nan

theorem inRange_iff : InRange n ↔ -9223372036854775808 ≤ n ∧ n ≤ 9223372036854775807 := by
  have hmin : Int64.minValue.toInt = -9223372036854775808 := by decide
  have hmax : Int64.maxValue.toInt = 9223372036854775807 := by decide
  rw [InRange, hmin, hmax]

theorem fitsInt_iff : FitsInt n ↔ InRange n := by
  rw [inRange_iff, FitsInt]
  omega

theorem inRange_toInt (v : Int64) : InRange v.toInt := ⟨v.minValue_le_toInt, v.toInt_le⟩

theorem ofInt_of_inRange (h : InRange n) : ∃ v, ofInt n = int v ∧ v.toInt = n := by
  have hfits := fitsInt_iff.2 h
  refine ⟨Int64.ofInt n, if_pos hfits, ?_⟩
  exact Int64.toInt_ofInt_of_le hfits.1 hfits.2

theorem ofInt_eq_nan : ofInt n = nan ↔ ¬ InRange n := by
  constructor
  · intro hnan h
    obtain ⟨v, hv, -⟩ := ofInt_of_inRange h
    cases hv.symm.trans hnan
  · exact fun h => if_neg fun hfits => h (fitsInt_iff.1 hfits)

theorem ofInt_carries (n : Int) : (ofInt n).Carries n := ⟨ofInt_of_inRange, ofInt_eq_nan.2⟩

theorem Carries.nan_or_int {s : Signal} (h : s.Carries n) :
    s = nan ∨ ∃ v, s = int v ∧ v.toInt = n := by
  by_cases hn : InRange n
  · exact .inr (h.within hn)
  · exact .inl (h.beyond hn)

/-! ## Division -/

/-- A quotient `q` toward zero and what is left of `a` then. -/
structure Divided (a b q r : Int) : Prop where
  whole : a = q * b + r
  small : r.natAbs < b.natAbs
  sign : r = 0 ∨ r.sign = a.sign

theorem divided_tdiv (a : Int) {b : Int} (hb : b ≠ 0) : Divided a b (a.tdiv b) (a.tmod b) where
  whole := (Int.tdiv_mul_add_tmod a b).symm
  small := by
    rw [Int.natAbs_tmod]
    exact Nat.mod_lt _ (Int.natAbs_pos.2 hb)
  sign := by
    rw [Int.sign_tmod]
    by_cases hdvd : b ∣ a
    · exact .inl (Int.tmod_eq_zero_of_dvd hdvd)
    · exact .inr (if_neg hdvd)

/-- Operands without a quotient that an integer signal can carry. -/
def Indivisible (a b : Int64) : Prop := b = 0 ∨ a = Int64.minValue ∧ b = -1

instance (a b : Int64) : Decidable (Indivisible a b) := inferInstanceAs (Decidable (_ ∨ _))

theorem toInt_eq_zero : b.toInt = 0 ↔ b = 0 := by
  rw [← Int64.toInt_zero, Int64.toInt_inj]

/-- From a divisor of two on, a quotient is at most half as large as the dividend; so only a divisor
of minus one can lead out of range, and only from the least integer. -/
theorem inRange_tdiv (hb : b ≠ 0) :
    InRange (a.toInt.tdiv b.toInt) ↔ ¬ (a = Int64.minValue ∧ b = -1) := by
  have hmin : a = Int64.minValue ↔ a.toInt = -9223372036854775808 := Int64.toInt_inj.symm
  have hone : b = -1 ↔ b.toInt = -1 := Int64.toInt_inj.symm
  have hzero : b.toInt ≠ 0 := fun h => hb (toInt_eq_zero.1 h)
  have ha := inRange_iff.1 (inRange_toInt a)
  rw [inRange_iff, hmin, hone]
  by_cases hneg : b.toInt = -1
  · rw [hneg, Int.tdiv_neg, Int.tdiv_one]
    omega
  · refine iff_of_true ?_ fun h => hneg h.2
    by_cases hpos : b.toInt = 1
    · rw [hpos, Int.tdiv_one]
      exact ha
    · have hhalf : (a.toInt.tdiv b.toInt).natAbs ≤ a.toInt.natAbs / 2 := by
        rw [Int.natAbs_tdiv]
        exact Nat.div_le_div_left (by omega) (by decide)
      omega

theorem divideInts_eq_nan : divideInts a b = nan ↔ Indivisible a b := by
  rw [divideInts, Indivisible]
  by_cases hb : b = 0
  · simp [hb]
  · rw [if_neg fun h => hb (toInt_eq_zero.1 h), ofInt_eq_nan, inRange_tdiv hb]
    simp [hb]

theorem divideInts_carries (hb : b ≠ 0) : (divideInts a b).Carries (a.toInt.tdiv b.toInt) := by
  rw [divideInts, if_neg fun h => hb (toInt_eq_zero.1 h)]
  exact ofInt_carries _

/-- What is left is smaller than the divisor, so it is always in range. -/
theorem inRange_tmod (hb : b ≠ 0) : InRange (a.toInt.tmod b.toInt) := by
  have hsmall := (divided_tdiv a.toInt fun h => hb (toInt_eq_zero.1 h)).small
  have hrange := inRange_iff.1 (inRange_toInt b)
  rw [inRange_iff]
  omega

theorem moduloInts_of_indivisible (h : Indivisible a b) : moduloInts a b = nan := by
  refine if_pos ?_
  by_cases hb : b = 0
  · exact .inl (toInt_eq_zero.2 hb)
  · refine .inr fun hfits => ?_
    exact (inRange_tdiv hb).1 (fitsInt_iff.1 hfits) (h.resolve_left hb)

theorem moduloInts_of_not_indivisible (h : ¬ Indivisible a b) :
    ∃ v, moduloInts a b = int v ∧ v.toInt = a.toInt.tmod b.toInt := by
  have hb : b ≠ 0 := fun hb => h (.inl hb)
  have hfits : FitsInt (a.toInt.tdiv b.toInt) :=
    fitsInt_iff.2 ((inRange_tdiv hb).2 fun hab => h (.inr hab))
  have hdefined : ¬ (b.toInt = 0 ∨ ¬ FitsInt (a.toInt.tdiv b.toInt)) := by
    rintro (hzero | hnot)
    · exact hb (toInt_eq_zero.1 hzero)
    · exact hnot hfits
  rw [moduloInts, if_neg hdefined]
  exact ofInt_of_inRange (inRange_tmod hb)

theorem moduloInts_eq_nan : moduloInts a b = nan ↔ Indivisible a b := by
  refine ⟨fun hnan => ?_, moduloInts_of_indivisible⟩
  refine Decidable.byContradiction fun h => ?_
  obtain ⟨v, hv, -⟩ := moduloInts_of_not_indivisible h
  cases hv.symm.trans hnan

theorem divideInts_of_not_indivisible (h : ¬ Indivisible a b) :
    ∃ v, divideInts a b = int v ∧ v.toInt = a.toInt.tdiv b.toInt := by
  have hb : b ≠ 0 := fun hb => h (.inl hb)
  exact (divideInts_carries hb).within ((inRange_tdiv hb).2 fun hab => h (.inr hab))

end Signal

namespace Operator

open Signal

/-- The true result of an operator, whether or not an integer signal can carry it. -/
def result : Operator → Int → Int → Int
  | add, a, b => a + b
  | subtract, a, b => a - b
  | multiply, a, b => a * b
  | divide, a, b => a.tdiv b
  | modulo, a, b => a.tmod b

/-- What the operators make of two integers. -/
structure Exact (a b : Int64) : Prop where
  sum : (add.apply (int a) (int b)).Carries (a.toInt + b.toInt)
  difference : (subtract.apply (int a) (int b)).Carries (a.toInt - b.toInt)
  product : (multiply.apply (int a) (int b)).Carries (a.toInt * b.toInt)
  /-- Quotient and remainder are missing for the same operands. -/
  quotient : divide.apply (int a) (int b) = nan ↔ Indivisible a b
  remainder : modulo.apply (int a) (int b) = nan ↔ Indivisible a b
  divided : ¬ Indivisible a b → ∃ q r : Int64, divide.apply (int a) (int b) = int q ∧
    modulo.apply (int a) (int b) = int r ∧ Divided a.toInt b.toInt q.toInt r.toInt
  /-- So every operator has an answer, and an integer that it answers is the true result. -/
  answer : ∀ op : Operator, op.apply (int a) (int b) = nan ∨
    ∃ v : Int64, op.apply (int a) (int b) = int v ∧ v.toInt = op.result a.toInt b.toInt

theorem divided_of_not_indivisible {a b : Int64} (h : ¬ Indivisible a b) :
    ∃ q r : Int64, divideInts a b = int q ∧ moduloInts a b = int r ∧
      Divided a.toInt b.toInt q.toInt r.toInt := by
  obtain ⟨q, hq, hq'⟩ := divideInts_of_not_indivisible h
  obtain ⟨r, hr, hr'⟩ := moduloInts_of_not_indivisible h
  refine ⟨q, r, hq, hr, ?_⟩
  rw [hq', hr']
  exact divided_tdiv a.toInt fun hb => h (.inl (toInt_eq_zero.1 hb))

theorem apply_ints (op : Operator) (a b : Int64) : op.apply (int a) (int b) = nan ∨
    ∃ v : Int64, op.apply (int a) (int b) = int v ∧ v.toInt = op.result a.toInt b.toInt := by
  cases op with
  | add => exact (ofInt_carries _).nan_or_int
  | subtract => exact (ofInt_carries _).nan_or_int
  | multiply => exact (ofInt_carries _).nan_or_int
  | divide =>
    by_cases h : Indivisible a b
    · exact .inl (divideInts_eq_nan.2 h)
    · exact .inr (divideInts_of_not_indivisible h)
  | modulo =>
    by_cases h : Indivisible a b
    · exact .inl (moduloInts_eq_nan.2 h)
    · exact .inr (moduloInts_of_not_indivisible h)

theorem apply_ints_exact (a b : Int64) : Exact a b where
  sum := ofInt_carries _
  difference := ofInt_carries _
  product := ofInt_carries _
  quotient := divideInts_eq_nan
  remainder := moduloInts_eq_nan
  divided := divided_of_not_indivisible
  answer := fun op => apply_ints op a b

end Operator

end PulseFlow
