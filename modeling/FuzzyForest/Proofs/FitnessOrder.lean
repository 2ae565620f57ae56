/-
Lower error rates are never punished.

In exact arithmetic no scheme gives less for lower error rates, and a scheme gives one for no error
alone.  The F-measure is patched where precision and recall are both zero; it is zero already where
one of them is, so that the patch fits in.  A longer forest is given no more than a shorter one,
also if only the longer one is beyond its budget.
-/
import FuzzyForest.Proofs.UnitInterval

namespace FuzzyForest

open Scalar Exact

/-! ### The F-measure -/

section FMeasure

variable {b x y x' y' : ℝ}

/-- The F-measure of precision `x` and recall `y`, where recall counts `b` times as much. -/
noncomputable def fMeasure (b x y : ℝ) : ℝ := (1 + b) * x * y / (b * x + y)

/-- Unless both are zero, precision and recall have a mean. -/
lemma fMeasure_denominator_pos (hb : 0 < b) (hx : 0 ≤ x) (hy : 0 ≤ y) (hne : b * x + y ≠ 0) :
    0 < b * x + y :=
  lt_of_le_of_ne (add_nonneg (mul_nonneg hb.le hx) hy) hne.symm

/-- The F-measure grows with precision and recall. -/
lemma fMeasure_mono (hb : 0 < b) (hx' : 0 ≤ x') (hy' : 0 ≤ y') (hx : x' ≤ x) (hy : y' ≤ y) :
    fMeasure b x' y' ≤ fMeasure b x y := by
  have hx0 : 0 ≤ x := hx'.trans hx
  have hy0 : 0 ≤ y := hy'.trans hy
  by_cases hzero : b * x' + y' = 0
  · -- nothing divided by nothing is the least value
    rw [fMeasure, hzero, div_zero]
    exact div_nonneg (by positivity) (by positivity)
  · have hpos' := fMeasure_denominator_pos hb hx' hy' hzero
    have hpos : 0 < b * x + y :=
      hpos'.trans_le (add_le_add (mul_le_mul_of_nonneg_left hx hb.le) hy)
    have hrecall : b * (x * x') * y' ≤ b * (x * x') * y :=
      mul_le_mul_of_nonneg_left hy (by positivity)
    have hprecision : y * y' * x' ≤ y * y' * x := mul_le_mul_of_nonneg_left hx (by positivity)
    rw [fMeasure, fMeasure, div_le_div_iff₀ hpos' hpos]
    calc (1 + b) * x' * y' * (b * x + y)
        = (1 + b) * (b * (x * x') * y' + y * y' * x') := by ring
      _ ≤ (1 + b) * (b * (x * x') * y + y * y' * x) :=
          mul_le_mul_of_nonneg_left (add_le_add hrecall hprecision) (by positivity)
      _ = (1 + b) * x * y * (b * x' + y') := by ring

/-- Only full precision and full recall make a full F-measure. -/
lemma fMeasure_eq_one_iff (hb : 0 < b) (hx : 0 ≤ x) (hy : 0 ≤ y) (hx1 : x ≤ 1) (hy1 : y ≤ 1) :
    fMeasure b x y = 1 ↔ x = 1 ∧ y = 1 := by
  constructor
  · intro h
    have hne : b * x + y ≠ 0 := by
      intro hzero
      rw [fMeasure, hzero, div_zero] at h
      exact zero_ne_one h
    have hpos := fMeasure_denominator_pos hb hx hy hne
    rw [fMeasure, div_eq_one_iff_eq hne] at h
    -- what recall and precision lack is weighted with the other one
    have hrecall : 0 ≤ b * x * (1 - y) := mul_nonneg (mul_nonneg hb.le hx) (by linarith)
    have hprecision : 0 ≤ y * (1 - x) := mul_nonneg hy (by linarith)
    have hsum : b * x * (1 - y) + y * (1 - x) = 0 := by linarith
    obtain ⟨hfirst, hsecond⟩ := (add_eq_zero_iff_of_nonneg hrecall hprecision).mp hsum
    rcases mul_eq_zero.mp hfirst with hx0 | hy1
    · -- without precision there is no recall either
      have hx0 : x = 0 := (mul_eq_zero.mp hx0).resolve_left hb.ne'
      rw [hx0, sub_zero, mul_one] at hsecond
      exact absurd (by rw [hx0, hsecond, mul_zero, add_zero]) hne
    · have hy1 : y = 1 := by linarith
      rw [hy1, one_mul] at hsecond
      exact ⟨by linarith, hy1⟩
  · rintro ⟨rfl, rfl⟩
    rw [fMeasure, mul_one, mul_one, mul_one, add_comm, div_self (by positivity)]

end FMeasure

/-! ### Schemes -/

section Schemes

variable {p1 p2 p1' p2' beta : Exact}

/-- The patched values are those of the F-measure. -/
lemma value_fScore (h1 : p1.IsDegree) (h2 : p2.IsDegree) (hbeta : 0 < beta.value) :
    (FitnessScheme.fScore.combine p1 p2 beta).value
      = fMeasure (beta.value * beta.value) (1 - p1.value) (1 - p2.value) := by
  have hsquare : 0 < beta.value * beta.value := mul_pos hbeta hbeta
  have hprecision : 0 ≤ 1 - p1.value := sub_nonneg.mpr h1.le_one
  have hrecall : 0 ≤ 1 - p2.value := sub_nonneg.mpr h2.le_one
  simp only [FitnessScheme.combine]
  split
  · rename_i hzero
    rw [beq_iff] at hzero
    simp only [value_add, value_sub, value_ofNat, Nat.cast_one, Nat.cast_zero] at hzero
    obtain ⟨hx, hy⟩ := (add_eq_zero_iff_of_nonneg hprecision hrecall).mp hzero
    simp [fMeasure, hx, hy]
  · split
    · rename_i hzero
      rw [beq_iff] at hzero
      simp only [value_add, value_mul, value_sub, value_ofNat, Nat.cast_one, Nat.cast_zero] at hzero
      rw [fMeasure, hzero, div_zero, value_ofNat, Nat.cast_zero]
    · simp [fMeasure]

lemma value_weightedAverage : (FitnessScheme.weightedAverage.combine p1 p2 beta).value
    = 1 - (beta.value * p1.value + p2.value) / (beta.value + 1) := by
  simp [FitnessScheme.combine]

lemma value_penalizedEuclidean : (FitnessScheme.penalizedEuclidean.combine p1 p2 beta).value
    = max (1 - √(20 * p2.value * (20 * p2.value) + p1.value * p1.value)) 0 := by
  simp [FitnessScheme.combine]

/-- No scheme gives less for lower error rates. -/
theorem combine_antitone (scheme : FitnessScheme) (h1 : p1.IsDegree) (h2 : p2.IsDegree)
    (h1' : p1'.IsDegree) (h2' : p2'.IsDegree) (hbeta : 0 < beta.value)
    (hle1 : p1.value ≤ p1'.value) (hle2 : p2.value ≤ p2'.value) :
    (scheme.combine p1' p2' beta).value ≤ (scheme.combine p1 p2 beta).value := by
  have hp1 := h1.nonneg
  have hp2 := h2.nonneg
  have hp1' := h1'.nonneg
  have hp2' := h2'.nonneg
  cases scheme with
  | fScore =>
    rw [value_fScore h1' h2' hbeta, value_fScore h1 h2 hbeta]
    exact fMeasure_mono (mul_pos hbeta hbeta) (sub_nonneg.mpr h1'.le_one)
      (sub_nonneg.mpr h2'.le_one) (sub_le_sub_left hle1 1) (sub_le_sub_left hle2 1)
  | weightedAverage =>
    rw [value_weightedAverage, value_weightedAverage]
    gcongr
  | penalizedEuclidean =>
    rw [value_penalizedEuclidean, value_penalizedEuclidean]
    gcongr

/-- A scheme gives one for no error alone. -/
theorem combine_eq_one_iff (scheme : FitnessScheme) (h1 : p1.IsDegree) (h2 : p2.IsDegree)
    (hbeta : 0 < beta.value) :
    (scheme.combine p1 p2 beta).value = 1 ↔ p1.value = 0 ∧ p2.value = 0 := by
  have hp1 := h1.nonneg
  have hp2 := h2.nonneg
  cases scheme with
  | fScore =>
    rw [value_fScore h1 h2 hbeta, fMeasure_eq_one_iff (mul_pos hbeta hbeta)
      (sub_nonneg.mpr h1.le_one) (sub_nonneg.mpr h2.le_one) (sub_le_self 1 hp1) (sub_le_self 1 hp2),
      sub_eq_self, sub_eq_self]
  | weightedAverage =>
    have htotal : beta.value + 1 ≠ 0 := by positivity
    rw [value_weightedAverage, sub_eq_self, div_eq_zero_iff, or_iff_left htotal,
      add_eq_zero_iff_of_nonneg (mul_nonneg hbeta.le hp1) hp2, mul_eq_zero, or_iff_right hbeta.ne']
  | penalizedEuclidean =>
    -- the maximum is one where the distance is zero
    have hmax (r : ℝ) : max (1 - r) 0 = 1 ↔ r = 0 := by
      constructor
      · intro h
        rcases max_choice (1 - r) 0 with hr | hr <;> rw [hr] at h
        · linarith
        · exact absurd h zero_ne_one
      · rintro rfl
        simp
    rw [value_penalizedEuclidean, hmax, Real.sqrt_eq_zero (by positivity),
      add_eq_zero_iff_of_nonneg (by positivity) (by positivity), mul_self_eq_zero,
      mul_self_eq_zero, mul_eq_zero, or_iff_right (by norm_num), and_comm]

end Schemes

/-! ### Length -/

/-- A fitness is divided by the share of the budget that is used, at least by one. -/
lemma value_parsimony (fitness : Exact) (length budget : ℕ) :
    (parsimony fitness length budget).value
      = fitness.value / max 1 ((length : ℝ) / (budget : ℝ)) := by
  rw [parsimony]
  split
  · rename_i h
    have hbudget : (0 : ℝ) < budget := by exact_mod_cast h.1
    have hlt : (budget : ℝ) < length := by exact_mod_cast h.2
    rw [max_eq_right ((one_le_div hbudget).mpr hlt.le)]
    rfl
  · rename_i h
    rcases Nat.eq_zero_or_pos budget with rfl | hpos
    · simp
    · have hbudget : (0 : ℝ) < budget := by exact_mod_cast hpos
      have hle : (length : ℝ) ≤ budget := by exact_mod_cast not_lt.mp fun hlt => h ⟨hpos, hlt⟩
      rw [max_eq_left ((div_le_one hbudget).mpr hle), div_one]

/-- A longer forest is given no more than a shorter one. -/
theorem parsimony_antitone {fitness : Exact} (hfitness : 0 ≤ fitness.value) {length length' : ℕ}
    (budget : ℕ) (h : length ≤ length') :
    (parsimony fitness length' budget).value ≤ (parsimony fitness length budget).value := by
  rw [value_parsimony, value_parsimony]
  gcongr

/-- A budget that is exceeded is not divided by nothing. -/
lemma defined_parsimony {fitness : Exact} (h : fitness.defined) (length budget : ℕ) :
    (parsimony fitness length budget).defined := by
  rw [parsimony]
  split
  · rename_i hbudget
    have hpos : (0 : ℝ) < budget := by exact_mod_cast hbudget.1
    have hlength : (0 : ℝ) < length := by exact_mod_cast hbudget.1.trans hbudget.2
    exact ⟨h, ⟨trivial, trivial, hpos.ne'⟩, (div_pos hlength hpos).ne'⟩
  · exact h

/-- **Lower error rates are never punished, nor are shorter forests.**  Under every scheme the
fitness of lower error rates is defined and no less than that of higher ones, and it is one for no
error alone.  What is made of a fitness for a shorter forest is no less than for a longer one. -/
theorem fitness_antitone :
    (∀ (scheme : FitnessScheme) (p1 p2 p1' p2' beta : Exact), p1.IsDegree → p2.IsDegree →
        p1'.IsDegree → p2'.IsDegree → beta.defined → 0 < beta.value →
        p1.value ≤ p1'.value → p2.value ≤ p2'.value →
      (scheme.combine p1 p2 beta).defined ∧
        (scheme.combine p1' p2' beta).value ≤ (scheme.combine p1 p2 beta).value ∧
        ((scheme.combine p1 p2 beta).value = 1 ↔ p1.value = 0 ∧ p2.value = 0)) ∧
    ∀ (fitness : Exact) (length length' budget : ℕ), fitness.defined → 0 ≤ fitness.value →
        length ≤ length' →
      (parsimony fitness length budget).defined ∧
        (parsimony fitness length' budget).value ≤ (parsimony fitness length budget).value := by
  constructor
  · intro scheme p1 p2 p1' p2' beta h1 h2 h1' h2' hdefined hbeta hle1 hle2
    exact ⟨(isDegree_combine scheme h1 h2 hdefined hbeta).defined,
      combine_antitone scheme h1 h2 h1' h2' hbeta hle1 hle2, combine_eq_one_iff scheme h1 h2 hbeta⟩
  · intro fitness length length' budget hdefined hfitness hle
    exact ⟨defined_parsimony hdefined length budget, parsimony_antitone hfitness budget hle⟩

/-- The F-measure is patched for the higher rates, and the longer forest is beyond its budget. -/
theorem fitness_antitone_patched :
    let half : Exact := ⟨1 / 2, True⟩
    let two : Exact := ofNat 2
    (FitnessScheme.fScore.combine (ofNat 1) (ofNat 1) two).value
      ≤ (FitnessScheme.fScore.combine half (ofNat 0) two).value ∧
      (FitnessScheme.fScore.combine half (ofNat 0) two).value ≠ 1 ∧
      (parsimony half 9 4).value ≤ (parsimony half 3 4).value := by
  intro half two
  have hhalf : half.IsDegree := isDegree_iff.mpr ⟨trivial, by norm_num [half], by norm_num [half]⟩
  obtain ⟨-, hle, hone⟩ := fitness_antitone.1 .fScore half (ofNat 0) (ofNat 1) (ofNat 1) two
    hhalf isDegree_zero isDegree_one isDegree_one trivial (by simp [two]) (by norm_num [half])
    (by simp)
  refine ⟨hle, fun h => ?_, (fitness_antitone.2 half 3 9 4 trivial hhalf.nonneg (by decide)).2⟩
  have hzero : half.value = 0 := (hone.mp h).1
  norm_num [half] at hzero

end FuzzyForest
