/-
The order of binary numbers.

`Binary64.rank` places every number that is defined on a line, so that comparing two of them is
comparing their ranks.  Among defined numbers being better is therefore a strict weak order, for
either goal.  An undefined number is neither better nor worse than any other.
-/
import FuzzyForest.Direction
import Mathlib

namespace FuzzyForest

open Float.Model

namespace Binary64

/-! ### Ranks -/

/-- The place of a number: first its sign and size class, then its exponent, then its mantissa. -/
def rankOf : UnpackedFloat → ℤ ×ₗ ℤ ×ₗ ℤ
  | .notANumber => toLex (0, toLex (0, 0))
  | .infinity .negative => toLex (-2, toLex (0, 0))
  | .finite .negative m e _ => toLex (-1, toLex (-e, -m))
  | .zero _ => toLex (0, toLex (0, 0))
  | .finite .positive m e _ => toLex (1, toLex (e, m))
  | .infinity .positive => toLex (2, toLex (0, 0))

/-- The place of a number among all numbers. -/
def rank (x : Float) : ℤ ×ₗ ℤ ×ₗ ℤ := rankOf x.toModel.unpack

lemma then_eq_lt_iff {e f : ℤ} {m n : ℕ} :
    (compare e f).then (compare m n) = .lt ↔ e < f ∨ e = f ∧ m < n := by
  rw [Ordering.then_eq_lt, compare_lt_iff_lt, compare_eq_iff_eq, compare_lt_iff_lt]

lemma then_eq_gt_iff {e f : ℤ} {m n : ℕ} :
    (compare e f).then (compare m n) = .gt ↔ f < e ∨ e = f ∧ n < m := by
  rw [Ordering.then_eq_gt, compare_gt_iff_gt, compare_eq_iff_eq, compare_gt_iff_gt]

lemma then_isLE_iff {e f : ℤ} {m n : ℕ} :
    ((compare e f).then (compare m n)).isLE = true ↔ e < f ∨ e = f ∧ m ≤ n := by
  rw [Ordering.isLE_iff_eq_lt_or_eq_eq, then_eq_lt_iff, Ordering.then_eq_eq, compare_eq_iff_eq,
    compare_eq_iff_eq]
  omega

lemma then_isGE_iff {e f : ℤ} {m n : ℕ} :
    ((compare e f).then (compare m n)).isGE = true ↔ f < e ∨ e = f ∧ n ≤ m := by
  rw [Ordering.isGE_iff_eq_gt_or_eq_eq, then_eq_gt_iff, Ordering.then_eq_eq, compare_eq_iff_eq,
    compare_eq_iff_eq]
  omega

/-- Comparing two defined numbers is comparing their ranks. -/
lemma compare_eq_lt_iff {a b : UnpackedFloat} (ha : UnpackedFloat.isNaN a = false)
    (hb : UnpackedFloat.isNaN b = false) : a.compare b = some .lt ↔ rankOf a < rankOf b := by
  rcases a with (s | s) | _ | s | ⟨s | s, m, e, h⟩ <;>
    rcases b with (t | t) | _ | t | ⟨t | t, n, f, k⟩ <;>
    simp_all [UnpackedFloat.compare, rankOf, UnpackedFloat.isNaN, Prod.Lex.toLex_lt_toLex,
      then_eq_lt_iff, then_eq_gt_iff]
  rfl

/-- Defined numbers compare as equal if they have the same rank. -/
lemma compare_eq_eq_iff {a b : UnpackedFloat} (ha : UnpackedFloat.isNaN a = false)
    (hb : UnpackedFloat.isNaN b = false) : a.compare b = some .eq ↔ rankOf a = rankOf b := by
  rcases a with (s | s) | _ | s | ⟨s | s, m, e, h⟩ <;>
    rcases b with (t | t) | _ | t | ⟨t | t, n, f, k⟩ <;>
    simp_all [UnpackedFloat.compare, rankOf, UnpackedFloat.isNaN]
  all_goals rfl

/-- A defined number is at most another if its rank is. -/
lemma le_iff_rankOf_le {a b : UnpackedFloat} (ha : UnpackedFloat.isNaN a = false)
    (hb : UnpackedFloat.isNaN b = false) : a.le b = true ↔ rankOf a ≤ rankOf b := by
  rcases a with (s | s) | _ | s | ⟨s | s, m, e, h⟩ <;>
    rcases b with (t | t) | _ | t | ⟨t | t, n, f, k⟩ <;>
    simp_all [UnpackedFloat.le, UnpackedFloat.compare, rankOf, UnpackedFloat.isNaN,
      Prod.Lex.toLex_le_toLex, then_isLE_iff, then_isGE_iff]
  all_goals rfl

lemma compare_nan_left {a b : UnpackedFloat} (ha : UnpackedFloat.isNaN a = true) :
    a.compare b = none := by
  cases a <;> simp_all [UnpackedFloat.isNaN, UnpackedFloat.compare]

lemma compare_nan_right {a b : UnpackedFloat} (hb : UnpackedFloat.isNaN b = true) :
    a.compare b = none := by
  cases a <;> cases b <;> simp_all [UnpackedFloat.isNaN, UnpackedFloat.compare]

lemma lt_iff_compare {x y : Float} :
    x < y ↔ x.toModel.unpack.compare y.toModel.unpack = some .lt := by
  show decide (x.toModel.lt y.toModel = true) = true ↔ _
  rw [decide_eq_true_iff]
  exact beq_iff_eq

/-- What is smaller than some number is defined. -/
lemma isNaN_of_lt_left {x y : Float} (h : x < y) : x.isNaN = false := by
  by_contra hx
  rw [lt_iff_compare, compare_nan_left (eq_true_of_ne_false hx)] at h
  cases h

/-- What is larger than some number is defined. -/
lemma isNaN_of_lt_right {x y : Float} (h : x < y) : y.isNaN = false := by
  by_contra hy
  rw [lt_iff_compare, compare_nan_right (eq_true_of_ne_false hy)] at h
  cases h

/-- Among defined numbers the smaller one has the smaller rank. -/
theorem lt_iff_rank_lt {x y : Float} (hx : x.isNaN = false) (hy : y.isNaN = false) :
    x < y ↔ rank x < rank y :=
  lt_iff_compare.trans (compare_eq_lt_iff hx hy)

/-- Defined numbers are equal if they have the same rank. -/
theorem beq_iff_rank_eq {x y : Float} (hx : x.isNaN = false) (hy : y.isNaN = false) :
    (x == y) = true ↔ rank x = rank y := by
  rw [rank, rank, ← compare_eq_eq_iff hx hy]
  show x.toModel.beq y.toModel = true ↔ _
  exact beq_iff_eq

/-- Among defined numbers being at most another is not exceeding it. -/
theorem le_iff_not_lt {x y : Float} (hx : x.isNaN = false) (hy : y.isNaN = false) :
    x ≤ y ↔ ¬y < x := by
  rw [lt_iff_rank_lt hy hx, not_lt, rank, rank, ← le_iff_rankOf_le hx hy]
  show decide (x.toModel.le y.toModel = true) = true ↔ _
  rw [decide_eq_true_iff]
  rfl

/-- A number that compares with some number is defined. -/
lemma isNaN_of_le_right {x y : Float} (h : x ≤ y) : y.isNaN = false := by
  by_contra hy
  have hle : x.toModel.unpack.le y.toModel.unpack = true := of_decide_eq_true h
  rw [UnpackedFloat.le, compare_nan_right (eq_true_of_ne_false hy)] at hle
  cases hle

lemma isNaN_of_le_left {x y : Float} (h : x ≤ y) : x.isNaN = false := by
  by_contra hx
  have hle : x.toModel.unpack.le y.toModel.unpack = true := of_decide_eq_true h
  rw [UnpackedFloat.le, compare_nan_left (eq_true_of_ne_false hx)] at hle
  cases hle

lemma le_trans {x y z : Float} (hxy : x ≤ y) (hyz : y ≤ z) : x ≤ z := by
  have hx := isNaN_of_le_left hxy
  have hy := isNaN_of_le_right hxy
  have hz := isNaN_of_le_right hyz
  rw [le_iff_not_lt hx hy, lt_iff_rank_lt hy hx, not_lt] at hxy
  rw [le_iff_not_lt hy hz, lt_iff_rank_lt hz hy, not_lt] at hyz
  rw [le_iff_not_lt hx hz, lt_iff_rank_lt hz hx, not_lt]
  exact hxy.trans hyz

lemma lt_asymm {x y : Float} (h : x < y) : ¬y < x := by
  intro h'
  have hx := isNaN_of_lt_left h
  have hy := isNaN_of_lt_right h
  rw [lt_iff_rank_lt hx hy] at h
  rw [lt_iff_rank_lt hy hx] at h'
  exact h.asymm h'

/-- A defined number is above the smaller or below the larger of two numbers. -/
lemma lt_or_lt {x y z : Float} (hy : y.isNaN = false) (h : x < z) : x < y ∨ y < z := by
  have hx := isNaN_of_lt_left h
  have hz := isNaN_of_lt_right h
  rw [lt_iff_rank_lt hx hz] at h
  rw [lt_iff_rank_lt hx hy, lt_iff_rank_lt hy hz]
  rcases lt_or_ge (rank x) (rank y) with hxy | hyx
  · exact .inl hxy
  · exact .inr (hyx.trans_lt h)

end Binary64

/-! ### Goals -/

namespace Direction

/-- Of two numbers at most one is better. -/
theorem isBetter_asymm (d : Direction) {x y : Float} (h : d.isBetter x y = true) :
    d.isBetter y x = false := by
  cases d
  · exact decide_eq_false (Binary64.lt_asymm (of_decide_eq_true h))
  · exact decide_eq_false (Binary64.lt_asymm (of_decide_eq_true h))

/-- If one number is better than another, any defined number is worse than the first or better
than the second. -/
theorem isBetter_or_isBetter (d : Direction) {x y z : Float} (hy : y.isNaN = false)
    (h : d.isBetter x z = true) : d.isBetter x y = true ∨ d.isBetter y z = true := by
  cases d with
  | maximize =>
    rcases Binary64.lt_or_lt hy (of_decide_eq_true h) with h | h
    · exact .inr (decide_eq_true h)
    · exact .inl (decide_eq_true h)
  | minimize =>
    rcases Binary64.lt_or_lt hy (of_decide_eq_true h) with h | h
    · exact .inl (decide_eq_true h)
    · exact .inr (decide_eq_true h)

/-- What is better than some number is defined. -/
theorem isNaN_of_isBetter (d : Direction) {x y : Float} (h : d.isBetter x y = true) :
    x.isNaN = false := by
  cases d
  · exact Binary64.isNaN_of_lt_right (of_decide_eq_true h)
  · exact Binary64.isNaN_of_lt_left (of_decide_eq_true h)

/-- What some number is better than is defined. -/
theorem isNaN_of_isBetter_right (d : Direction) {x y : Float} (h : d.isBetter x y = true) :
    y.isNaN = false := by
  cases d
  · exact Binary64.isNaN_of_lt_left (of_decide_eq_true h)
  · exact Binary64.isNaN_of_lt_right (of_decide_eq_true h)

/-- Of two defined numbers one is better, or they are equal. -/
theorem isBetter_or_beq (d : Direction) {x y : Float} (hx : x.isNaN = false) (hy : y.isNaN = false) :
    d.isBetter x y = true ∨ d.isBetter y x = true ∨ (x == y) = true := by
  rw [Binary64.beq_iff_rank_eq hx hy]
  cases d <;> simp only [isBetter, decide_eq_true_eq, Binary64.lt_iff_rank_lt hx hy,
    Binary64.lt_iff_rank_lt hy hx]
  · rcases lt_trichotomy (Binary64.rank x) (Binary64.rank y) with h | h | h <;> simp [h]
  · rcases lt_trichotomy (Binary64.rank x) (Binary64.rank y) with h | h | h <;> simp [h]

/-- What is better is not equal. -/
theorem beq_eq_false_of_isBetter (d : Direction) {x y : Float} (h : d.isBetter x y = true) :
    (x == y) = false ∧ (y == x) = false := by
  have hx := d.isNaN_of_isBetter h
  have hy := d.isNaN_of_isBetter_right h
  have hne : Binary64.rank x ≠ Binary64.rank y := by
    cases d
    · exact ((Binary64.lt_iff_rank_lt hy hx).mp (of_decide_eq_true h)).ne'
    · exact ((Binary64.lt_iff_rank_lt hx hy).mp (of_decide_eq_true h)).ne
  exact ⟨eq_false_of_ne_true (mt (Binary64.beq_iff_rank_eq hx hy).mp hne),
    eq_false_of_ne_true (mt (Binary64.beq_iff_rank_eq hy hx).mp hne.symm)⟩

/-- Being better carries over, whatever the numbers. -/
theorem isBetter_trans (d : Direction) {x y z : Float} (hxy : d.isBetter x y = true)
    (hyz : d.isBetter y z = true) : d.isBetter x z = true := by
  refine (d.isBetter_or_isBetter (d.isNaN_of_isBetter_right hyz) hxy).resolve_right fun hzy => ?_
  rw [d.isBetter_asymm hyz] at hzy
  cases hzy

end Direction

end FuzzyForest
