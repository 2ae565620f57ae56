/-
Exact arithmetic.

The definitions that the program runs in binary floating point are read here with real numbers.  An
exact number carries along whether it is defined: no division by zero and no root of a negative
number has gone into it.  A number that is defined after all has therefore met no such operation on
its way.  What is computed from truth degrees is bounded by comparing a part with its whole.
-/
import FuzzyForest.Scoring.ErrorRates
import Mathlib

namespace FuzzyForest

/-- A real number and whether it is defined. -/
structure Exact where
  value : ℝ
  /-- Nothing that has no value has gone into the number. -/
  defined : Prop

/-- The operations of real numbers.  Every operand is part of the result, also where the result is
one of the operands. -/
noncomputable instance : Scalar Exact where
  add x y := ⟨x.value + y.value, x.defined ∧ y.defined⟩
  sub x y := ⟨x.value - y.value, x.defined ∧ y.defined⟩
  mul x y := ⟨x.value * y.value, x.defined ∧ y.defined⟩
  div x y := ⟨x.value / y.value, x.defined ∧ y.defined ∧ y.value ≠ 0⟩
  lt x y := x.value < y.value
  beq x y := @decide (x.value = y.value) (Classical.propDecidable _)
  decideLT _ _ := Classical.propDecidable _
  ofNat n := ⟨n, True⟩
  least x y := ⟨min x.value y.value, x.defined ∧ y.defined⟩
  greatest x y := ⟨max x.value y.value, x.defined ∧ y.defined⟩
  root x := ⟨√x.value, x.defined ∧ 0 ≤ x.value⟩
  emptySum := ⟨0, True⟩
  isUndefined x := @decide (¬x.defined) (Classical.propDecidable _)
  isUnbounded _ := false

namespace Exact

open Scalar

variable {x y z : Exact}

section Operations

@[simp] lemma value_add : (x + y).value = x.value + y.value := rfl
@[simp] lemma value_sub : (x - y).value = x.value - y.value := rfl
@[simp] lemma value_mul : (x * y).value = x.value * y.value := rfl
@[simp] lemma value_div : (x / y).value = x.value / y.value := rfl
@[simp] lemma value_ofNat (n : ℕ) : (ofNat n : Exact).value = n := rfl
@[simp] lemma value_least : (least x y).value = min x.value y.value := rfl
@[simp] lemma value_greatest : (greatest x y).value = max x.value y.value := rfl
@[simp] lemma value_root : (root x).value = √x.value := rfl
@[simp] lemma value_emptySum : (emptySum : Exact).value = 0 := rfl

@[simp] lemma defined_add : (x + y).defined ↔ x.defined ∧ y.defined := Iff.rfl
@[simp] lemma defined_sub : (x - y).defined ↔ x.defined ∧ y.defined := Iff.rfl
@[simp] lemma defined_mul : (x * y).defined ↔ x.defined ∧ y.defined := Iff.rfl
@[simp] lemma defined_div : (x / y).defined ↔ x.defined ∧ y.defined ∧ y.value ≠ 0 := Iff.rfl
@[simp] lemma defined_ofNat (n : ℕ) : (ofNat n : Exact).defined := trivial
@[simp] lemma defined_least : (least x y).defined ↔ x.defined ∧ y.defined := Iff.rfl
@[simp] lemma defined_greatest : (greatest x y).defined ↔ x.defined ∧ y.defined := Iff.rfl
@[simp] lemma defined_root : (root x).defined ↔ x.defined ∧ 0 ≤ x.value := Iff.rfl
@[simp] lemma defined_emptySum : (emptySum : Exact).defined := trivial

lemma lt_iff : x < y ↔ x.value < y.value := Iff.rfl

lemma beq_iff : (x == y) = true ↔ x.value = y.value :=
  @decide_eq_true_iff (x.value = y.value) (Classical.propDecidable _)

end Operations

/-! ### Parts -/

/-- A part of something, both of them defined. -/
structure Within (part whole : Exact) : Prop where
  part_defined : part.defined
  whole_defined : whole.defined
  nonneg : 0 ≤ part.value
  le : part.value ≤ whole.value

/-- A truth degree: a part of one. -/
def IsDegree (x : Exact) : Prop := x.Within (ofNat 1)

lemma isDegree_iff : x.IsDegree ↔ x.defined ∧ 0 ≤ x.value ∧ x.value ≤ 1 := by
  constructor
  · intro h
    exact ⟨h.part_defined, h.nonneg, by simpa using h.le⟩
  · rintro ⟨hdefined, hnonneg, hle⟩
    exact ⟨hdefined, defined_ofNat 1, hnonneg, by simpa using hle⟩

namespace IsDegree

lemma defined (h : x.IsDegree) : x.defined := h.part_defined

lemma nonneg (h : x.IsDegree) : 0 ≤ x.value := Within.nonneg h

lemma le_one (h : x.IsDegree) : x.value ≤ 1 := (isDegree_iff.mp h).2.2

end IsDegree

/-- All of a degree is a part of it. -/
lemma IsDegree.within_self (h : x.IsDegree) : x.Within x :=
  ⟨h.defined, h.defined, h.nonneg, le_refl _⟩

lemma isDegree_zero : (ofNat 0 : Exact).IsDegree := isDegree_iff.mpr (by simp)

lemma isDegree_one : (ofNat 1 : Exact).IsDegree := isDegree_iff.mpr (by simp)

/-- What a degree lacks of one is a degree. -/
lemma IsDegree.complement (h : x.IsDegree) : (ofNat 1 - x).IsDegree := by
  have hle := h.le_one
  refine isDegree_iff.mpr ⟨by simp [h.defined], ?_, ?_⟩
  · simpa using hle
  · simpa using h.nonneg

namespace Within

/-- Parts add up to a part of what the wholes add up to. -/
lemma add {part part' whole whole' : Exact} (h : Within part whole) (h' : Within part' whole') :
    Within (part + part') (whole + whole') where
  part_defined := ⟨h.part_defined, h'.part_defined⟩
  whole_defined := ⟨h.whole_defined, h'.whole_defined⟩
  nonneg := add_nonneg h.nonneg h'.nonneg
  le := add_le_add h.le h'.le

/-- Sums of parts, term by term. -/
lemma foldl {β : Type} {part whole : β → Exact} {xs : List β}
    (hxs : ∀ x ∈ xs, Within (part x) (whole x)) {a b : Exact} (hab : Within a b) :
    Within (xs.foldl (fun s x => s + part x) a) (xs.foldl (fun s x => s + whole x) b) := by
  induction xs generalizing a b with
  | nil => exact hab
  | cons x xs ih =>
    obtain ⟨hx, hxs⟩ := List.forall_mem_cons.mp hxs
    exact ih hxs (hab.add hx)

/-- A part divided by its whole is a degree, unless the whole is nothing. -/
lemma div {part whole : Exact} (h : Within part whole) (hpos : 0 < whole.value) :
    (part / whole).IsDegree := by
  refine isDegree_iff.mpr ⟨⟨h.part_defined, h.whole_defined, hpos.ne'⟩, ?_, ?_⟩
  · exact div_nonneg h.nonneg hpos.le
  · exact (div_le_one hpos).mpr h.le

end Within

/-- As many ones as there are terms add up to their number. -/
lemma value_foldl_one {β : Type} (xs : List β) (a : Exact) :
    (xs.foldl (fun s _ => s + ofNat 1) a).value = a.value + xs.length := by
  induction xs generalizing a with
  | nil => simp
  | cons x xs ih =>
    rw [List.foldl_cons, ih, value_add, value_ofNat, List.length_cons]
    push_cast
    ring

/-- The mean of degrees is a degree. -/
lemma isDegree_mean {β : Type} {degree : β → Exact} {xs : List β} (hne : 0 < xs.length)
    (hxs : ∀ x ∈ xs, (degree x).IsDegree) :
    (xs.foldl (fun s x => s + degree x) (ofNat 0) / ofNat xs.length).IsDegree := by
  have hsum := Within.foldl hxs isDegree_zero.within_self
  have htotal := value_foldl_one xs (ofNat 0)
  rw [value_ofNat, Nat.cast_zero, zero_add] at htotal
  have hwithin : Within (xs.foldl (fun s x => s + degree x) (ofNat 0)) (ofNat xs.length) := by
    refine ⟨hsum.part_defined, trivial, hsum.nonneg, ?_⟩
    rw [value_ofNat, ← htotal]
    exact hsum.le
  refine hwithin.div ?_
  rw [value_ofNat]
  exact_mod_cast hne

end Exact

end FuzzyForest
