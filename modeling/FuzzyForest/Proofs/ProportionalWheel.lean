/-
Sectors are chosen in proportion to their width.

The wheel is read here in exact arithmetic with infinities, in which a fitness of zero can make a
sector wider than any number.  Where no sector is, and the widths have a sum above zero, a turn ends
in the one sector that begins at or before it and ends behind it.  A sector without width is never
chosen, and the last sector is not chosen for want of another one.  The main results are

* `Wheel.sectorAt?_number_eq_some_iff`: what the scan finds, by the widths before a sector;
* `Population.spin_proportional`: what a spin chooses, for either goal;
* `Wheel.volume_turns`: how many of all turns choose a sector.
-/
import FuzzyForest.Population.Basic
import Mathlib

namespace FuzzyForest

/-- A real number, an infinity, or the result of an operation that has no value. -/
inductive Extended
  | value (x : EReal)
  | undefined

namespace Extended

/-- A real number. -/
def number (x : ℝ) : Extended := value x

/-- A value beyond all numbers. -/
def IsInfinite (x : EReal) : Prop := x = ⊤ ∨ x = ⊥

open Classical in
/-- The operations on values that have no result are those on infinities that no limit determines,
and the division of zero by zero. -/
noncomputable instance : Scalar Extended where
  add
    | value x, value y => if IsInfinite x ∧ y = -x then undefined else value (x + y)
    | _, _ => undefined
  sub
    | value x, value y => if IsInfinite x ∧ y = x then undefined else value (x - y)
    | _, _ => undefined
  mul
    | value x, value y =>
      if IsInfinite x ∧ y = 0 ∨ x = 0 ∧ IsInfinite y then undefined else value (x * y)
    | _, _ => undefined
  div
    | value x, value y =>
      if IsInfinite x ∧ IsInfinite y ∨ x = 0 ∧ y = 0 then undefined
      else if y = 0 then value (if 0 < x then ⊤ else ⊥) else value (x / y)
    | _, _ => undefined
  lt
    | value x, value y => x < y
    | _, _ => False
  beq
    | value x, value y => decide (x = y)
    | _, _ => false
  decideLT _ _ := propDecidable _
  ofNat n := number n
  least
    | value x, value y => value (min x y)
    | x, undefined => x
    | undefined, y => y
  greatest
    | value x, value y => value (max x y)
    | x, undefined => x
    | undefined, y => y
  root
    | value x =>
      if x < 0 then undefined else if x = ⊤ then value ⊤ else number (√x.toReal)
    | undefined => undefined
  emptySum := number 0
  isUndefined
    | value _ => false
    | undefined => true
  isUnbounded
    | value x => decide (IsInfinite x)
    | undefined => false

open Scalar

variable {x y : ℝ}

section Operations

lemma not_isInfinite_coe (x : ℝ) : ¬IsInfinite (x : EReal) := by
  rintro (h | h)
  · exact EReal.coe_ne_top x h
  · exact EReal.coe_ne_bot x h

@[simp] lemma number_add : number x + number y = number (x + y) :=
  if_neg fun h => not_isInfinite_coe x h.1

@[simp] lemma number_sub : number x - number y = number (x - y) :=
  if_neg fun h => not_isInfinite_coe x h.1

@[simp] lemma number_mul : number x * number y = number (x * y) :=
  if_neg fun h => h.elim (fun h => not_isInfinite_coe x h.1) fun h => not_isInfinite_coe y h.2

@[simp] lemma ofNat_zero : (ofNat 0 : Extended) = number 0 := congrArg number Nat.cast_zero

@[simp] lemma number_lt : number x < number y ↔ x < y := EReal.coe_lt_coe_iff

lemma bot_lt_number (x : ℝ) : value ⊥ < number x := EReal.bot_lt_coe x

lemma not_top_lt_number (x : ℝ) : ¬value ⊤ < number x :=
  not_top_lt (a := (x : EReal))

@[simp] lemma greatest_number : greatest (number x) (number y) = number (max x y) :=
  congrArg value (EReal.coe_strictMono.monotone.map_max (a := x) (b := y)).symm

@[simp] lemma isUndefined_number : isUndefined (number x) = false := rfl

@[simp] lemma isUnbounded_top : isUnbounded (value ⊤) = true :=
  @decide_eq_true _ (Classical.propDecidable _) (.inl rfl)

@[simp] lemma isUnbounded_number : isUnbounded (number x) = false :=
  @decide_eq_false _ (Classical.propDecidable _) (not_isInfinite_coe x)

lemma number_div (hy : y ≠ 0) : number x / number y = number (x / y) := by
  have hy' : (y : EReal) ≠ 0 := EReal.coe_ne_zero.mpr hy
  refine (if_neg ?_).trans (if_neg hy')
  rintro (h | h)
  · exact not_isInfinite_coe x h.1
  · exact hy' h.2

/-- Nothing divided by nothing has no value. -/
lemma zero_div_zero : number 0 / number 0 = undefined := if_pos (.inr ⟨rfl, rfl⟩)

/-- A number divided by nothing is infinite. -/
lemma number_div_zero (hx : x ≠ 0) :
    number x / number 0 = value (if 0 < x then ⊤ else ⊥) := by
  have hx' : (x : EReal) ≠ 0 := EReal.coe_ne_zero.mpr hx
  have hquotient : number x / number 0 = value (if (0 : EReal) < x then ⊤ else ⊥) := by
    refine (if_neg ?_).trans (if_pos rfl)
    rintro (h | h)
    · exact not_isInfinite_coe x h.1
    · exact hx' h.1
  rw [hquotient]
  simp only [EReal.coe_pos]

lemma sum_number (xs : List ℝ) : Scalar.sum (xs.map number) = number xs.sum := by
  induction xs using List.reverseRecOn with
  | nil => rfl
  | append_singleton xs x ih =>
    rw [List.map_append, List.map_singleton, sum_append_singleton, ih, number_add,
      List.sum_append, List.sum_singleton]

end Operations

end Extended

namespace Wheel

open Scalar Extended

/-! ### Widths -/

/-- The width of a sector for a fitness, of which the largest one is given.  Nothing divided by
nothing counts as nothing. -/
noncomputable def width : Direction → (largest x : ℝ) → ℝ
  | .maximize, _, x => max x 0
  | .minimize, largest, x => max 0 (largest / x)

lemma width_nonneg (d : Direction) (largest x : ℝ) : 0 ≤ width d largest x := by
  cases d with
  | maximize => exact le_max_right x 0
  | minimize => exact le_max_left 0 (largest / x)

/-- The fold from left to right finds the largest number. -/
lemma largest_number {x m : ℝ} {rest : List ℝ} (h : IsGreatest {y | y ∈ x :: rest} m) :
    largest (number x) (rest.map number) = number m := by
  induction rest generalizing x with
  | nil =>
    have hm : m = x := List.mem_singleton.mp h.1
    rw [hm]
    rfl
  | cons y rest ih =>
    have hstep : largest (number x) ((y :: rest).map number)
        = largest (number (max x y)) (rest.map number) := by
      simp only [largest, List.map_cons, List.foldl_cons, greatest_number]
    rw [hstep]
    refine ih ⟨?_, fun z hz => ?_⟩
    · -- the largest one is the larger of the first two, or behind them
      rcases List.mem_cons.mp h.1 with hx | hrest
      · have hle : y ≤ x := hx ▸ h.2 (by simp)
        rw [max_eq_left hle, hx]
        exact List.mem_cons_self
      · rcases List.mem_cons.mp hrest with hy | hrest
        · have hle : x ≤ y := hy ▸ h.2 (by simp)
          rw [max_eq_right hle, hy]
          exact List.mem_cons_self
        · exact List.mem_cons_of_mem _ hrest
    · rcases List.mem_cons.mp hz with rfl | hz
      · rcases max_choice x y with hmax | hmax <;> rw [hmax] <;> exact h.2 (by simp)
      · exact h.2 (by simp [hz])

/-- A share is the width that its fitness has, unless it is infinite. -/
lemma share_number {m x : ℝ} (h : isUnbounded (share (number m) (number x)) = false) :
    share (number m) (number x) = number (width .minimize m x) := by
  rw [width]
  rcases eq_or_ne x 0 with rfl | hx
  · rcases eq_or_ne m 0 with rfl | hm
    · rw [share, zero_div_zero, div_zero, max_self, ofNat_zero]
      rfl
    · rw [share, number_div_zero hm] at h ⊢
      rw [div_zero, max_self]
      rcases hm.lt_or_gt with hneg | hpos
      · -- below zero the share has no width
        rw [if_neg hneg.not_gt, ofNat_zero, if_pos]
        exact Bool.or_eq_true_iff.mpr (.inr (decide_eq_true (bot_lt_number 0)))
      · -- above zero it is infinite
        rw [if_pos hpos, ofNat_zero, if_neg, isUnbounded_top] at h
        · cases h
        · rw [decide_eq_false (not_top_lt_number 0)]
          exact Bool.false_ne_true
  · rw [share, number_div hx, isUndefined_number, ofNat_zero]
    rcases lt_or_ge (m / x) 0 with hneg | hnonneg
    · rw [max_eq_left hneg.le]
      simp [hneg]
    · rw [max_eq_right hnonneg]
      simp [hnonneg.not_gt]

/-- The weights that are computed are the widths of the sectors. -/
theorem weights_number {d : Direction} {fitness : List ℝ} {m : ℝ}
    (hm : IsGreatest {x | x ∈ fitness} m)
    (h : ∀ w ∈ weights d (fitness.map number), isUnbounded w = false) :
    weights d (fitness.map number) = (fitness.map (width d m)).map number := by
  cases fitness with
  | nil => cases d <;> rfl
  | cons x rest =>
    cases d with
    | maximize =>
      simp [weights, width]
    | minimize =>
      rw [List.map_cons, weights, ← List.map_cons, largest_number hm] at h ⊢
      rw [List.map_map, List.map_map]
      refine List.map_congr_left fun y hy => share_number (h _ ?_)
      exact List.mem_map_of_mem (List.mem_map_of_mem hy)

/-! ### The sector at a place -/

section Sectors

variable {ws : List ℝ} {place : ℝ} {i : ℕ}

/-- The sectors before a place are not wider than all of them. -/
lemma sum_take_nonneg (hws : ∀ w ∈ ws, 0 ≤ w) (n : ℕ) : 0 ≤ (ws.take n).sum :=
  List.sum_nonneg fun w hw => hws w (List.mem_of_mem_take hw)

/-- The first sector reaches up to its width. -/
lemma sectorAt?_number_cons (w : ℝ) : sectorAt? (number place) ((w :: ws).map number)
    = if place < w then some 0
      else (sectorAt? (number (place - w)) (ws.map number)).map (· + 1) := by
  rw [List.map_cons, sectorAt?, number_sub, ofNat_zero]
  simp only [number_lt, sub_neg]

/-- **The scan finds the sector that begins at or before a place and ends behind it.** -/
theorem sectorAt?_number_eq_some_iff (hws : ∀ w ∈ ws, 0 ≤ w) (hplace : 0 ≤ place)
    (hend : place < ws.sum) :
    sectorAt? (number place) (ws.map number) = some i ↔
      (ws.take i).sum ≤ place ∧ place < (ws.take (i + 1)).sum := by
  induction ws generalizing place i with
  | nil => exact absurd hend hplace.not_gt
  | cons w rest ih =>
    obtain ⟨hw, hrest⟩ := List.forall_mem_cons.mp hws
    rw [List.sum_cons] at hend
    rw [sectorAt?_number_cons]
    split
    · rename_i hlt
      rw [Option.some_inj]
      cases i with
      | zero => simp [hplace, hlt]
      | succ i =>
        -- all later sectors begin behind the place
        have hbegin : place < w + (rest.take i).sum :=
          hlt.trans_le (le_add_of_nonneg_right (sum_take_nonneg hrest i))
        simp [hbegin.not_ge]
    · rename_i hge
      rw [Option.map_eq_some_iff]
      cases i with
      | zero => simp [hge]
      | succ i =>
        have hfound := ih hrest (i := i) (sub_nonneg.mpr (not_lt.mp hge))
          (sub_lt_iff_lt_add'.mpr hend)
        simp only [Nat.add_right_cancel_iff, exists_eq_right, hfound, List.take_succ_cons,
          List.sum_cons]
        rw [le_sub_iff_add_le', sub_lt_iff_lt_add']

/-- There is a sector at every place before the end of the wheel. -/
lemma exists_sectorAt?_number (hplace : 0 ≤ place) (hend : place < ws.sum) :
    ∃ i, sectorAt? (number place) (ws.map number) = some i := by
  induction ws generalizing place with
  | nil => exact absurd hend hplace.not_gt
  | cons w rest ih =>
    rw [List.sum_cons] at hend
    rw [sectorAt?_number_cons]
    split
    · exact ⟨0, rfl⟩
    · rename_i hge
      obtain ⟨i, hi⟩ := ih (sub_nonneg.mpr (not_lt.mp hge)) (sub_lt_iff_lt_add'.mpr hend)
      exact ⟨i + 1, by rw [hi, Option.map_some]⟩

end Sectors

/-! ### Spins -/

section Spins

variable {α : Type} [Scalar α]

/-- The sector that a turn of the wheel chooses; a part of a full turn is drawn at random. -/
def spinBy (turn : Draw α) (weights : List α) : Draw Nat :=
  match even? weights with
  | some sectors => do
    match sectors[← Draw.between 0 sectors.length]? with
    | some i => return i
    | none => Act.fail .outOfBounds
  | none => do
    return stop weights (← turn)

/-- The program turns the wheel by a number from zero up to one. -/
lemma spin_eq_spinBy (weights : List Float) : spin weights = spinBy Draw.unit weights := rfl

/-- Where widths decide, a spin chooses the sector in which the turn stops. -/
lemma spinBy_of_even?_eq_none {turn : Draw α} {weights : List α} {source source' : Source} {u : α}
    (heven : even? weights = none) (hturn : turn source = (.ok u, source')) :
    spinBy turn weights source = (.ok (stop weights u), source') := by
  rw [spinBy, heven]
  show (turn >>= fun u => pure (stop weights u)) source = _
  rw [Act.bind_apply, hturn]
  rfl

end Spins

section Turns

variable {ws : List ℝ} {u : ℝ}

/-- Widths decide if their sum is above zero. -/
lemma even?_number (htotal : 0 < ws.sum) : even? (ws.map number) = none := by
  have hunbounded : unbounded (ws.map number) = [] := by
    refine List.filter_eq_nil_iff.mpr fun i _ => ?_
    rw [List.getElem?_map]
    cases ws[i]? <;> simp
  rw [even?, hunbounded, sum_number]
  simp [htotal]

/-- A turn less than a full one ends before the end of the wheel. -/
lemma place_lt (htotal : 0 < ws.sum) (hu : u < 1) : u * ws.sum < ws.sum :=
  mul_lt_of_lt_one_left htotal hu

/-- **A turn stops in the one sector that begins at or before its end and ends behind it**, which is
found by the scan. -/
theorem stop_number (hws : ∀ w ∈ ws, 0 ≤ w) (htotal : 0 < ws.sum) (hu0 : 0 ≤ u) (hu1 : u < 1) :
    sectorAt? (number u * Scalar.sum (ws.map number)) (ws.map number)
        = some (stop (ws.map number) (number u)) ∧
      ∀ i, i = stop (ws.map number) (number u) ↔
        (ws.take i).sum ≤ u * ws.sum ∧ u * ws.sum < (ws.take (i + 1)).sum := by
  have hplace : 0 ≤ u * ws.sum := mul_nonneg hu0 htotal.le
  obtain ⟨k, hk⟩ := exists_sectorAt?_number hplace (place_lt htotal hu1)
  have hstop : stop (ws.map number) (number u) = k := by
    rw [stop, sum_number, number_mul, hk, Option.getD_some]
  rw [sum_number, number_mul, hstop]
  refine ⟨hk, fun i => ?_⟩
  rw [← sectorAt?_number_eq_some_iff hws hplace (place_lt htotal hu1), hk, Option.some_inj, eq_comm]

/-- A sector without width is never chosen. -/
lemma getElem?_stop_number (hws : ∀ w ∈ ws, 0 ≤ w) (htotal : 0 < ws.sum) (hu0 : 0 ≤ u)
    (hu1 : u < 1) : ∃ w, ws[stop (ws.map number) (number u)]? = some w ∧ 0 < w := by
  obtain ⟨-, hstop⟩ := stop_number hws htotal hu0 hu1
  obtain ⟨hbegin, hend⟩ := (hstop _).mp rfl
  generalize stop (ws.map number) (number u) = i at *
  have hlt := hbegin.trans_lt hend
  cases hi : ws[i]? with
  | none =>
    have hlength : ws.length ≤ i := List.getElem?_eq_none_iff.mp hi
    rw [List.take_of_length_le hlength, List.take_of_length_le (by omega)] at hlt
    exact absurd hlt (lt_irrefl _)
  | some w =>
    rw [List.take_add_one, hi, Option.toList_some, List.sum_append, List.sum_singleton] at hlt
    exact ⟨w, rfl, by linarith⟩

open MeasureTheory in
/-- **A sector is chosen by as large a part of all turns as its width is of all widths.** -/
theorem volume_turns (hws : ∀ w ∈ ws, 0 ≤ w) (htotal : 0 < ws.sum) {i : ℕ} (hi : i < ws.length) :
    volume {u ∈ Set.Ico (0 : ℝ) 1 | stop (ws.map number) (number u) = i}
      = ENNReal.ofReal (ws[i] / ws.sum) := by
  have hturns : {u ∈ Set.Ico (0 : ℝ) 1 | stop (ws.map number) (number u) = i}
      = Set.Ico ((ws.take i).sum / ws.sum) ((ws.take (i + 1)).sum / ws.sum) := by
    ext u
    rw [Set.mem_ofPred_eq, Set.mem_Ico, Set.mem_Ico, div_le_iff₀ htotal, lt_div_iff₀ htotal]
    constructor
    · rintro ⟨⟨hu0, hu1⟩, hstop⟩
      exact ((stop_number hws htotal hu0 hu1).2 i).mp hstop.symm
    · rintro ⟨hbegin, hend⟩
      -- the sector lies on the wheel
      have hu0 : 0 ≤ u :=
        nonneg_of_mul_nonneg_left ((sum_take_nonneg hws i).trans hbegin) htotal
      have hu1 : u < 1 := by
        have hle : (ws.take (i + 1)).sum ≤ ws.sum :=
          (List.take_sublist (i + 1) ws).sum_le_sum hws
        exact (mul_lt_iff_lt_one_left htotal).mp (hend.trans_le hle)
      exact ⟨⟨hu0, hu1⟩, (((stop_number hws htotal hu0 hu1).2 i).mpr ⟨hbegin, hend⟩).symm⟩
  rw [hturns, Real.volume_Ico, ← sub_div, List.sum_take_succ ws i hi, add_sub_cancel_left]

end Turns

end Wheel

/-! ### Populations -/

open Extended in
/-- **Selection by a wheel is proportional to the widths of its sectors.**  Where no weight is
infinite and the weights have a sum above zero, they are the widths that the numbers have, and a
spin chooses the one sector that begins at or before the end of the turn and ends behind it.  The
scan itself finds this sector, which is never one without width. -/
theorem Population.spin_proportional :
    (∀ {ι : Type} (sp : Species ι) (d : Direction) (p : Population ι),
      p.spin sp d = Wheel.spinBy Draw.unit (Wheel.weights d (p.members.map sp.fitness))) ∧
    ∀ (d : Direction) (fitness : List ℝ) (largest : ℝ), IsGreatest {x | x ∈ fitness} largest →
      let weights := Wheel.weights d (fitness.map number)
      let widths := fitness.map (Wheel.width d largest)
      (∀ w ∈ weights, Scalar.isUnbounded w = false) → 0 < widths.sum →
      weights = widths.map number ∧
      ∀ (turn : Draw Extended) (source source' : Source) (u : ℝ), 0 ≤ u → u < 1 →
        turn source = (.ok (number u), source') →
        ∃ i, Wheel.spinBy turn weights source = (.ok i, source') ∧
          Wheel.sectorAt? (number u * Scalar.sum weights) weights = some i ∧
          (∃ w, widths[i]? = some w ∧ 0 < w) ∧
          ∀ j, j = i ↔ (widths.take j).sum ≤ u * widths.sum ∧
            u * widths.sum < (widths.take (j + 1)).sum := by
  refine ⟨fun sp d p => Wheel.spin_eq_spinBy _, ?_⟩
  intro d fitness largest hlargest weights widths hbounded htotal
  have hweights : weights = widths.map number := Wheel.weights_number hlargest hbounded
  have hwidths : ∀ w ∈ widths, 0 ≤ w :=
    List.forall_mem_map.mpr fun x _ => Wheel.width_nonneg d largest x
  refine ⟨hweights, fun turn source source' u hu0 hu1 hturn => ?_⟩
  rw [hweights]
  obtain ⟨hscan, hunique⟩ := Wheel.stop_number hwidths htotal hu0 hu1
  exact ⟨Wheel.stop (widths.map number) (number u),
    Wheel.spinBy_of_even?_eq_none (Wheel.even?_number htotal) hturn, hscan,
    Wheel.getElem?_stop_number hwidths htotal hu0 hu1, hunique⟩

open Extended in
/-- A turn that ends behind the second sector chooses the last one: the third one has no width. -/
theorem Population.spin_proportional_border :
    let source := Source.ofWords #[] fun _ => 0
    Wheel.spinBy (pure (number (2 / 3))) (Wheel.weights .maximize ([0, 2, -1, 1].map number)) source
      = (.ok 3, source) := by
  intro source
  have hlargest : IsGreatest {x : ℝ | x ∈ [0, 2, -1, 1]} 2 := by
    refine ⟨by simp, fun x hx => ?_⟩
    simp only [Set.mem_ofPred_eq, List.mem_cons, List.not_mem_nil, or_false] at hx
    rcases hx with rfl | rfl | rfl | rfl <;> norm_num
  have hbounded : ∀ w ∈ Wheel.weights .maximize ([0, 2, -1, 1].map number),
      Scalar.isUnbounded w = false := by
    simp [Wheel.weights]
  obtain ⟨-, hspin⟩ := Population.spin_proportional.2 .maximize [0, 2, -1, 1] 2 hlargest hbounded
    (by norm_num [Wheel.width])
  obtain ⟨i, hi, -, -, hunique⟩ := hspin (pure (number (2 / 3))) source source (2 / 3) (by norm_num)
    (by norm_num) rfl
  rw [hi, ← (hunique 3).mpr (by norm_num [Wheel.width])]

end FuzzyForest
