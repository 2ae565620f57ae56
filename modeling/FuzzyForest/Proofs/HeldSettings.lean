/-
Held settings and their ranges.

A call puts settings in the place of the held ones only after their check, so what is held after
any calls has passed it.  Read as ranges, the checks bound everything but one case: a rate is
refused when it is below zero or above one, and an undefined number is neither.  With that case
named, `Settings.Admissible` is exactly what can be held.
-/
import FuzzyForest.Proofs.Order
import FuzzyForest.Settings.Holding

namespace FuzzyForest

open Float.Model

/-! ### Ranges -/

/-- A number from zero to one. -/
def IsRate (r : Float) : Prop := 0.0 ≤ r ∧ r ≤ 1.0

/-- A number above zero that is neither undefined nor infinite. -/
def IsPositive (x : Float) : Prop := x.isFinite = true ∧ 0.0 < x

namespace Binary64

lemma isNaN_zero : (0.0 : Float).isNaN = false := by decide +kernel

lemma isNaN_one : (1.0 : Float).isNaN = false := by decide +kernel

/-- A finite number is defined. -/
lemma isNaN_of_isFinite {x : Float} (h : x.isFinite = true) : x.isNaN = false := by
  have hfin : UnpackedFloat.isFinite x.toModel.unpack = true := h
  show UnpackedFloat.isNaN x.toModel.unpack = false
  cases hx : x.toModel.unpack <;> simp_all [UnpackedFloat.isFinite, UnpackedFloat.isNaN]

/-- What is neither below zero nor above one is a rate or undefined. -/
lemma not_outside_iff {r : Float} :
    ¬(r < 0.0 ∨ 1.0 < r) ↔ r.isNaN = true ∨ IsRate r := by
  cases hr : r.isNaN with
  | true =>
    -- what compares with a bound is defined
    simp only [true_or, iff_true]
    rintro (h | h)
    · exact absurd hr (ne_true_of_eq_false (isNaN_of_lt_left h))
    · exact absurd hr (ne_true_of_eq_false (isNaN_of_lt_right h))
  | false =>
    rw [IsRate, le_iff_not_lt isNaN_zero hr, le_iff_not_lt hr isNaN_one]
    simp

lemma isPositive_iff {x : Float} : IsPositive x ↔ x.isFinite = true ∧ ¬x ≤ 0.0 := by
  unfold IsPositive
  refine and_congr_right fun hfin => ?_
  rw [le_iff_not_lt (isNaN_of_isFinite hfin) isNaN_zero, not_not]

end Binary64

/-- Model settings with an instruction to spend and a weight of precision against recall. -/
structure ModelSettings.Admissible (s : ModelSettings) : Prop where
  maxInstructions : 1 ≤ s.maxInstructions
  beta : IsPositive s.beta

/-- Evolution settings with parents to choose, rates that are not outside of the unit interval and
some time. -/
structure EvolutionSettings.Admissible (s : EvolutionSettings) : Prop where
  populationSize : 2 ≤ s.populationSize
  mutationRate : s.mutationRate.isNaN = true ∨ IsRate s.mutationRate
  crossoverRate : s.crossoverRate.isNaN = true ∨ IsRate s.crossoverRate
  timeBudget : ∀ budget ∈ s.timeBudget, IsPositive budget

/-- Data settings with something to estimate and an ASCII separator. -/
structure DataSettings.Admissible (s : DataSettings) : Prop where
  targets : 1 ≤ s.targets
  separator : s.separator.toNat < 128

/-- Settings of which every section is admissible. -/
structure Settings.Admissible (s : Settings) : Prop where
  model : s.model.Admissible
  evolution : s.evolution.Admissible
  data : s.data.Admissible

/-! ### What the checks let through -/

/-- A sequence of guards passes if no guard strikes and the rest passes. -/
lemma guard_eq_ok_iff {ε : Type} {c : Prop} [Decidable c] {e : ε} {rest : Except ε Unit} :
    (if c then .error e else rest) = .ok () ↔ ¬c ∧ rest = .ok () := by
  by_cases h : c <;> simp [h]

theorem ModelSettings.check_eq_ok_iff (s : ModelSettings) :
    s.check = .ok () ↔ s.Admissible := by
  have hbeta : ¬((!s.beta.isFinite || decide (s.beta ≤ 0.0)) = true) ↔ IsPositive s.beta := by
    rw [Binary64.isPositive_iff]
    simp
  rw [ModelSettings.check, guard_eq_ok_iff, guard_eq_ok_iff, hbeta]
  constructor
  · rintro ⟨hmax, hpos, -⟩
    exact ⟨Nat.one_le_iff_ne_zero.mpr hmax, hpos⟩
  · intro h
    exact ⟨Nat.one_le_iff_ne_zero.mp h.maxInstructions, h.beta, rfl⟩

/-- The budget of time passes if it is absent or positive. -/
lemma EvolutionSettings.budget_eq_ok_iff (budget : Option Float) :
    (match budget with
      | some budget =>
        if !budget.isFinite || budget ≤ 0.0 then .error .badTimeBudget else .ok ()
      | none => .ok () : Except SettingsError Unit) = .ok () ↔
      ∀ b ∈ budget, IsPositive b := by
  cases budget with
  | none => simp
  | some b =>
    simp only [Option.mem_def, Option.some.injEq, forall_eq', Binary64.isPositive_iff]
    rw [guard_eq_ok_iff]
    simp

theorem EvolutionSettings.check_eq_ok_iff (s : EvolutionSettings) :
    s.check = .ok () ↔ s.Admissible := by
  have hrate (r : Float) :
      ¬((decide (r < 0.0) || decide (1.0 < r)) = true) ↔ r.isNaN = true ∨ IsRate r := by
    rw [← Binary64.not_outside_iff]
    simp
  rw [EvolutionSettings.check, guard_eq_ok_iff, guard_eq_ok_iff, guard_eq_ok_iff, hrate, hrate,
    not_lt]
  constructor
  · rintro ⟨hsize, hmutation, hcrossover, hbudget⟩
    exact ⟨hsize, hmutation, hcrossover, (budget_eq_ok_iff s.timeBudget).mp hbudget⟩
  · intro h
    exact ⟨h.populationSize, h.mutationRate, h.crossoverRate,
      (budget_eq_ok_iff s.timeBudget).mpr h.timeBudget⟩

theorem DataSettings.check_eq_ok_iff (s : DataSettings) :
    s.check = .ok () ↔ s.Admissible := by
  rw [DataSettings.check, guard_eq_ok_iff, guard_eq_ok_iff, not_le]
  constructor
  · rintro ⟨htargets, hseparator, -⟩
    exact ⟨Nat.one_le_iff_ne_zero.mpr htargets, hseparator⟩
  · intro h
    exact ⟨Nat.one_le_iff_ne_zero.mp h.targets, h.separator, rfl⟩

namespace Settings

/-- The checks let through what is admissible. -/
theorem check_eq_ok_iff_admissible (s : Settings) : s.check = .ok () ↔ s.Admissible := by
  rw [check_eq_ok_iff, ModelSettings.check_eq_ok_iff, EvolutionSettings.check_eq_ok_iff,
    DataSettings.check_eq_ok_iff]
  constructor
  · rintro ⟨hmodel, hevolution, hdata⟩
    exact ⟨hmodel, hevolution, hdata⟩
  · intro h
    exact ⟨h.model, h.evolution, h.data⟩

/-- The settings that are held at first are admissible. -/
theorem admissible_default : ({} : Settings).Admissible := by
  rw [← check_eq_ok_iff_admissible]
  decide +kernel

/-- Either a candidate is admissible and is held from then on, or there is an error and nothing
changes. -/
lemma hold_cases (candidate : Except SettingsError Settings) (held : Settings) :
    (∃ s : Settings, s.Admissible ∧ candidate = .ok s ∧ hold candidate held = (.ok (), s)) ∨
      ∃ e, hold candidate held = (.error e, held) := by
  unfold hold
  cases candidate with
  | error e => exact .inr ⟨_, rfl⟩
  | ok s =>
    cases hs : s.check with
    | error e =>
      refine .inr ⟨.settings e, ?_⟩
      simp [Except.bind, checked, hs, bind]
    | ok u =>
      refine .inl ⟨s, (check_eq_ok_iff_admissible s).mp hs, rfl, ?_⟩
      simp [Except.bind, checked, hs, bind, pure, Except.pure]

end Settings

/-! ### Calls -/

/-- What is asked of the keeper of the settings. -/
inductive HoldingCall
  | loadText (text : String)
  | loadFile (file : Option (SettingsFormat × String)) (vs : Variables)
  | update (change : Settings → Settings)

namespace HoldingCall

/-- The settings that a call would have held. -/
def candidate : HoldingCall → Settings → Except SettingsError Settings
  | loadText text, _ => Settings.ofText text
  | loadFile file vs, _ => Settings.ofFile file vs
  | update change, held => .ok (change held)

/-- One call. -/
def run : HoldingCall → Holding Unit
  | loadText text => Settings.loadText text
  | loadFile file vs => Settings.loadFile file vs
  | update change => Settings.update change

/-- What is held after some calls, those that fail among them. -/
def heldAfter (calls : List HoldingCall) (held : Settings) : Settings :=
  calls.foldl (fun held call => (call.run held).2) held

lemma run_eq_hold (call : HoldingCall) (held : Settings) :
    call.run held = Settings.hold (call.candidate held) held := by
  cases call <;> rfl

/-- A call that fails changes nothing. -/
lemma held_of_error {call : HoldingCall} {held : Settings} {e : Error}
    (h : (call.run held).1 = .error e) : (call.run held).2 = held := by
  rw [run_eq_hold] at h ⊢
  exact Settings.hold_of_error (Prod.ext h rfl)

/-- No call makes held settings inadmissible. -/
lemma admissible_run (call : HoldingCall) {held : Settings} (h : held.Admissible) :
    (call.run held).2.Admissible := by
  rw [run_eq_hold]
  rcases Settings.hold_cases (call.candidate held) held with ⟨s, hs, -, hrun⟩ | ⟨e, hrun⟩
  · rw [hrun]
    exact hs
  · rw [hrun]
    exact h

/-- No calls make held settings inadmissible. -/
lemma admissible_heldAfter (calls : List HoldingCall) :
    ∀ {held : Settings}, held.Admissible → (heldAfter calls held).Admissible := by
  induction calls with
  | nil =>
    intro held h
    exact h
  | cons call calls ih =>
    intro held h
    exact ih (admissible_run call h)

/-- Admissible settings are held once a change asks for them. -/
lemma heldAfter_update {s : Settings} (hs : s.Admissible) (held : Settings) :
    heldAfter [.update fun _ => s] held = s := by
  show (Settings.hold (.ok s) held).2 = s
  rcases Settings.hold_cases (.ok s) held with ⟨t, -, ht, hrun⟩ | ⟨e, hrun⟩
  · rw [hrun]
    cases ht
    rfl
  · have hcheck : s.check = .ok () := (Settings.check_eq_ok_iff_admissible s).mpr hs
    simp [Settings.hold, Except.bind, Settings.checked, hcheck, bind, pure, Except.pure] at hrun

/-- **What calls can bring about**, starting from the settings that are held at first, is what is
admissible; and a call that fails leaves what is held as it was, whatever it is. -/
theorem held_iff_admissible (s held : Settings) (call : HoldingCall) :
    ((∃ calls, heldAfter calls {} = s) ↔ s.Admissible) ∧
      ∀ e, (call.run held).1 = .error e → (call.run held).2 = held := by
  refine ⟨⟨?_, fun hs => ⟨_, heldAfter_update hs {}⟩⟩, fun e => held_of_error⟩
  rintro ⟨calls, rfl⟩
  exact admissible_heldAfter calls Settings.admissible_default

/-- A change that empties the population fails, and what was held stays. -/
theorem held_iff_admissible_emptied :
    (run (.update fun s => { s with evolution.populationSize := 0 }) {}).1 =
        .error (.settings .smallPopulation) ∧
      (run (.update fun s => { s with evolution.populationSize := 0 }) {}).2 = {} := by
  have hfail : (run (.update fun s => { s with evolution.populationSize := 0 }) {}).1 =
      .error (.settings .smallPopulation) := by decide +kernel
  exact ⟨hfail, (held_iff_admissible {} {} _).2 _ hfail⟩

/-- A text with an undefined rate is taken, and what is held then has a rate that is none. -/
theorem not_isRate_of_undefined :
    ¬IsRate (heldAfter [.loadText "[evolution]\nmutation_rate = nan"] {}).evolution.mutationRate := by
  intro h
  have hnan : (heldAfter [.loadText "[evolution]\nmutation_rate = nan"]
      {}).evolution.mutationRate.isNaN = true := by decide +kernel
  exact absurd hnan (ne_true_of_eq_false (Binary64.isNaN_of_le_right h.1))

end HoldingCall

end FuzzyForest
