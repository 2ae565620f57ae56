/-
The row that is left out.

Sums and scores skip the row that is left out, and terminals keep to the input columns as long as
there are any.  The targets of that row are therefore never looked at: forests are evaluated alike
on two datasets that differ in nothing else, and runs that breed forests cannot tell them apart.
-/
import FuzzyForest.Proofs.AgreeingSpecies
import FuzzyForest.Proofs.InputColumns
import FuzzyForest.Proofs.Lineage

namespace FuzzyForest

variable {α : Type} {ds ds' : Dataset α} {L : Nat}

lemma mapM_congr {β γ : Type} {f g : β → Option γ} {xs : List β} (h : ∀ x ∈ xs, g x = f x) :
    xs.mapM g = xs.mapM f := by
  induction xs with
  | nil => rfl
  | cons x xs ih =>
    obtain ⟨hx, hxs⟩ := List.forall_mem_cons.mp h
    rw [List.mapM_cons, List.mapM_cons, hx, ih hxs]

/-- Two datasets of one shape leave out the same row and differ in its targets at most. -/
structure Dataset.AgreeBut (L : Nat) (ds ds' : Dataset α) : Prop where
  records : ds'.records = ds.records
  columns : ds'.columns = ds.columns
  targets : ds'.targets = ds.targets
  leaveOut : ds.leaveOut = some L ∧ ds'.leaveOut = some L
  cell? : ∀ row < ds.records, ∀ column < ds.columns, (row = L → column < ds.inputs) →
    ds'.cell? row column = ds.cell? row column

namespace Dataset.AgreeBut

/-- In particular, no input differs. -/
lemma sameInputs (h : AgreeBut L ds ds') : SameInputs ds ds' := by
  refine ⟨h.records, h.columns, h.targets, fun row hrow column hcolumn => ?_⟩
  have hinputs : column < ds.columns := Nat.lt_of_lt_of_le hcolumn (Nat.sub_le _ _)
  exact h.cell? row hrow column hinputs fun _ => hcolumn

lemma counted (h : AgreeBut L ds ds') : ds'.counted = ds.counted := by
  rw [Dataset.counted, Dataset.counted, h.records, h.leaveOut.1, h.leaveOut.2]

variable [Scalar α]

/-! ### Scoring -/

/-- The rows that count have the same targets. -/
lemma target (h : AgreeBut L ds ds') {row t : Nat} (hrow : row ∈ ds.counted)
    (ht : t < ds.targets) : ds'.target row t = ds.target row t := by
  obtain ⟨hrange, hcounts⟩ := List.mem_filter.mp hrow
  have hother : row ≠ L := by
    rintro rfl
    simp [h.leaveOut.1] at hcounts
  have hcolumns := ds.inputs_add_targets
  rw [Dataset.target, Dataset.target, h.sameInputs.inputs,
    h.cell? row (List.mem_range.mp hrange) _ (by omega) fun hL => absurd hL hother]

lemma sigma (h : AgreeBut L ds ds') {t : Nat} (ht : t < ds.targets) : ds'.sigma t = ds.sigma t := by
  rw [Dataset.sigma, Dataset.sigma, h.counted, List.map_congr_left fun row hrow => h.target hrow ht]

lemma targetRates (h : AgreeBut L ds ds') (estimates : Array α) (outputs : Nat) {t : Nat}
    (ht : t < ds.targets) :
    targetRates ds' estimates outputs t = targetRates ds estimates outputs t := by
  have hpairs : scoredPairs ds' estimates outputs t = scoredPairs ds estimates outputs t := by
    rw [scoredPairs, scoredPairs, h.counted]
    refine mapM_congr fun row hrow => ?_
    rw [h.target hrow ht]
  rw [FuzzyForest.targetRates, FuzzyForest.targetRates, hpairs, h.sigma ht]

/-- **The row that is left out does not count.** -/
theorem errorRates (h : AgreeBut L ds ds') (estimates : Array α) (outputs : Nat) :
    errorRates ds' estimates outputs = errorRates ds estimates outputs := by
  have hrates : (List.range (min outputs ds.targets)).mapM
        (fun t => FuzzyForest.targetRates ds' estimates outputs t)
      = (List.range (min outputs ds.targets)).mapM
        (fun t => FuzzyForest.targetRates ds estimates outputs t) := by
    refine mapM_congr fun t ht => h.targetRates estimates outputs ?_
    exact Nat.lt_of_lt_of_le (List.mem_range.mp ht) (Nat.min_le_right _ _)
  simp only [FuzzyForest.errorRates, h.targets, hrates]

/-! ### Forests -/

/-- A forest in range is evaluated alike. -/
lemma evaluate (h : AgreeBut L ds ds') (hinputs : 0 < ds.inputs) (settings : ModelSettings)
    {f : Forest α} (hf : ∀ i ∈ f.code, i.InRange ds.shape) (count : Nat) :
    f.evaluate (.fuzzy ds' settings) count = f.evaluate (.fuzzy ds settings) count := by
  have hreads : ∀ i ∈ f.code, i.ReadsInputs ds.inputs := fun i hi => (hf i hi).readsInputs hinputs
  have hruns := h.sameInputs.runTrees hinputs f.outputs (Forest.forall_mem_treeCodes hreads) 0
    (Array.replicate (ds.records * f.outputs) (Scalar.ofNat 0)) count
  simp only [Forest.evaluate, Context.fuzzy, h.records, hruns, h.errorRates]

end Dataset.AgreeBut

namespace Forest

variable {ds ds' : Dataset Float} {L : Nat}

lemma computeFitness_agree (h : ds.AgreeBut L ds') (hinputs : 0 < ds.inputs)
    (settings : ModelSettings) {f : Forest Float} (hf : ∀ i ∈ f.code, i.InRange ds.shape)
    (s : Session) :
    computeFitness (.fuzzy ds' settings) (f, s) = computeFitness (.fuzzy ds settings) (f, s) := by
  have hevaluate : evaluate (.fuzzy ds' settings) { f with fitness? := none } s.executed
      = evaluate (.fuzzy ds settings) { f with fitness? := none } s.executed :=
    h.evaluate (f := { f with fitness? := none }) hinputs settings hf s.executed
  simp only [computeFitness, refresh, hevaluate]
  rfl

/-- Evaluation is all that the species of two such datasets may differ in. -/
lemma species_agree (h : ds.AgreeBut L ds') (settings : ModelSettings)
    (sorting : Sorting (Forest Float)) : species (.fuzzy ds' settings) sorting
      = (species (.fuzzy ds settings) sorting).withEvaluate
        (computeFitness (.fuzzy ds' settings)) := by
  have hmutated : mutated (.fuzzy ds' settings) = mutated (.fuzzy ds settings) := by
    funext p f
    rw [mutated, mutated, show (Context.fuzzy ds' settings).shape
      = (Context.fuzzy ds settings).shape from h.sameInputs.shape]
    rfl
  rw [species, hmutated]
  rfl

lemma random_agree (h : ds.AgreeBut L ds') (settings : ModelSettings) :
    random (.fuzzy ds' settings) = random (.fuzzy ds settings) := by
  simp only [random, Context.shape, Context.fuzzy, h.sameInputs.shape, h.records, h.targets]

end Forest

/-! ### Runs -/

namespace Evolution

variable {ds ds' : Dataset Float} {L : Nat}

/-- **The targets of the row that is left out have no influence on a run.**  On two datasets that
differ in nothing else, a run without a time budget tells of the same events and ends with the same
outcome, whatever its clock is. -/
theorem run_ignores_leftOut (h : ds.AgreeBut L ds') (hinputs : 0 < ds.inputs)
    (htargets : 0 < ds.targets) (settings : ModelSettings) {rules : EvolutionSettings}
    (hcheck : rules.check = .ok ()) (hbudget : rules.timeBudget = none)
    (notes : Event (Forest Float) → List Note) (sorting : Sorting (Forest Float))
    (clock clock' : Nat → Float) (trail : Trail (Forest Float)) :
    untimed (run (Plan.forests (.fuzzy ds' settings) rules notes sorting) clock' trail)
      = untimed (run (Plan.forests (.fuzzy ds settings) rules notes sorting) clock trail) := by
  have hplan : Plan.forests (.fuzzy ds' settings) rules notes sorting
      = (Plan.forests (.fuzzy ds settings) rules notes sorting).withEvaluate
        (Forest.computeFitness (.fuzzy ds' settings)) := by
    rw [Plan.forests, Forest.species_agree h, Forest.random_agree h]
    rfl
  rw [hplan]
  exact run_withEvaluate (Forest.species_isClosed htargets settings sorting)
    (fun f s hf => Forest.computeFitness_agree h hinputs settings hf.inRange s)
    (Forest.returns_random ds settings) (two_le_of_check hcheck) hbudget clock clock' trail

/-- One input column and one target column, with the last row left out, whose target is open. -/
def openEnded (last : Float) : Dataset Float :=
  ⟨#[0.25, 1.0, 0.5, 0.0, 0.75, last], 3, 2, 1, some 2, rfl, by decide⟩

theorem run_ignores_leftOut_openEnded :
    let rules : EvolutionSettings := { populationSize := 4, generations := 2, seed := some 7 }
    let source : Source := ⟨fun n => ((n * 5 + 2) % 9 * 576460752303423488).toUInt64, 0, 4⟩
    let r last clock := run (Plan.forests (.fuzzy (openEnded last) {}) rules Event.notes) clock
      ([], { source })
    (openEnded 1.0).values ≠ (openEnded 0.0).values ∧ (r 0.0 fun _ => 0.0).1.isOk = true ∧
      untimed (r 1.0 fun n => Float.ofNat n) = untimed (r 0.0 fun _ => 0.0) := by
  intro rules source r
  have hagree : (openEnded 0.0).AgreeBut 2 (openEnded 1.0) :=
    ⟨rfl, rfl, rfl, ⟨rfl, rfl⟩, by decide +kernel⟩
  refine ⟨by decide +kernel, by decide +kernel, ?_⟩
  exact run_ignores_leftOut hagree (by decide) (by decide) {} (by decide +kernel) rfl Event.notes
    .insertion (fun _ => 0.0) (fun n => Float.ofNat n) ([], { source })

end Evolution

end FuzzyForest
