/-
Estimates are made from input columns.

The interpreter hands every terminal the whole row, with the targets at its end.  A forest whose
operands keep to the input columns never looks that far, as long as there are input columns at
all: a lagged estimate that looks back beyond the first row is then zero, and no cell of the row.
Two datasets with the same inputs therefore lead to the same estimates, or to the same failure,
whatever their targets are.
-/
import FuzzyForest.Proofs.SoundEvaluation

namespace FuzzyForest

variable {α : Type} {ds ds' : Dataset α}

/-- An operand that names a column names an input. -/
def Instruction.ReadsInputs (inputs : Nat) (i : Instruction α) : Prop :=
  i.opcode = .input ∨ i.opcode = .pastInput → i.operand < inputs

instance (inputs : Nat) : DecidablePred (Instruction.ReadsInputs (α := α) inputs) :=
  fun i => inferInstanceAs (Decidable (i.opcode = .input ∨ i.opcode = .pastInput → _))

/-- What is in range reads inputs, as long as there are any. -/
lemma Instruction.InRange.readsInputs {i : Instruction α} (h : i.InRange ds.shape)
    (hinputs : 0 < ds.inputs) : i.ReadsInputs ds.inputs := by
  intro hop
  have hoperand : i.operand < max ds.inputs 1 := h.input hop
  omega

/-- Two datasets of one shape have the same input columns. -/
structure Dataset.SameInputs (ds ds' : Dataset α) : Prop where
  records : ds'.records = ds.records
  columns : ds'.columns = ds.columns
  targets : ds'.targets = ds.targets
  cell? : ∀ row < ds.records, ∀ column < ds.inputs, ds'.cell? row column = ds.cell? row column

namespace Dataset.SameInputs

lemma inputs (h : SameInputs ds ds') : ds'.inputs = ds.inputs := by
  rw [Dataset.inputs, Dataset.inputs, h.columns, h.targets]

lemma shape (h : SameInputs ds ds') : ds'.shape = ds.shape := by
  rw [Dataset.shape, Dataset.shape, h.inputs, h.targets]

lemma readRow (h : SameInputs ds ds') {row row' operand outputs : Nat} {estimates : Array α}
    (hrow : row' < ds.records) (hoperand : operand < ds.inputs) :
    Frame.readRow ⟨ds', row, estimates, outputs⟩ row' operand
      = Frame.readRow ⟨ds, row, estimates, outputs⟩ row' operand := by
  have hrow' : row' < ds'.records := h.records.symm ▸ hrow
  rw [Frame.readRow, Frame.readRow, if_pos (hasRow_of_lt hrow'), if_pos (hasRow_of_lt hrow),
    h.cell? row' hrow operand hoperand, h.columns]

variable [Scalar α]

/-- **Terminals that keep to the inputs read the same**, as long as there are inputs. -/
theorem read (h : SameInputs ds ds') (hinputs : 0 < ds.inputs) {row outputs : Nat}
    (hrow : row < ds.records) (estimates : Array α) {i : Instruction α}
    (hi : i.ReadsInputs ds.inputs) (hterminal : i.opcode.isTerminal = true) :
    Frame.read ⟨ds', row, estimates, outputs⟩ i = Frame.read ⟨ds, row, estimates, outputs⟩ i := by
  have hback : row - i.lag < ds.records := Nat.lt_of_le_of_lt (Nat.sub_le _ _) hrow
  rcases i with ⟨op, operand, lag, w⟩
  cases op with
  | input => exact h.readRow hrow (hi (.inl rfl))
  | pastInput =>
    have hoperand : operand < ds.inputs := hi (.inr rfl)
    simp only [Frame.read]
    rw [h.readRow hback hoperand, h.readRow hrow hoperand]
  | pastOutput =>
    -- no row is read where there are inputs, and estimates are the same
    have hpos : ds.inputs ≠ 0 := Nat.pos_iff_ne_zero.mp hinputs
    have hpos' : ds'.inputs ≠ 0 := h.inputs.symm ▸ hpos
    simp only [Frame.read, if_neg hpos, if_neg hpos']
    rfl
  | _ => cases hterminal

lemma executeRows (h : SameInputs ds ds') (hinputs : 0 < ds.inputs) {tree : Code α}
    (htree : ∀ i ∈ tree, i.ReadsInputs ds.inputs) (output outputs : Nat) {remaining row : Nat}
    (hrows : row + remaining ≤ ds.records) (estimates : Array α) (count : Nat) :
    executeRows fuzzySteps tree ds' output outputs remaining row estimates count
      = executeRows fuzzySteps tree ds output outputs remaining row estimates count := by
  induction remaining generalizing row estimates count with
  | zero => rfl
  | succ remaining ih =>
    have hrow : row < ds.records := by omega
    have hrun := runCode_congr (f := ⟨ds, row, estimates, outputs⟩)
      (g := ⟨ds', row, estimates, outputs⟩)
      (fun i hi => h.read hinputs hrow estimates (htree i hi)) count []
    simp only [FuzzyForest.executeRows, hrun]
    split
    · split
      · exact ih (by omega) _ _
      · rfl
    · rfl
    · rfl

lemma runTrees (h : SameInputs ds ds') (hinputs : 0 < ds.inputs) (outputs : Nat)
    {trees : List (Code α)} (htrees : ∀ tree ∈ trees, ∀ i ∈ tree, i.ReadsInputs ds.inputs)
    (output : Nat) (estimates : Array α) (count : Nat) :
    runTrees fuzzySteps ds' outputs trees output estimates count
      = runTrees fuzzySteps ds outputs trees output estimates count := by
  induction trees generalizing output estimates count with
  | nil => rfl
  | cons tree rest ih =>
    obtain ⟨htree, hrest⟩ := List.forall_mem_cons.mp htrees
    have hexecute : execute fuzzySteps tree ds' estimates output outputs count
        = execute fuzzySteps tree ds estimates output outputs count := by
      rw [execute, execute, h.records]
      exact h.executeRows hinputs htree output outputs (by omega) estimates count
    simp only [FuzzyForest.runTrees, hexecute, ih hrest]

end Dataset.SameInputs

/-! ### Forests -/

namespace Forest

variable {f : Forest α} [Scalar α]

/-- **The targets do not leak into the estimates.**  On two datasets with the same input columns a
forest that keeps to these is evaluated alike: the evaluation fails on one exactly if it fails on
the other, then for the same reason, and the estimates are the same.  The error rates, which do
look at the targets, may be any that complete estimates have. -/
theorem evaluate_ignores_targets (h : ds.SameInputs ds') (hinputs : 0 < ds.inputs)
    (settings : ModelSettings) {rates : Dataset α → Array α → Nat → Option (α × α)}
    (hrates : ∀ ds estimates outputs, estimates.size = ds.records * outputs →
      (rates ds estimates outputs).isSome = true)
    (hf : ∀ i ∈ f.code, i.ReadsInputs ds.inputs) (count : Nat) :
    let e := f.evaluate ⟨ds, settings, fuzzySteps, rates⟩ count
    let e' := f.evaluate ⟨ds', settings, fuzzySteps, rates⟩ count
    e'.failure? = e.failure? ∧ e'.forest.estimates = e.forest.estimates := by
  have hruns := h.runTrees hinputs f.outputs (forall_mem_treeCodes hf) 0
    (Array.replicate (ds.records * f.outputs) (Scalar.ofNat 0)) count
  simp only [evaluate, h.records, hruns]
  split
  · exact ⟨rfl, rfl⟩
  · rename_i hsuccess
    -- the estimates are complete, so that both datasets give error rates
    have hsize := (treesRun_of_success hsuccess).size_eq.trans Array.size_replicate
    obtain ⟨⟨p1, p2⟩, hhere⟩ := Option.isSome_iff_exists.mp (hrates ds _ _ hsize)
    have hsize' := hsize.trans (congrArg (· * f.outputs) h.records.symm)
    obtain ⟨⟨q1, q2⟩, hthere⟩ := Option.isSome_iff_exists.mp (hrates ds' _ _ hsize')
    simp only [hhere, hthere, and_self]

/-- The inputs of `crossDataset` with other targets. -/
def crossDatasetRetargeted : Dataset Float :=
  { crossDataset with
    values := #[0.5, 1.0, 0.25, 1.0, 0.75, 0.5, 0.75, 0.0, 0.125]
    leaveOut := none
    size_values := rfl }

theorem evaluate_ignores_targets_crossReading :
    let e := crossReading.evaluate (.fuzzy crossDataset {}) 0
    let e' := crossReading.evaluate (.fuzzy crossDatasetRetargeted {}) 0
    crossDatasetRetargeted.targetValues 0 ≠ crossDataset.targetValues 0 ∧ e.failure? = none ∧
      e'.failure? = e.failure? ∧ e'.forest.estimates = e.forest.estimates ∧
      e'.forest.p1 ≠ e.forest.p1 := by
  have hsame : crossDataset.SameInputs crossDatasetRetargeted :=
    ⟨rfl, rfl, rfl, by decide +kernel⟩
  have hrates : ∀ (ds : Dataset Float) (estimates : Array Float) (outputs : Nat),
      estimates.size = ds.records * outputs →
      (errorRates ds estimates outputs).isSome = true := by
    intro ds estimates outputs hsize
    obtain ⟨p1, p2, hrates⟩ := exists_errorRates hsize
    rw [hrates, Option.isSome_some]
  obtain ⟨hfailure, hestimates⟩ := evaluate_ignores_targets hsame (by decide) {} hrates
    (show ∀ i ∈ crossReading.code, i.ReadsInputs crossDataset.inputs by decide +kernel) 0
  exact ⟨by decide +kernel, by decide +kernel, hfailure, hestimates, by decide +kernel⟩

end Forest

end FuzzyForest
