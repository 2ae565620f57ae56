/-
A static check of code.

Whether code runs on all rows of a dataset can be told without running it: it holds no aggregate,
its stack depth comes to one, and every terminal reads what is there.  A lagged estimate reads an
output in the rows beyond its lag only, and before them the dataset itself where that has no inputs,
so that the number of rows decides which of its operands matter.  `Code.IsExecutable` is this check.
`FailsAt` lists the ways in which a row can end a run; each of them breaks a part of the check, and
none reaches outside of a buffer.
-/
import FuzzyForest.Proofs.SoundEvaluation

namespace FuzzyForest

variable {α : Type}

/-! ### The check -/

/-- Whether a terminal finds what it reads in every row of a dataset, for which there are the
estimates of `outputs` trees. -/
def Instruction.IsSupplied (ds : Dataset α) (outputs : Nat) (i : Instruction α) : Prop :=
  (i.opcode = .input ∨ i.opcode = .pastInput → i.operand < ds.columns) ∧
  (i.opcode = .pastOutput → (i.operand < outputs ∨ ds.records ≤ i.lag + 1) ∧
    (i.operand < ds.columns ∨ 0 < ds.inputs))

instance (ds : Dataset α) (outputs : Nat) (i : Instruction α) :
    Decidable (i.IsSupplied ds outputs) := inferInstanceAs (Decidable (_ ∧ _))

/-- Whether code runs on every row of a dataset, as far as its instructions tell. -/
structure Code.IsExecutable (ds : Dataset α) (outputs : Nat) (code : Code α) : Prop where
  notAggregate : ∀ i ∈ code, i.isAggregate = false
  depth : code.residualDepth = some 1
  isSupplied : ∀ i ∈ code, i.IsSupplied ds outputs

instance (ds : Dataset α) (outputs : Nat) (code : Code α) :
    Decidable (code.IsExecutable ds outputs) :=
  decidable_of_iff ((∀ i ∈ code, i.isAggregate = false) ∧ code.residualDepth = some 1 ∧
      ∀ i ∈ code, i.IsSupplied ds outputs)
    ⟨fun ⟨ha, hd, hs⟩ => ⟨ha, hd, hs⟩, fun ⟨ha, hd, hs⟩ => ⟨ha, hd, hs⟩⟩

/-- Whether a terminal finds what it reads in one row. -/
def Instruction.IsSuppliedAt (ds : Dataset α) (outputs row : Nat) (i : Instruction α) : Prop :=
  if i.opcode = .pastOutput then
    if i.lag < row then i.operand < outputs else i.operand < ds.columns ∨ 0 < ds.inputs
  else i.operand < ds.columns

/-- The first row is within every lag, and the last one is beyond those that matter. -/
lemma Instruction.isSupplied_iff {ds : Dataset α} {outputs : Nat} {i : Instruction α}
    (hop : i.opcode.isTerminal = true) (hrecords : 0 < ds.records) :
    i.IsSupplied ds outputs ↔ ∀ row < ds.records, i.IsSuppliedAt ds outputs row := by
  rcases i with ⟨op, operand, lag, w⟩
  cases op with
  | input | pastInput =>
    simp only [IsSupplied, IsSuppliedAt, reduceCtorEq, or_false, false_or, true_implies,
      false_implies, and_true, if_false]
    exact ⟨fun h _ _ => h, fun h => h 0 hrecords⟩
  | pastOutput =>
    simp only [IsSupplied, IsSuppliedAt, reduceCtorEq, or_self, true_implies, false_implies,
      true_and, if_true]
    constructor
    · rintro ⟨houtput, hcolumn⟩ row hrow
      split
      · omega
      · exact hcolumn
    · intro h
      refine ⟨?_, by simpa using h 0 hrecords⟩
      by_contra hbeyond
      have hlast := h (ds.records - 1) (by omega)
      rw [if_pos (by omega)] at hlast
      omega
  | _ => cases hop

/-! ### Reading in one row -/

namespace Frame

/-- In a row of the dataset a value is found exactly if its column is there. -/
lemma exists_readRow_iff {f : Frame α} {row operand : Nat} (hrow : row < f.dataset.records) :
    (∃ x, f.readRow row operand = .ok x) ↔ operand < f.dataset.columns := by
  constructor
  · rintro ⟨x, hx⟩
    by_contra hoperand
    rw [readRow, if_pos (Dataset.hasRow_of_lt hrow), Dataset.cell?, if_neg hoperand] at hx
    cases hx
  · exact exists_readRow hrow

lemma eq_of_readRow_eq_error {f : Frame α} {row operand : Nat} {e : ExecutionError α}
    (hrow : row < f.dataset.records) (h : f.readRow row operand = .error e) :
    e = .operandOutOfRange operand f.dataset.columns := by
  rw [readRow, if_pos (Dataset.hasRow_of_lt hrow)] at h
  split at h
  · cases h
  · cases h
    rfl

variable {ds : Dataset α} {row outputs : Nat} {estimates : Array α}

lemma eq_of_readEstimate_eq_error {row' operand : Nat} {e : ExecutionError α}
    (hsize : estimates.size = ds.records * outputs) (hrow : row' < ds.records)
    (h : Frame.readEstimate ⟨ds, row, estimates, outputs⟩ row' operand = .error e) :
    e = .operandOutOfRange operand outputs := by
  by_cases hoperand : operand < outputs
  · obtain ⟨x, hx⟩ : ∃ x, Frame.readEstimate ⟨ds, row, estimates, outputs⟩ row' operand = .ok x :=
      exists_readEstimate hsize hrow hoperand
    rw [hx] at h
    cases h
  · simp only [readEstimate] at h
    rw [if_pos (estimates_le_size hsize hrow), if_neg hoperand] at h
    cases h
    rfl

variable [Scalar α]

/-- Where there are estimates for all rows, a terminal finds what it reads exactly if it is
supplied. -/
lemma exists_read_iff (hsize : estimates.size = ds.records * outputs) (hrow : row < ds.records)
    (i : Instruction α) :
    (∃ x, Frame.read ⟨ds, row, estimates, outputs⟩ i = .ok x) ↔ i.IsSuppliedAt ds outputs row := by
  have hback : row - i.lag < ds.records := Nat.lt_of_le_of_lt (Nat.sub_le _ _) hrow
  rcases i with ⟨op, operand, lag, w⟩
  cases op with
  | pastInput =>
    simp only [read, Instruction.IsSuppliedAt, reduceCtorEq, if_false]
    split
    · exact exists_readRow_iff hback
    · exact exists_readRow_iff hrow
  | pastOutput =>
    simp only [read, Instruction.IsSuppliedAt, if_true]
    split
    · exact ⟨fun h => (exists_readEstimate_iff.mp h).2, exists_readEstimate hsize hback⟩
    · split
      · rename_i hinputs
        rw [exists_readRow_iff hrow, or_iff_left (by omega)]
      · rename_i hinputs
        exact iff_of_true ⟨_, rfl⟩ (.inr (Nat.pos_of_ne_zero hinputs))
  | _ => exact exists_readRow_iff hrow

/-- A terminal that does not find what it reads has an operand out of range. -/
lemma eq_of_read_eq_error (hsize : estimates.size = ds.records * outputs) (hrow : row < ds.records)
    {i : Instruction α} {e : ExecutionError α}
    (h : Frame.read ⟨ds, row, estimates, outputs⟩ i = .error e) :
    ∃ width, e = .operandOutOfRange i.operand width := by
  have hback : row - i.lag < ds.records := Nat.lt_of_le_of_lt (Nat.sub_le _ _) hrow
  rcases i with ⟨op, operand, lag, w⟩
  cases op with
  | pastInput =>
    simp only [read] at h
    split at h
    · exact ⟨_, eq_of_readRow_eq_error hback h⟩
    · exact ⟨_, eq_of_readRow_eq_error hrow h⟩
  | pastOutput =>
    simp only [read] at h
    split at h
    · exact ⟨_, eq_of_readEstimate_eq_error hsize hback h⟩
    · split at h
      · exact ⟨_, eq_of_readRow_eq_error hrow h⟩
      · cases h
  | _ => exact ⟨_, eq_of_readRow_eq_error hrow h⟩

/-- All terminals of a buffer find what they read in every row exactly if they are supplied. -/
lemma reads_iff_isSupplied (hrecords : 0 < ds.records)
    (hsize : estimates.size = ds.records * outputs) {code : Code α} :
    (∀ row < ds.records, Frame.Reads ⟨ds, row, estimates, outputs⟩ code) ↔
      ∀ i ∈ code, i.IsSupplied ds outputs := by
  constructor
  · intro h i hi
    by_cases hop : i.opcode.isTerminal = true
    · rw [Instruction.isSupplied_iff hop hrecords]
      exact fun row hrow => (exists_read_iff hsize hrow i).mp (h row hrow i hi hop)
    · rcases i with ⟨op, operand, lag, w⟩
      cases op <;> first | exact absurd rfl hop | exact ⟨nofun, nofun⟩
  · intro h row hrow i hi hop
    exact (exists_read_iff hsize hrow i).mpr
      ((Instruction.isSupplied_iff hop hrecords).mp (h i hi) row hrow)

end Frame

/-! ### Running in one row -/

section

variable [Scalar α]

/-- Why an instruction fails. -/
inductive Fails (f : Frame α) (i : Instruction α) : ExecutionError α → Prop
  /-- An aggregate cannot be run. -/
  | aggregate (ha : i.isAggregate = true) : Fails f i (.unsupported i)
  /-- A terminal does not find what it reads. -/
  | terminal {e : ExecutionError α} (hi : i.opcode.isTerminal = true) (he : f.read i = .error e) :
    Fails f i e
  /-- An operator finds too few values. -/
  | underflow : Fails f i (.stackUnderflow i)

variable {f : Frame α} {code : Code α} {stack : List α}

lemma fails_of_fuzzyStep {i : Instruction α} {e : ExecutionError α}
    (h : fuzzyStep f i stack = .error e) : Fails f i e := by
  rcases i with ⟨op, operand, lag, w⟩
  cases op <;> simp only [fuzzyStep] at h
  case noOp | separator => cases h
  case input | pastInput | pastOutput =>
    split at h
    · cases h
    · rename_i e' he
      cases h
      exact .terminal rfl he
  case processAll =>
    cases h
    exact .aggregate rfl
  all_goals
    split at h
    · cases h
    · cases h
      exact .underflow

/-- A run fails for the sake of one of its instructions. -/
lemma exists_fails_of_fuzzyRun {e : ExecutionError α} (h : fuzzyRun f code stack = .error e) :
    ∃ i ∈ code, Fails f i e := by
  induction code generalizing stack with
  | nil => cases h
  | cons i rest ih =>
    rw [fuzzyRun] at h
    cases hstep : fuzzyStep f i stack with
    | error e' =>
      rw [hstep] at h
      cases h
      exact ⟨i, List.mem_cons_self, fails_of_fuzzyStep hstep⟩
    | ok middle =>
      rw [hstep] at h
      obtain ⟨j, hj, hfails⟩ := ih h
      exact ⟨j, List.mem_cons_of_mem _ hj, hfails⟩

/-- The terminals of code that runs to its end have found what they read. -/
lemma reads_of_fuzzyRun {stack' : List α} (h : fuzzyRun f code stack = .ok stack') :
    f.Reads code := by
  induction code generalizing stack with
  | nil => exact nofun
  | cons i rest ih =>
    rw [fuzzyRun] at h
    cases hstep : fuzzyStep f i stack with
    | error e =>
      rw [hstep] at h
      cases h
    | ok middle =>
      rw [hstep] at h
      refine List.forall_mem_cons.mpr ⟨fun hop => ?_, ih h⟩
      cases fuzzyStep_eq_ok_iff.mp hstep with
      | skip hi =>
        rw [Instruction.isLive_of_isTerminal hop] at hi
        cases hi
      | terminal _ hx => exact ⟨_, hx⟩
      | unary hi =>
        rw [hi] at hop
        cases hop
      | binary hi =>
        rw [Instruction.arity, Opcode.arity_of_isTerminal hop] at hi
        cases hi

/-- **Code leaves one value exactly if it holds no aggregate, its depth comes to one and its
terminals find what they read.** -/
theorem exists_fuzzyRun_iff : (∃ x, fuzzyRun f code [] = .ok [x]) ↔
    (∀ i ∈ code, i.isAggregate = false) ∧ code.residualDepth = some 1 ∧ f.Reads code := by
  constructor
  · rintro ⟨x, hx⟩
    exact ⟨notAggregate_of_fuzzyRun hx, depthFrom_of_fuzzyRun hx, reads_of_fuzzyRun hx⟩
  · rintro ⟨ha, hdepth, hreads⟩
    have hempty : Code.depthFrom ([] : List α).length code = some 1 := hdepth
    obtain ⟨stack, hrun, hlength⟩ := exists_fuzzyRun ha hreads hempty
    obtain ⟨x, rfl⟩ := List.length_eq_one_iff.mp hlength
    exact ⟨x, hrun⟩

/-! ### Running on all rows -/

/-- Why a row ends a run. -/
inductive FailsAt (code : Code α) (ds : Dataset α) (outputIdx outputs row : Nat)
    (estimates : Array α) : ExecutionError α → Prop
  /-- An instruction fails. -/
  | broken {e : ExecutionError α}
    (hrun : fuzzyRun ⟨ds, row, estimates, outputs⟩ code [] = .error e) :
    FailsAt code ds outputIdx outputs row estimates e
  /-- The code leaves another number of values than one. -/
  | residue {stack : List α}
    (hrun : fuzzyRun ⟨ds, row, estimates, outputs⟩ code [] = .ok stack)
    (hlength : stack.length ≠ 1) :
    FailsAt code ds outputIdx outputs row estimates (.residualDepth stack.length row)
  /-- There is no place for the value. -/
  | outside (hplace : estimates.size ≤ placeOf estimates outputIdx outputs row) :
    FailsAt code ds outputIdx outputs row estimates .outOfBounds

variable {ds : Dataset α} {outputIdx outputs : Nat} {estimates : Array α} {e : ExecutionError α}

lemma exists_failsAt_of_executeRows {remaining row count : Nat}
    (h : (executeRows fuzzySteps code ds outputIdx outputs remaining row estimates count).failure?
      = some e) :
    ∃ row' estimates', row' < row + remaining ∧ estimates'.size = estimates.size ∧
      FailsAt code ds outputIdx outputs row' estimates' e := by
  induction remaining generalizing row estimates count with
  | zero => cases h
  | succ remaining ih =>
    have hfst := runCode_fst ⟨ds, row, estimates, outputs⟩ count code []
    have hlt : row < row + (remaining + 1) := by omega
    rw [executeRows] at h
    split at h
    · dsimp only at h
      split at h
      · obtain ⟨row', estimates', hrow', hsize, hfails⟩ := ih h
        exact ⟨row', estimates', by omega, by rw [hsize, Array.size_setIfInBounds], hfails⟩
      · rename_i houtside
        cases h
        exact ⟨row, estimates, hlt, rfl, .outside (Nat.le_of_not_lt houtside)⟩
    · rename_i stack count' hstack hrun
      rw [hrun] at hfst
      cases h
      refine ⟨row, estimates, hlt, rfl, .residue hfst.symm fun hlength => ?_⟩
      obtain ⟨x, rfl⟩ := List.length_eq_one_iff.mp hlength
      exact hstack x rfl
    · rename_i e' count' hrun
      rw [hrun] at hfst
      cases h
      exact ⟨row, estimates, hlt, rfl, .broken hfst.symm⟩

/-- What can end a run where every output has its place. -/
inductive Cause (code : Code α) (ds : Dataset α) (outputs : Nat) : ExecutionError α → Prop
  /-- An instruction fails in some row. -/
  | instruction {row : Nat} {estimates : Array α} {i : Instruction α} {e : ExecutionError α}
    (hrow : row < ds.records) (hsize : estimates.size = ds.records * outputs) (hi : i ∈ code)
    (hfails : Fails ⟨ds, row, estimates, outputs⟩ i e) : Cause code ds outputs e
  /-- None or several values are left. -/
  | residue (depth row : Nat) : Cause code ds outputs (.residualDepth depth row)

lemma cause_of_failure (houtput : outputIdx < outputs)
    (hsize : estimates.size = ds.records * outputs) {count : Nat}
    (h : (execute fuzzySteps code ds estimates outputIdx outputs count).failure? = some e) :
    Cause code ds outputs e := by
  obtain ⟨row, estimates', hrow, hsize', hfails⟩ := exists_failsAt_of_executeRows h
  rw [Nat.zero_add] at hrow
  rw [hsize] at hsize'
  cases hfails with
  | broken hrun =>
    obtain ⟨i, hi, hfails⟩ := exists_fails_of_fuzzyRun hrun
    exact .instruction hrow hsize' hi hfails
  | residue => exact .residue _ _
  | outside hplace =>
    exact absurd (placeOf_lt_size hsize' houtput hrow) (Nat.not_lt_of_le hplace)

/-- A run succeeds on all rows exactly if the check is passed. -/
lemma failure?_eq_none_iff (hrecords : 0 < ds.records) (houtput : outputIdx < outputs)
    (hsize : estimates.size = ds.records * outputs) (count : Nat) :
    (execute fuzzySteps code ds estimates outputIdx outputs count).failure? = none ↔
      code.IsExecutable ds outputs := by
  obtain ⟨stop, buffer, value, rfl, hstored, -, hended⟩ :=
    exists_stored code ds estimates outputIdx outputs count
  have hbuffer : ∀ row ≤ stop, (buffer row).size = ds.records * outputs := fun row hrow =>
    (hstored.size_eq hrow).trans hsize
  constructor
  · intro hnone
    rw [hnone] at hended
    obtain rfl := hended.of_none
    -- every row has run, and the first one has met all of the code
    have hrun : ∀ row < ds.records, ∃ x,
        fuzzyRun ⟨ds, row, buffer row, outputs⟩ code [] = .ok [x] := fun row hrow =>
      ⟨value row, hstored.run row (Nat.zero_le _) hrow⟩
    obtain ⟨ha, hdepth, -⟩ := exists_fuzzyRun_iff.mp (hrun 0 hrecords)
    refine ⟨ha, hdepth, (Frame.reads_iff_isSupplied hrecords hsize).mp fun row hrow => ?_⟩
    obtain ⟨-, -, hreads⟩ := exists_fuzzyRun_iff.mp (hrun row hrow)
    exact hreads.of_size (hstored.size_eq (Nat.le_of_lt hrow)).symm
  · intro hcode
    have hreads : ∀ row < ds.records, Frame.Reads ⟨ds, row, buffer stop, outputs⟩ code :=
      (Frame.reads_iff_isSupplied hrecords (hbuffer stop le_rfl)).mpr hcode.isSupplied
    generalize (execute fuzzySteps code ds (buffer 0) outputIdx outputs count).failure? = failure?
      at hended ⊢
    cases hended with
    | done => rfl
    | failed hrow e hrun =>
      obtain ⟨x, hx⟩ :=
        exists_fuzzyRun_iff.mpr ⟨hcode.notAggregate, hcode.depth, hreads stop hrow⟩
      exact absurd hx (hrun x)
    | outside hrow hplace =>
      exact absurd (placeOf_lt_size (hbuffer stop le_rfl) houtput hrow) (Nat.not_lt_of_le hplace)

end

/-- **The check is exact.**  Where every output has its place in the buffer, code succeeds on all
rows exactly if it passes; where the depth alone is amiss the failure is structural, and no failure
breaks off. -/
theorem execute_succeeds_iff {ds : Dataset Float} {outputs outputIdx : Nat}
    {estimates : Array Float} (hrecords : 0 < ds.records) (houtput : outputIdx < outputs)
    (hsize : estimates.size = ds.records * outputs) (code : Code Float) (count : Nat) :
    let failure? := (execute fuzzySteps code ds estimates outputIdx outputs count).failure?
    (failure? = none ↔ code.IsExecutable ds outputs) ∧
    ((∀ i ∈ code, i.isAggregate = false) → (∀ i ∈ code, i.IsSupplied ds outputs) →
      code.residualDepth ≠ some 1 →
      ∃ e, failure? = some e ∧ (Error.execution e).kind = .structuralCorruption) ∧
    ∀ e, failure? = some e → (Error.execution e).kind ≠ .breakdown := by
  have hiff : (execute fuzzySteps code ds estimates outputIdx outputs count).failure? = none ↔
      code.IsExecutable ds outputs := failure?_eq_none_iff hrecords houtput hsize count
  refine ⟨hiff, fun ha hsupplied hdepth => ?_, fun e he => ?_⟩
  · cases hfailure : (execute fuzzySteps code ds estimates outputIdx outputs count).failure? with
    | none => exact absurd (hiff.mp hfailure).depth hdepth
    | some e =>
      refine ⟨e, rfl, ?_⟩
      cases cause_of_failure houtput hsize hfailure with
      | residue => rfl
      | @instruction row estimates' i _ hrow hsize' hi hfails =>
        cases hfails with
        | underflow => rfl
        | aggregate haggregate =>
          rw [ha i hi] at haggregate
          cases haggregate
        | terminal hop hread =>
          -- a supplied terminal does not fail
          obtain ⟨x, hx⟩ :=
            (Frame.reads_iff_isSupplied hrecords hsize').mpr hsupplied row hrow i hi hop
          rw [hx] at hread
          cases hread
  · cases cause_of_failure houtput hsize he with
    | residue => exact nofun
    | instruction hrow hsize' hi hfails =>
      cases hfails with
      | underflow | aggregate => exact nofun
      | terminal hop hread =>
        obtain ⟨width, rfl⟩ := Frame.eq_of_read_eq_error hsize' hrow hread
        exact nofun

/-- An estimate that is not there is asked for in the third row only. -/
theorem execute_succeeds_iff_lagged :
    let tree : Code Float := [.pastOutput 3 1 0.5, .noOp, .input 0 0.25, .plain .and 0.75]
    let two : Dataset Float := ⟨#[0.25, 1.0, 0.5, 0.0], 2, 2, 1, none, rfl, by decide⟩
    let three : Dataset Float := ⟨#[0.25, 1.0, 0.5, 0.0, 0.75, 1.0], 3, 2, 1, none, rfl, by decide⟩
    (execute fuzzySteps tree two #[0.0, 0.0] 0 1 0).failure? = none ∧
    (execute fuzzySteps tree three #[0.0, 0.0, 0.0] 0 1 0).failure? ≠ none ∧
    ∃ e, (execute fuzzySteps [.input 0 0.5, .input 1 0.5] three #[0.0, 0.0, 0.0] 0 1 0).failure?
      = some e ∧ (Error.execution e).kind = .structuralCorruption := by
  intro tree two three
  have hplace : 0 < 1 := Nat.one_pos
  refine ⟨?_, ?_, ?_⟩
  · exact ((execute_succeeds_iff (by decide) hplace rfl tree 0).1).mpr (by decide +kernel)
  · exact ((execute_succeeds_iff (by decide) hplace rfl tree 0).1).not.mpr (by decide +kernel)
  · exact (execute_succeeds_iff (by decide) hplace rfl _ 0).2.1 (by decide +kernel)
      (by decide +kernel) (by decide +kernel)

end FuzzyForest
