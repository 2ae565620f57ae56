/-
No estimate depends on later rows.

Each tree runs on all rows before the next one starts, so that the buffer of estimates holds later
rows of the trees before it.  A lag never looks ahead, though: at a row only the cells and the
estimates of that row and of rows before it are read.  A forest that is evaluated on the first rows
of a dataset alone therefore finds the same in its buffer, entry by entry, and ends with the first
part of the estimates.
-/
import FuzzyForest.Proofs.SoundEvaluation

namespace FuzzyForest

variable {α : Type}

/-! ### First rows -/

namespace Dataset

/-- The rows of a dataset are the first rows of another one. -/
structure Begins (cut ds : Dataset α) : Prop where
  records : cut.records ≤ ds.records
  columns : cut.columns = ds.columns
  targets : cut.targets = ds.targets
  cell? : ∀ row < cut.records, ∀ column < ds.columns, cut.cell? row column = ds.cell? row column

/-- The first rows of a dataset. -/
def firstRows (ds : Dataset α) (n : Nat) (h : n ≤ ds.records) : Dataset α where
  values := ds.values.extract 0 (n * ds.columns)
  records := n
  columns := ds.columns
  targets := ds.targets
  leaveOut := ds.leaveOut
  size_values := by
    have hle := Nat.mul_le_mul_right ds.columns h
    rw [← ds.size_values] at hle
    rw [Array.size_extract, Nat.min_eq_left hle, Nat.sub_zero]
  targets_le := ds.targets_le

/-- Whatever row the first rows leave out. -/
lemma begins_firstRows (ds : Dataset α) {n : Nat} (h : n ≤ ds.records) (leaveOut : Option Nat) :
    Begins ((ds.firstRows n h).withLeaveOut leaveOut) ds := by
  refine ⟨h, rfl, rfl, fun row hrow column hcolumn => ?_⟩
  have hentry : row * ds.columns + column < n * ds.columns := entry_lt hrow hcolumn
  have hcut : ((ds.firstRows n h).withLeaveOut leaveOut).rowStart row = row * ds.columns :=
    rowStart_eq hrow
  have hds : ds.rowStart row = row * ds.columns := rowStart_eq (Nat.lt_of_lt_of_le hrow h)
  rw [cell?, cell?, hcut, hds, if_pos hcolumn]
  refine (if_pos (show column < ds.columns from hcolumn)).trans ?_
  have hle : n * ds.columns ≤ ds.values.size :=
    ds.size_values ▸ Nat.mul_le_mul_right ds.columns h
  show (ds.values.extract 0 (n * ds.columns))[row * ds.columns + column]? = _
  rw [Array.getElem?_extract, if_pos (by omega), Nat.zero_add]

end Dataset

open Dataset

variable {cut ds : Dataset α} {outputs : Nat} {a b : Array α}

/-! ### Reading -/

/-- The estimates for the first rows are the first ones. -/
structure Agree (cut ds : Dataset α) (outputs : Nat) (a b : Array α) : Prop where
  short : a.size = cut.records * outputs
  long : b.size = ds.records * outputs
  entry : ∀ k < cut.records * outputs, a[k]? = b[k]?

lemma Dataset.Begins.readRow (h : Begins cut ds) {row row' : Nat} (hrow : row' < cut.records)
    (operand : Nat) : Frame.readRow ⟨cut, row, a, outputs⟩ row' operand
      = Frame.readRow ⟨ds, row, b, outputs⟩ row' operand := by
  rw [Frame.readRow, Frame.readRow, if_pos (hasRow_of_lt hrow),
    if_pos (hasRow_of_lt (Nat.lt_of_lt_of_le hrow h.records))]
  by_cases hoperand : operand < ds.columns
  · rw [h.cell? row' hrow operand hoperand, h.columns]
  · rw [Dataset.cell?, Dataset.cell?, if_neg hoperand, if_neg (h.columns.symm ▸ hoperand),
      h.columns]

lemma Agree.readEstimate (hab : Agree cut ds outputs a b) (h : Begins cut ds) (row : Nat)
    {row' : Nat} (hrow : row' < cut.records) (operand : Nat) :
    Frame.readEstimate ⟨cut, row, a, outputs⟩ row' operand
      = Frame.readEstimate ⟨ds, row, b, outputs⟩ row' operand := by
  rcases Nat.eq_zero_or_pos outputs with rfl | hpos
  · simp [Frame.readEstimate, Address.of]
  · have hcut : row' * outputs + outputs ≤ cut.records * outputs := by
      rw [← Nat.succ_mul]
      exact Nat.mul_le_mul_right outputs hrow
    have hds : cut.records * outputs ≤ ds.records * outputs :=
      Nat.mul_le_mul_right outputs h.records
    have hstart : Address.of a.size (row' * outputs) = row' * outputs :=
      Address.of_eq_self (by rw [hab.short]; omega)
    have hstart' : Address.of b.size (row' * outputs) = row' * outputs :=
      Address.of_eq_self (by rw [hab.long]; omega)
    have hroom : row' * outputs + outputs ≤ a.size := by rwa [hab.short]
    have hroom' : row' * outputs + outputs ≤ b.size := by
      rw [hab.long]
      omega
    simp only [Frame.readEstimate, hstart, hstart', if_pos hroom, if_pos hroom']
    by_cases hoperand : operand < outputs
    · rw [if_pos hoperand, if_pos hoperand, hab.entry _ (by omega)]
    · rw [if_neg hoperand, if_neg hoperand]

/-- An entry that is stored in both buffers. -/
lemma Agree.store (hab : Agree cut ds outputs a b) (h : cut.records ≤ ds.records) {place : Nat}
    (hplace : place < cut.records * outputs) (x : α) :
    Agree cut ds outputs (a.setIfInBounds place x) (b.setIfInBounds place x) := by
  have hlong : cut.records * outputs ≤ ds.records * outputs := Nat.mul_le_mul_right outputs h
  refine ⟨by rw [Array.size_setIfInBounds, hab.short], by rw [Array.size_setIfInBounds, hab.long],
    fun k hk => ?_⟩
  by_cases hne : place = k
  · subst hne
    rw [Array.getElem?_setIfInBounds_self_of_lt (by rw [hab.short]; omega),
      Array.getElem?_setIfInBounds_self_of_lt (by rw [hab.long]; omega)]
  · rw [Array.getElem?_setIfInBounds_ne hne, Array.getElem?_setIfInBounds_ne hne, hab.entry k hk]

/-- An entry of a later row that is stored in the longer buffer. -/
lemma Agree.storeLater (hab : Agree cut ds outputs a b) {place : Nat}
    (hplace : cut.records * outputs ≤ place) (x : α) :
    Agree cut ds outputs a (b.setIfInBounds place x) := by
  refine ⟨hab.short, by rw [Array.size_setIfInBounds, hab.long], fun k hk => ?_⟩
  rw [Array.getElem?_setIfInBounds_ne (by omega), hab.entry k hk]

/-- The short buffer is the first part of the long one. -/
lemma Agree.eq_extract (hab : Agree cut ds outputs a b) (h : cut.records ≤ ds.records) :
    a = b.extract 0 (cut.records * outputs) := by
  have hlong : cut.records * outputs ≤ b.size := by
    rw [hab.long]
    exact Nat.mul_le_mul_right outputs h
  refine Array.ext_getElem? fun k => ?_
  rcases Nat.lt_or_ge k (cut.records * outputs) with hk | hk
  · rw [hab.entry k hk, Array.getElem?_extract, if_pos (by omega), Nat.zero_add]
  · rw [Array.getElem?_eq_none (by rw [hab.short]; omega),
      Array.getElem?_eq_none (by rw [Array.size_extract]; omega)]

variable [Scalar α]

/-- **At a row nothing behind it is read**, whatever the operands and the lags are. -/
theorem Agree.read (hab : Agree cut ds outputs a b) (h : Begins cut ds) {row : Nat}
    (hrow : row < cut.records) (i : Instruction α) :
    Frame.read ⟨cut, row, a, outputs⟩ i = Frame.read ⟨ds, row, b, outputs⟩ i := by
  have hback : row - i.lag < cut.records := Nat.lt_of_le_of_lt (Nat.sub_le _ _) hrow
  have hinputs : cut.inputs = ds.inputs := by rw [inputs, inputs, h.columns, h.targets]
  have hcells : ∀ row' < cut.records, ∀ operand, Frame.readRow ⟨cut, row, a, outputs⟩ row' operand
      = Frame.readRow ⟨ds, row, b, outputs⟩ row' operand := fun _ hrow' => h.readRow hrow'
  rcases i with ⟨op, operand, lag, w⟩
  cases op with
  | pastInput => simp only [Frame.read, hcells _ hback, hcells _ hrow]
  | pastOutput =>
    simp only [Frame.read, hab.readEstimate h row hback, hcells _ hrow, hinputs]
  | _ => exact hcells row hrow operand

/-! ### Running a tree -/

section Rows

variable {tree : Code α} {output row : Nat} {estimates : Array α}

/-- A row that leaves one value stores it and goes on. -/
lemma executeRows_of_run {x : α} (hrun : fuzzyRun ⟨ds, row, estimates, outputs⟩ tree [] = .ok [x])
    (hinside : placeOf estimates output outputs row < estimates.size) (remaining count : Nat) :
    ∃ count', executeRows fuzzySteps tree ds output outputs (remaining + 1) row estimates count
      = executeRows fuzzySteps tree ds output outputs remaining (row + 1)
        (estimates.setIfInBounds (placeOf estimates output outputs row) x) count' := by
  obtain ⟨count', hcode⟩ : ∃ count',
      runCode fuzzySteps ⟨ds, row, estimates, outputs⟩ count tree [] = (.ok [x], count') :=
    ⟨_, Prod.ext ((runCode_fst _ count tree []).trans hrun) rfl⟩
  refine ⟨count', ?_⟩
  rw [executeRows, hcode]
  exact if_pos hinside

/-- Rows that run to their end have left one value in the first of them. -/
lemma exists_run_of_executeRows {remaining count : Nat}
    (h : (executeRows fuzzySteps tree ds output outputs (remaining + 1) row estimates
      count).failure? = none) :
    ∃ x, fuzzyRun ⟨ds, row, estimates, outputs⟩ tree [] = .ok [x] ∧
      placeOf estimates output outputs row < estimates.size := by
  have hfst := runCode_fst ⟨ds, row, estimates, outputs⟩ count tree []
  rw [executeRows] at h
  split at h
  · rename_i x count' hrun
    rw [hrun] at hfst
    dsimp only at h
    split at h
    · exact ⟨x, hfst.symm, ‹_›⟩
    · cases h
  · cases h
  · cases h

end Rows

variable {tree : Code α} {output : Nat}

/-- The rows behind the first ones do not change the first estimates. -/
lemma Agree.later (hab : Agree cut ds outputs a b) (houtput : output < outputs)
    {remaining row : Nat} (hfirst : cut.records ≤ row) (hrows : row + remaining ≤ ds.records)
    (count : Nat) : Agree cut ds outputs a
      (executeRows fuzzySteps tree ds output outputs remaining row b count).estimates := by
  induction remaining generalizing row b count with
  | zero => exact hab
  | succ remaining ih =>
    rw [executeRows]
    split
    · dsimp only
      split
      · have hplace : Address.of b.size (row * outputs + output) = row * outputs + output :=
          placeOf_entry hab.long houtput (by omega)
        rw [hplace]
        refine ih (hab.storeLater ?_ _) (by omega) (by omega) _
        exact (Nat.mul_le_mul_right outputs hfirst).trans (Nat.le_add_right _ _)
      · exact hab
    · exact hab
    · exact hab

/-- The first rows run as they do before the others. -/
lemma Agree.rows (hab : Agree cut ds outputs a b) (h : Begins cut ds) (houtput : output < outputs)
    {left later row : Nat} (hcut : row + left = cut.records) (hds : row + left + later = ds.records)
    (count count' : Nat) (hsuccess : (executeRows fuzzySteps tree ds output outputs (left + later)
      row b count).failure? = none) :
    (executeRows fuzzySteps tree cut output outputs left row a count').failure? = none ∧
      Agree cut ds outputs
        (executeRows fuzzySteps tree cut output outputs left row a count').estimates
        (executeRows fuzzySteps tree ds output outputs (left + later) row b count).estimates := by
  induction left generalizing row a b count count' with
  | zero =>
    rw [Nat.zero_add]
    exact ⟨rfl, hab.later houtput (by omega) (by omega) count⟩
  | succ left ih =>
    have hrow : row < cut.records := by omega
    have hentry : row * outputs + output < cut.records * outputs := entry_lt hrow houtput
    have hshort : placeOf a output outputs row = row * outputs + output :=
      placeOf_entry hab.short houtput hrow
    have hlong : placeOf b output outputs row = row * outputs + output :=
      placeOf_entry hab.long houtput (Nat.lt_of_lt_of_le hrow h.records)
    rw [Nat.add_right_comm] at hsuccess ⊢
    obtain ⟨x, hrun, hinside⟩ := exists_run_of_executeRows hsuccess
    -- the same is read, so that the same value is left
    have hrun' : fuzzyRun ⟨cut, row, a, outputs⟩ tree [] = .ok [x] := by
      rw [← hrun, ← runCode_fst _ 0, ← runCode_fst _ 0,
        runCode_congr fun i _ _ => hab.read h hrow i]
    obtain ⟨next, hnext⟩ := executeRows_of_run hrun hinside (left + later) count
    obtain ⟨next', hnext'⟩ := executeRows_of_run hrun'
      (by rw [hshort, hab.short]; exact hentry) left count'
    rw [hnext, hlong] at hsuccess ⊢
    rw [hnext', hshort]
    exact ih (hab.store h.records hentry x) (by omega) (by omega) next next' hsuccess

/-! ### Running all trees -/

/-- All trees run on the first rows as they do on all rows. -/
lemma Agree.trees (hab : Agree cut ds outputs a b) (h : Begins cut ds) {trees : List (Code α)}
    {first : Nat} (hroom : first + trees.length ≤ outputs) (count count' : Nat)
    (hsuccess : (runTrees fuzzySteps ds outputs trees first b count).execution.failure? = none) :
    (runTrees fuzzySteps cut outputs trees first a count').execution.failure? = none ∧
      Agree cut ds outputs
        (runTrees fuzzySteps cut outputs trees first a count').execution.estimates
        (runTrees fuzzySteps ds outputs trees first b count).execution.estimates := by
  induction trees generalizing first a b count count' with
  | nil => exact ⟨rfl, hab⟩
  | cons tree rest ih =>
    rw [List.length_cons] at hroom
    have hle := h.records
    have hrows : cut.records + (ds.records - cut.records) = ds.records := by omega
    cases hfailure : (execute fuzzySteps tree ds b first outputs count).failure? with
    | some e =>
      rw [runTrees_of_failure hfailure, hfailure] at hsuccess
      cases hsuccess
    | none =>
      have hfull : (executeRows fuzzySteps tree ds first outputs
          (cut.records + (ds.records - cut.records)) 0 b count).failure? = none := by
        rw [hrows]
        exact hfailure
      obtain ⟨hnone, hnext⟩ := hab.rows h (show first < outputs by omega) (Nat.zero_add _)
        (show 0 + cut.records + (ds.records - cut.records) = ds.records by omega) count count' hfull
      rw [hrows] at hnext
      rw [runTrees_of_success hfailure] at hsuccess ⊢
      rw [runTrees_of_success (show (execute fuzzySteps tree cut a first outputs count').failure?
        = none from hnone)]
      exact ih hnext (by omega) _ _ hsuccess

/-- Without rows there is nothing to run. -/
lemma runTrees_of_no_rows (h : ds.records = 0) (trees : List (Code α)) (first : Nat)
    (estimates : Array α) (count : Nat) :
    (runTrees fuzzySteps ds outputs trees first estimates count).execution.failure? = none ∧
      (runTrees fuzzySteps ds outputs trees first estimates count).execution.estimates
        = estimates := by
  induction trees generalizing first with
  | nil => exact ⟨rfl, rfl⟩
  | cons tree rest ih =>
    have hrun : execute fuzzySteps tree ds estimates first outputs count
        = ⟨estimates, count, none⟩ := by
      rw [execute, h]
      rfl
    rw [runTrees_of_success (by rw [hrun]), hrun]
    exact ih (first + 1)

/-- Only the trees that have an output find a place in the last row. -/
lemma TreesRun.first_add_length_le {first : Nat} {trees : List (Code α)} {final : Array α}
    (h : TreesRun ds outputs first trees b final) (hrecords : 0 < ds.records)
    (hsize : b.size = ds.records * outputs) (hwords : ds.records * outputs < UInt64.size)
    (hfirst : first ≤ outputs) : first + trees.length ≤ outputs := by
  induction h with
  | nil => exact hfirst
  | @cons first tree rest buffer value final hstored _ ih =>
    have hlast : ds.records - 1 < ds.records := by omega
    have hbuffer : (buffer (ds.records - 1)).size = ds.records * outputs :=
      (hstored.size_eq (Nat.le_of_lt hlast)).trans hsize
    rcases Nat.lt_or_eq_of_le hfirst with hlt | rfl
    · rw [List.length_cons, Nat.add_comm rest.length, ← Nat.add_assoc]
      exact ih ((hstored.size_eq (Nat.le_refl _)).trans hsize) hlt
    · -- the position behind the last entry does not go round
      have hend : (ds.records - 1) * first + first = ds.records * first := by
        rw [← Nat.succ_mul, Nat.succ_eq_add_one, Nat.sub_add_cancel hrecords]
      have hinside := hstored.inside (ds.records - 1) (Nat.zero_le _) hlast
      rw [placeOf, hbuffer, hend, Address.of, if_neg (Nat.lt_irrefl _),
        Nat.mod_eq_of_lt hwords] at hinside
      exact absurd hinside (Nat.lt_irrefl _)

namespace Forest

/-- Every tree has an output, as in any forest that is made of code; or at least the number of
estimates is a word, as it is for any buffer that there is. -/
def IsRoomy (f : Forest α) (records : Nat) : Prop :=
  f.trees.length ≤ f.outputs ∨ records * f.outputs < UInt64.size

variable {f : Forest α} {settings : ModelSettings} {count : Nat}

/-- An evaluation that succeeds does so on the first rows alone. -/
lemma evaluate_of_begins (h : Begins cut ds) (hroomy : f.IsRoomy ds.records)
    (hsuccess : (f.evaluate (.fuzzy ds settings) count).failure? = none) (count' : Nat) :
    (f.evaluate (.fuzzy cut settings) count').failure? = none ∧
      (f.evaluate (.fuzzy cut settings) count').forest.estimates
        = (f.evaluate (.fuzzy ds settings) count).forest.estimates.extract 0
          (cut.records * f.outputs) := by
  obtain ⟨hruns, hestimates⟩ := runTrees_of_evaluate hsuccess
  have hblank : Agree cut ds f.outputs
      (Array.replicate (cut.records * f.outputs) (Scalar.ofNat 0 : α))
      (Array.replicate (ds.records * f.outputs) (Scalar.ofNat 0)) := by
    refine ⟨Array.size_replicate, Array.size_replicate, fun k hk => ?_⟩
    have hlong := Nat.mul_le_mul_right f.outputs h.records
    rw [Array.getElem?_replicate, if_pos hk, Array.getElem?_replicate, if_pos (by omega)]
  have hrun := treesRun_of_success hruns
  have hcut : (runTrees fuzzySteps cut f.outputs f.treeCodes 0
        (Array.replicate (cut.records * f.outputs) (Scalar.ofNat 0)) count').execution.failure?
        = none ∧
      Agree cut ds f.outputs (runTrees fuzzySteps cut f.outputs f.treeCodes 0
        (Array.replicate (cut.records * f.outputs) (Scalar.ofNat 0)) count').execution.estimates
        (f.evaluate (.fuzzy ds settings) count).forest.estimates := by
    rw [hestimates]
    rcases Nat.eq_zero_or_pos cut.records with hzero | hpos
    · obtain ⟨hnone, hsame⟩ := runTrees_of_no_rows hzero f.treeCodes 0
        (Array.replicate (cut.records * f.outputs) (Scalar.ofNat 0)) count'
      refine ⟨hnone, ?_⟩
      rw [hsame]
      refine ⟨Array.size_replicate, hrun.size_eq.trans Array.size_replicate, fun k hk => ?_⟩
      rw [hzero, Nat.zero_mul] at hk
      exact absurd hk (Nat.not_lt_zero k)
    · have hroom : 0 + f.treeCodes.length ≤ f.outputs := by
        rcases hroomy with hlength | hwords
        · rwa [Nat.zero_add, treeCodes, List.length_map]
        · exact hrun.first_add_length_le (Nat.lt_of_lt_of_le hpos h.records) Array.size_replicate
            hwords (Nat.zero_le _)
      exact hblank.trees h hroom count count' hruns
  obtain ⟨hnone, hagree⟩ := hcut
  obtain ⟨hok, hsame⟩ := evaluate_of_runTrees settings hnone hagree.short
  exact ⟨hok, by rw [hsame, hagree.eq_extract h.records]⟩

/-- **No estimate depends on a later row.**  Where a forest can be evaluated, it can be evaluated on
the first rows alone, whichever row these leave out, and the estimates are the first ones.  Two
datasets that begin with the same rows therefore have the same first estimates. -/
theorem evaluate_firstRows (ds : Dataset α) (settings : ModelSettings) (f : Forest α)
    (count : Nat) {n : Nat} (hn : n ≤ ds.records) (leaveOut : Option Nat)
    (hroomy : f.IsRoomy ds.records)
    (hsuccess : (f.evaluate (.fuzzy ds settings) count).failure? = none) :
    let first := (ds.firstRows n hn).withLeaveOut leaveOut
    let estimates := (f.evaluate (.fuzzy ds settings) count).forest.estimates
    (∀ count', (f.evaluate (.fuzzy first settings) count').failure? = none ∧
      (f.evaluate (.fuzzy first settings) count').forest.estimates
        = estimates.extract 0 (n * f.outputs)) ∧
    ∀ (other : Dataset α) (count' : Nat), Begins first other → f.IsRoomy other.records →
      (f.evaluate (.fuzzy other settings) count').failure? = none →
      (f.evaluate (.fuzzy other settings) count').forest.estimates.extract 0 (n * f.outputs)
        = estimates.extract 0 (n * f.outputs) := by
  intro first estimates
  have hbegins : Begins first ds := begins_firstRows ds hn leaveOut
  refine ⟨fun count' => evaluate_of_begins hbegins hroomy hsuccess count', ?_⟩
  intro other count' hother hroomy' hsuccess'
  have hhere := (evaluate_of_begins hbegins hroomy hsuccess 0).2
  have hthere := (evaluate_of_begins hother hroomy' hsuccess' 0).2
  exact hthere.symm.trans hhere

/-- The same rows as in `crossDataset`, but for the last one. -/
def crossDataset' : Dataset Float :=
  { crossDataset with
    values := #[0.5, 0.0, 0.0, 1.0, 0.0, 1.0, 0.25, 0.0, 0.5]
    size_values := rfl }

theorem evaluate_firstRows_crossReading :
    let first := (crossDataset.firstRows 2 (by decide)).withLeaveOut none
    let estimates := (crossReading.evaluate (.fuzzy crossDataset {}) 0).forest.estimates
    (crossReading.evaluate (.fuzzy first {}) 0).failure? = none ∧
      (crossReading.evaluate (.fuzzy first {}) 0).forest.estimates
        = estimates.extract 0 (2 * crossReading.outputs) ∧
      (crossReading.evaluate (.fuzzy crossDataset' {}) 0).forest.estimates.extract 0
          (2 * crossReading.outputs)
        = estimates.extract 0 (2 * crossReading.outputs) := by
  obtain ⟨hfirst, hother⟩ := evaluate_firstRows crossDataset {} crossReading 0
    (show 2 ≤ crossDataset.records by decide) none (.inl (by decide +kernel)) (by decide +kernel)
  obtain ⟨hnone, hestimates⟩ := hfirst 0
  have hbegins : Begins ((crossDataset.firstRows 2 (by decide)).withLeaveOut none) crossDataset' :=
    ⟨by decide, rfl, rfl, by decide +kernel⟩
  exact ⟨hnone, hestimates,
    hother crossDataset' 0 hbegins (.inl (by decide +kernel)) (by decide +kernel)⟩

end Forest

end FuzzyForest
