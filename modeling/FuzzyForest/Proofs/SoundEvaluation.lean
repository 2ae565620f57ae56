/-
Evaluation of sound forests.

A forest is sound for a dataset if it has one well-formed tree for each target and nothing in it
reads out of range.  In such a forest every terminal finds what it reads in every row, every
estimate has its place and every score its estimates, so that its evaluation cannot fail.
-/
import FuzzyForest.Proofs.Growth
import FuzzyForest.Proofs.LaggedEstimates

namespace FuzzyForest

open Code (IsForest)

variable {α : Type} {ds : Dataset α}

/-- What makes a forest fit for a dataset. -/
structure Forest.IsSound (ds : Dataset α) (f : Forest α) : Prop where
  isForest : IsForest ds.targets f.code
  outputs : f.outputs = ds.targets
  inRange : ∀ i ∈ f.code, i.InRange ds.shape

/-! ### Reading -/

lemma Frame.exists_readRow {f : Frame α} {row operand : Nat} (hrow : row < f.dataset.records)
    (hoperand : operand < f.dataset.columns) : ∃ x, f.readRow row operand = .ok x := by
  obtain ⟨x, hx⟩ := Dataset.cell?_eq_some hrow hoperand
  exact ⟨x, by rw [readRow, if_pos (Dataset.hasRow_of_lt hrow), hx]⟩

/-- Estimates for all rows hold those of each row. -/
lemma estimates_le_size {row outputs : Nat} {estimates : Array α}
    (hsize : estimates.size = ds.records * outputs) (hrow : row < ds.records) :
    Address.of estimates.size (row * outputs) + outputs ≤ estimates.size := by
  have hlast : row * outputs + outputs ≤ ds.records * outputs :=
    calc row * outputs + outputs = (row + 1) * outputs := by rw [Nat.add_mul, Nat.one_mul]
      _ ≤ ds.records * outputs := Nat.mul_le_mul_right _ hrow
  rcases Nat.eq_zero_or_pos outputs with rfl | hpos
  · simp [Address.of, hsize]
  · rwa [hsize, Address.of_eq_self (by omega)]

lemma Frame.exists_readEstimate {row row' outputs operand : Nat} {estimates : Array α}
    (hsize : estimates.size = ds.records * outputs) (hrow : row' < ds.records)
    (hoperand : operand < outputs) :
    ∃ x, Frame.readEstimate ⟨ds, row, estimates, outputs⟩ row' operand = .ok x :=
  exists_readEstimate_iff.mpr ⟨estimates_le_size hsize hrow, hoperand⟩

variable [Scalar α]

/-- **Terminals in range find what they read**, in any row and whatever the estimates are. -/
theorem Frame.reads_of_inRange (htargets : 0 < ds.targets) {row : Nat} (hrow : row < ds.records)
    {estimates : Array α} (hsize : estimates.size = ds.records * ds.targets) {code : Code α}
    (h : ∀ i ∈ code, i.InRange ds.shape) : Frame.Reads ⟨ds, row, estimates, ds.targets⟩ code := by
  intro i hi hop
  have hcolumns := ds.inputs_add_targets
  have hinput : i.opcode = .input ∨ i.opcode = .pastInput → i.operand < ds.columns := fun hop => by
    have hoperand : i.operand < max ds.inputs 1 := (h i hi).input hop
    omega
  have htarget : i.opcode = .pastOutput → i.operand < ds.targets := fun hop => by
    have hoperand : i.operand < max ds.targets 1 := (h i hi).target hop
    omega
  rcases i with ⟨op, operand, lag, w⟩
  cases op with
  | input => exact exists_readRow hrow (hinput (.inl rfl))
  | pastInput =>
    simp only [Frame.read]
    split
    · exact exists_readRow (Nat.lt_of_le_of_lt (Nat.sub_le _ _) hrow) (hinput (.inr rfl))
    · exact exists_readRow hrow (hinput (.inr rfl))
  | pastOutput =>
    simp only [Frame.read]
    split
    · exact exists_readEstimate hsize (Nat.lt_of_le_of_lt (Nat.sub_le _ _) hrow) (htarget rfl)
    · split
      · exact exists_readRow hrow (Nat.lt_of_lt_of_le (htarget rfl) ds.targets_le)
      · exact ⟨_, rfl⟩
  | _ => cases hop

/-! ### Running -/

/-- A tree in range runs on all rows. -/
lemma execute_of_inRange (htargets : 0 < ds.targets) {tree : Code α}
    (htree : tree.isWellFormed = true) (hrange : ∀ i ∈ tree, i.InRange ds.shape)
    {estimates : Array α} (hsize : estimates.size = ds.records * ds.targets) {output : Nat}
    (houtput : output < ds.targets) (count : Nat) :
    (execute fuzzySteps tree ds estimates output ds.targets count).failure? = none ∧
      (execute fuzzySteps tree ds estimates output ds.targets count).estimates.size
        = ds.records * ds.targets := by
  obtain ⟨stop, buffer, value, rfl, hstored, hend, hended⟩ :=
    exists_stored tree ds estimates output ds.targets count
  have hbuffer : (buffer stop).size = ds.records * ds.targets :=
    (hstored.size_eq (Nat.le_refl _)).trans hsize
  have hreads : stop < ds.records → Frame.Reads ⟨ds, stop, buffer stop, ds.targets⟩ tree :=
    fun hstop => Frame.reads_of_inRange htargets hstop hbuffer hrange
  rw [hend]
  rcases hended.eq_none_or htree (fun i hi => (hrange i hi).notAggregate) hreads with
    ⟨hnone, -⟩ | ⟨-, hstop, houtside⟩
  · exact ⟨hnone, hbuffer⟩
  · exact absurd (placeOf_lt_size hbuffer houtput hstop) (Nat.not_lt_of_le houtside)

lemma runTrees_of_inRange (htargets : 0 < ds.targets) {trees : List (Code α)}
    (htrees : ∀ tree ∈ trees, tree.isWellFormed = true ∧ ∀ i ∈ tree, i.InRange ds.shape)
    {estimates : Array α} (hsize : estimates.size = ds.records * ds.targets) {first : Nat}
    (hroom : first + trees.length ≤ ds.targets) (count : Nat) :
    (runTrees fuzzySteps ds ds.targets trees first estimates count).execution.failure? = none ∧
      (runTrees fuzzySteps ds ds.targets trees first estimates count).execution.estimates.size
        = ds.records * ds.targets := by
  induction trees generalizing first estimates count with
  | nil => exact ⟨rfl, hsize⟩
  | cons tree rest ih =>
    obtain ⟨⟨htree, hrange⟩, hrest⟩ := List.forall_mem_cons.mp htrees
    rw [List.length_cons] at hroom
    obtain ⟨hnone, hnext⟩ :=
      execute_of_inRange htargets htree hrange hsize (show first < ds.targets by omega) count
    rw [runTrees_of_success hnone]
    exact ih hrest hnext (by omega) _

/-! ### Scoring -/

lemma exists_mapM {β γ : Type} {f : β → Option γ} {xs : List β} (h : ∀ x ∈ xs, ∃ y, f x = some y) :
    ∃ ys, xs.mapM f = some ys := by
  induction xs with
  | nil => exact ⟨[], rfl⟩
  | cons x xs ih =>
    obtain ⟨⟨y, hy⟩, hxs⟩ := List.forall_mem_cons.mp h
    obtain ⟨ys, hys⟩ := ih hxs
    exact ⟨y :: ys, by rw [List.mapM_cons, hy, hys]; rfl⟩

/-- Estimates for all rows and outputs have error rates. -/
lemma exists_errorRates {estimates : Array α} {outputs : Nat}
    (hsize : estimates.size = ds.records * outputs) :
    ∃ p1 p2, errorRates ds estimates outputs = some (p1, p2) := by
  -- every scored row has an estimate of every target
  have hpairs : ∀ t < outputs, ∃ r, targetRates ds estimates outputs t = some r := by
    intro t ht
    have hrows : ∃ pairs, scoredPairs ds estimates outputs t = some pairs := by
      refine exists_mapM fun row hrow => ?_
      have hlt : row < ds.records := List.mem_range.mp (List.mem_filter.mp hrow).1
      have hentry := entry_lt hlt ht
      rw [hsize, Address.of_eq_self hentry, Array.getElem?_eq_getElem (hsize ▸ hentry)]
      exact ⟨_, rfl⟩
    obtain ⟨pairs, hpairs⟩ := hrows
    exact ⟨_, by rw [targetRates, hpairs, Option.map_some]⟩
  rw [errorRates]
  dsimp only
  split
  · exact ⟨_, _, rfl⟩
  · obtain ⟨rates, hrates⟩ := exists_mapM fun t ht =>
      hpairs t (Nat.lt_of_lt_of_le (List.mem_range.mp ht) (Nat.min_le_left outputs ds.targets))
    rw [hrates]
    exact ⟨_, _, rfl⟩

namespace Forest

/-- Where all trees have been run, the evaluation succeeds with the estimates of the run. -/
lemma evaluate_of_runTrees {f : Forest α} {count : Nat} (settings : ModelSettings) :
    let runs := runTrees fuzzySteps ds f.outputs f.treeCodes 0
      (Array.replicate (ds.records * f.outputs) (Scalar.ofNat 0)) count
    runs.execution.failure? = none → runs.execution.estimates.size = ds.records * f.outputs →
    (f.evaluate (.fuzzy ds settings) count).failure? = none ∧
      (f.evaluate (.fuzzy ds settings) count).forest.estimates = runs.execution.estimates := by
  intro runs hnone hsize
  obtain ⟨p1, p2, hrates⟩ := exists_errorRates hsize
  simp only [Forest.evaluate, Context.fuzzy, runs, hnone, hrates, and_self]

/-- **A sound forest can be evaluated.** -/
theorem IsSound.evaluate (htargets : 0 < ds.targets) {f : Forest α} (h : f.IsSound ds)
    (settings : ModelSettings) (count : Nat) :
    (f.evaluate (.fuzzy ds settings) count).failure? = none := by
  obtain ⟨hlength, htrees⟩ := h.isForest.pieces_eq
  have hpieces : ∀ tree ∈ f.code.pieces,
      tree.isWellFormed = true ∧ ∀ i ∈ tree, i.InRange ds.shape := fun tree htree =>
    ⟨htrees tree htree, fun i hi => h.inRange i (Code.mem_of_mem_pieces htree i hi)⟩
  have hblank : (Array.replicate (ds.records * ds.targets) (Scalar.ofNat 0 : α)).size
      = ds.records * ds.targets := Array.size_replicate
  have hroom : 0 + f.code.pieces.length ≤ ds.targets := by omega
  obtain ⟨hnone, hsize⟩ := runTrees_of_inRange htargets hpieces hblank hroom count
  rw [← h.outputs, ← treeCodes_eq] at hnone hsize
  exact (evaluate_of_runTrees settings hnone hsize).1

end Forest

end FuzzyForest
