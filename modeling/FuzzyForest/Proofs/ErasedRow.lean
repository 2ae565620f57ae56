/-
A row that is left out and a row that is not there.

Sums and scores skip the row that is left out, each on its own: the sums in the matrix, whose blocks
are as wide as its columns, and the scores in the estimates, whose blocks are as wide as the
outputs.  Both skip the same block, and what is left is added up in the same order as if that row
had never been there.  The main results are

* `getElem?_eraseBlock`: the blocks that are left when one is erased;
* `Dataset.counted_withLeaveOut`: the rows that count are those of the smaller dataset;
* `errorRates_eraseRow`: the error rates are exactly those of the smaller dataset.
-/
import FuzzyForest.Proofs.LeftOutRow
import FuzzyForest.Rule.Mutation

namespace FuzzyForest

open Mutation (skipping)

variable {α : Type} {ds : Dataset α} {k : ℕ}

/-! ### Numbers without one -/

/-- The numbers below `n + 1` but `k` are those that the numbers below `n` stand for. -/
lemma filter_ne_range {n : ℕ} (hk : k ≤ n) :
    ((List.range (n + 1)).filter fun i => i ≠ k) = (List.range n).map (skipping k) := by
  induction n with
  | zero =>
    obtain rfl : k = 0 := by omega
    rfl
  | succ n ih =>
    rw [List.range_succ, List.filter_append]
    rcases Nat.lt_or_ge n k with hlt | hle
    · -- the last number is the one that is missing, and none is skipped before it
      obtain rfl : k = n + 1 := by omega
      have hsame : (List.range (n + 1)).map (skipping (n + 1)) = List.range (n + 1) := by
        refine (List.map_congr_left fun i hi => ?_).trans (List.map_id _)
        exact if_neg (by have := List.mem_range.mp hi; omega)
      rw [hsame, List.filter_eq_self.mpr fun i hi => by have := List.mem_range.mp hi; simp; omega]
      simp
    · rw [ih hle, List.range_succ, List.map_append]
      have hlast : skipping k n = n + 1 := if_pos hle
      have hne : n + 1 ≠ k := by omega
      simp [hlast, hne]

/-! ### Erasing a block -/

/-- The blocks of `width` entries but block `k`. -/
def eraseBlock (width k : ℕ) (xs : Array α) : Array α :=
  xs.extract 0 (k * width) ++ xs.extract ((k + 1) * width)

/-- One block is gone. -/
lemma size_eraseBlock {width count : ℕ} {xs : Array α} (hsize : xs.size = count * width)
    (hk : k < count) : (eraseBlock width k xs).size = (count - 1) * width := by
  obtain ⟨n, rfl⟩ := Nat.exists_eq_add_of_lt hk
  have hall : (k + n + 1) * width = k * width + n * width + width := by ring
  have hleft : (k + n + 1 - 1) * width = k * width + n * width := Nat.add_mul k n width
  rw [eraseBlock, Array.size_append, Array.size_extract, Array.size_extract, hsize, hall, hleft,
    Nat.succ_mul]
  omega

/-- Each block that is left stands for the one of the number that skips the erased one. -/
lemma getElem?_eraseBlock {width count : ℕ} {xs : Array α} (hsize : xs.size = count * width)
    (hk : k < count) (i : ℕ) {j : ℕ} (hj : j < width) :
    (eraseBlock width k xs)[i * width + j]? = xs[skipping k i * width + j]? := by
  have hfront : k * width + width ≤ xs.size := by
    rw [hsize, ← Nat.succ_mul]
    exact Nat.mul_le_mul_right _ hk
  rw [eraseBlock, Array.getElem?_append, Array.size_extract, Array.getElem?_extract,
    Array.getElem?_extract, skipping]
  rcases Nat.lt_or_ge i k with hlt | hle
  · have hblock := Nat.mul_le_mul_right width hlt
    rw [Nat.succ_mul] at hblock
    rw [if_pos (by omega), if_pos (by omega), if_neg (by omega), Nat.zero_add]
  · have hblock := Nat.mul_le_mul_right width hle
    rw [if_neg (by omega), if_pos hle, Nat.succ_mul, Nat.succ_mul]
    split
    · congr 1
      omega
    · rw [eq_comm, Array.getElem?_eq_none_iff]
      omega

/-! ### Erasing a row -/

namespace Dataset

/-- The dataset without a row, which leaves out no other one. -/
def eraseRow (ds : Dataset α) (k : ℕ) (hk : k < ds.records) : Dataset α where
  values := eraseBlock ds.columns k ds.values
  records := ds.records - 1
  columns := ds.columns
  targets := ds.targets
  leaveOut := none
  size_values := size_eraseBlock ds.size_values hk
  targets_le := ds.targets_le

/-- The values that are left are those of a dataset. -/
lemma ofValues_eraseBlock (hk : k < ds.records) :
    ofValues (eraseBlock ds.columns k ds.values) (ds.records - 1) ds.columns ds.targets
      = .ok (ds.eraseRow k hk) := by
  rw [ofValues, dif_pos (size_eraseBlock ds.size_values hk), dif_pos ds.targets_le]
  rfl

/-- The cells of the rows that are left. -/
lemma cell?_eraseRow (hk : k < ds.records) {row : ℕ} (hrow : row < ds.records - 1) (column : ℕ) :
    (ds.eraseRow k hk).cell? row column = ds.cell? (skipping k row) column := by
  have hskipping : skipping k row < ds.records := by
    rw [skipping]
    split <;> omega
  have hstart : (ds.eraseRow k hk).rowStart row = row * ds.columns := rowStart_eq hrow
  rw [cell?, cell?, hstart, rowStart_eq hskipping]
  by_cases hcolumn : column < ds.columns
  · rw [if_pos hcolumn, if_pos (show column < (ds.eraseRow k hk).columns from hcolumn)]
    exact getElem?_eraseBlock ds.size_values hk row hcolumn
  · rw [if_neg hcolumn, if_neg (show ¬column < (ds.eraseRow k hk).columns from hcolumn)]

/-- Without a row that is left out all rows count. -/
lemma counted_of_leaveOut (h : ∀ row < ds.records, some row ≠ ds.leaveOut) :
    ds.counted = List.range ds.records :=
  List.filter_eq_self.mpr fun row hrow => decide_eq_true (h row (List.mem_range.mp hrow))

/-- The rows that count are those of the dataset without the row that is left out. -/
lemma counted_withLeaveOut (hk : k < ds.records) :
    (ds.withLeaveOut (some k)).counted = (ds.eraseRow k hk).counted.map (skipping k) := by
  have hall : (ds.eraseRow k hk).counted = List.range (ds.records - 1) :=
    counted_of_leaveOut (by simp [eraseRow])
  have hrange : List.range ds.records = List.range (ds.records - 1 + 1) := by
    rw [Nat.sub_add_cancel (by omega)]
  rw [hall, ← filter_ne_range (by omega), ← hrange, counted]
  simp [withLeaveOut]

end Dataset

/-! ### Scores -/

variable [Scalar α] {ds' : Dataset α} {estimates estimates' : Array α} {outputs : ℕ}

/-- Error rates are those of the targets. -/
lemma errorRates_congr (htargets : ds'.targets = ds.targets)
    (h : ∀ t < min outputs ds.targets,
      targetRates ds' estimates' outputs t = targetRates ds estimates outputs t) :
    errorRates ds' estimates' outputs = errorRates ds estimates outputs := by
  have hrates : (List.range (min outputs ds.targets)).mapM
        (fun t => targetRates ds' estimates' outputs t)
      = (List.range (min outputs ds.targets)).mapM
        (fun t => targetRates ds estimates outputs t) :=
    mapM_congr fun t ht => h t (List.mem_range.mp ht)
  simp only [errorRates, htargets, hrates]

/-- The targets of the rows that are left. -/
lemma target_eraseRow (hk : k < ds.records) {row : ℕ} (hrow : row < ds.records - 1) (t : ℕ) :
    (ds.eraseRow k hk).target row t = ds.target (skipping k row) t := by
  rw [Dataset.target, Dataset.target, Dataset.cell?_eraseRow hk hrow]
  rfl

/-- The estimates of the rows that are left, with their targets. -/
lemma scoredPairs_eraseRow (hk : k < ds.records) (hsize : estimates.size = ds.records * outputs)
    {t : ℕ} (ht : t < outputs) :
    scoredPairs (ds.withLeaveOut (some k)) estimates outputs t
      = scoredPairs (ds.eraseRow k hk) (eraseBlock outputs k estimates) outputs t := by
  rw [scoredPairs, scoredPairs, Dataset.counted_withLeaveOut hk, List.mapM_map]
  refine mapM_congr fun row hrow => ?_
  have hrow : row < ds.records - 1 := List.mem_range.mp (List.mem_filter.mp hrow).1
  have hskipping : skipping k row < ds.records := by
    rw [skipping]
    split <;> omega
  have hplace : skipping k row * outputs + t < estimates.size := by
    rw [hsize]
    exact entry_lt hskipping ht
  have hplace' : row * outputs + t < (eraseBlock outputs k estimates).size := by
    rw [size_eraseBlock hsize hk]
    exact entry_lt hrow ht
  rw [Function.comp_apply, Address.of_eq_self hplace, Address.of_eq_self hplace',
    getElem?_eraseBlock hsize hk row ht, target_eraseRow hk hrow]
  rfl

/-- The sum of a target over the rows that are left. -/
lemma sigma_eraseRow (hk : k < ds.records) (t : ℕ) :
    (ds.withLeaveOut (some k)).sigma t = (ds.eraseRow k hk).sigma t := by
  rw [Dataset.sigma, Dataset.sigma, Dataset.counted_withLeaveOut hk, List.map_map]
  refine congrArg Scalar.sum (List.map_congr_left fun row hrow => ?_)
  rw [target_eraseRow hk (List.mem_range.mp (List.mem_filter.mp hrow).1)]
  rfl

/-- **A row that is left out is scored as if it were not there.**  With estimates for all rows, a
dataset that leaves a row out has exactly the error rates of the dataset of the other rows, on the
estimates without the block of that row.  A number that is not that of a row leaves nothing out. -/
theorem errorRates_eraseRow (ds : Dataset α) (estimates : Array α) (outputs : ℕ) :
    (∀ k < ds.records, estimates.size = ds.records * outputs → ∃ others p1 p2,
      Dataset.ofValues (eraseBlock ds.columns k ds.values) (ds.records - 1) ds.columns ds.targets
        = .ok others ∧
      errorRates (ds.withLeaveOut (some k)) estimates outputs = some (p1, p2) ∧
      errorRates others (eraseBlock outputs k estimates) outputs = some (p1, p2)) ∧
    ∀ k, ds.records ≤ k → errorRates (ds.withLeaveOut (some k)) estimates outputs
      = errorRates (ds.withLeaveOut none) estimates outputs := by
  constructor
  · intro k hk hsize
    obtain ⟨p1, p2, hrates⟩ :
        ∃ p1 p2, errorRates (ds.withLeaveOut (some k)) estimates outputs = some (p1, p2) :=
      exists_errorRates hsize
    have hsame : errorRates (ds.withLeaveOut (some k)) estimates outputs
        = errorRates (ds.eraseRow k hk) (eraseBlock outputs k estimates) outputs := by
      refine errorRates_congr rfl fun t ht => ?_
      have ht : t < outputs := Nat.lt_of_lt_of_le ht (Nat.min_le_left _ _)
      rw [targetRates, targetRates, scoredPairs_eraseRow hk hsize ht, sigma_eraseRow hk]
    exact ⟨_, p1, p2, Dataset.ofValues_eraseBlock hk, hrates, hsame ▸ hrates⟩
  · intro k hk
    have hall : ∀ row < ds.records, some row ≠ (ds.withLeaveOut (some k)).leaveOut := by
      rintro row hrow ⟨⟩
      omega
    have hnone : (ds.withLeaveOut none).counted = List.range ds.records :=
      Dataset.counted_of_leaveOut fun row _ => Option.some_ne_none row
    have hcounted : (ds.withLeaveOut (some k)).counted = (ds.withLeaveOut none).counted :=
      (Dataset.counted_of_leaveOut hall).trans hnone.symm
    refine errorRates_congr rfl fun t _ => ?_
    rw [targetRates, targetRates, scoredPairs, scoredPairs, Dataset.sigma, Dataset.sigma, hcounted]
    rfl

/-- Two targets and three outputs, with the row in the middle left out. -/
theorem errorRates_eraseRow_middle :
    let ds : Dataset Float :=
      ⟨#[0.5, 0.25, 1.0, 0.0, 1.0, 0.75, 0.25, 0.5, 0.125], 3, 3, 2, none, rfl, by decide⟩
    let estimates := #[0.5, 1.0, 0.0, 0.25, 0.75, 1.0, 1.0, 0.25, 0.5]
    let rates := errorRates (ds.withLeaveOut (some 1)) estimates 3
    (1 < ds.records ∧ estimates.size = ds.records * 3) ∧
      rates ≠ errorRates (ds.withLeaveOut none) estimates 3 ∧
      (∃ others, Dataset.ofValues #[0.5, 0.25, 1.0, 0.25, 0.5, 0.125] 2 3 2 = .ok others ∧
        errorRates others #[0.5, 1.0, 0.0, 1.0, 0.25, 0.5] 3 = rates) ∧
      errorRates (ds.withLeaveOut (some 3)) estimates 3
        = errorRates (ds.withLeaveOut none) estimates 3 := by
  intro ds estimates rates
  obtain ⟨herased, hbeyond⟩ := errorRates_eraseRow ds estimates 3
  obtain ⟨others, p1, p2, hothers, hrates, hrates'⟩ := herased 1 (by decide) rfl
  refine ⟨⟨by decide, rfl⟩, by decide +kernel, ⟨others, hothers, ?_⟩, hbeyond 3 (by decide)⟩
  rw [show rates = some (p1, p2) from hrates, ← hrates']
  rfl

end FuzzyForest
