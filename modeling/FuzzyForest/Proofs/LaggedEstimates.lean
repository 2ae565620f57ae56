/-
What lagged estimates read.

The trees of a forest run one after the other into one buffer.  A tree therefore reads the final
estimates of its own earlier rows and of the trees before it, but zeros for the trees behind it.
-/
import FuzzyForest.Forest.Evaluation
import FuzzyForest.Proofs.Boundaries
import FuzzyForest.Proofs.Denotation

namespace FuzzyForest

variable {α : Type}

/-! ### The entries of a buffer -/

lemma entry_lt {records outputs row output : Nat} (hrow : row < records)
    (houtput : output < outputs) : row * outputs + output < records * outputs :=
  calc row * outputs + output < row * outputs + outputs := Nat.add_lt_add_left houtput _
    _ = (row + 1) * outputs := by rw [Nat.add_mul, Nat.one_mul]
    _ ≤ records * outputs := Nat.mul_le_mul_right _ hrow

lemma entry_row_inj {outputs row row' output : Nat} (houtput : output < outputs)
    (h : row * outputs + output = row' * outputs + output) : row = row' :=
  Nat.eq_of_mul_eq_mul_right (Nat.zero_lt_of_lt houtput) (Nat.add_right_cancel h)

lemma entry_output_inj {outputs row row' output output' : Nat} (houtput : output < outputs)
    (houtput' : output' < outputs) (h : row * outputs + output = row' * outputs + output') :
    output = output' :=
  calc output = (row * outputs + output) % outputs := (Nat.mul_add_mod_of_lt houtput).symm
    _ = (row' * outputs + output') % outputs := by rw [h]
    _ = output' := Nat.mul_add_mod_of_lt houtput'

lemma placeOf_entry {estimates : Array α} {records output outputs row : Nat}
    (hsize : estimates.size = records * outputs) (houtput : output < outputs)
    (hrow : row < records) : placeOf estimates output outputs row = row * outputs + output :=
  placeOf_of_lt (hsize ▸ entry_lt hrow houtput)

/-- Where there are estimates for all rows and outputs, there is a place for each. -/
lemma placeOf_lt_size {estimates : Array α} {records output outputs row : Nat}
    (hsize : estimates.size = records * outputs) (houtput : output < outputs)
    (hrow : row < records) : placeOf estimates output outputs row < estimates.size := by
  rw [placeOf_entry hsize houtput hrow, hsize]
  exact entry_lt hrow houtput

variable [Scalar α]

/-! ### Running all trees -/

/-- Trees that have all been run on all rows, from output `first` on, and the estimates before and
behind them. -/
inductive TreesRun (ds : Dataset α) (outputs : Nat) :
    (first : Nat) → List (Code α) → Array α → Array α → Prop
  | nil {first : Nat} (estimates : Array α) : TreesRun ds outputs first [] estimates estimates
  | cons {first : Nat} {tree : Code α} {rest : List (Code α)} {buffer : Nat → Array α}
    {value : Nat → α} {final : Array α}
    (hstored : Stored tree ds first outputs 0 ds.records buffer value)
    (hrest : TreesRun ds outputs (first + 1) rest (buffer ds.records) final) :
    TreesRun ds outputs first (tree :: rest) (buffer 0) final

lemma Ended.of_none {code : Code α} {ds : Dataset α} {outputIdx outputs stop row : Nat}
    {estimates : Array α} (h : Ended code ds outputIdx outputs stop row estimates none) :
    row = stop := by
  cases h
  assumption

lemma runTrees_of_failure {ds : Dataset α} {outputs first count : Nat} {tree : Code α}
    {rest : List (Code α)} {estimates : Array α} {e : ExecutionError α}
    (h : (execute fuzzySteps tree ds estimates first outputs count).failure? = some e) :
    (runTrees fuzzySteps ds outputs (tree :: rest) first estimates count).execution
      = execute fuzzySteps tree ds estimates first outputs count := by
  simp only [runTrees, h]

lemma runTrees_of_success {ds : Dataset α} {outputs first count : Nat} {tree : Code α}
    {rest : List (Code α)} {estimates : Array α}
    (h : (execute fuzzySteps tree ds estimates first outputs count).failure? = none) :
    (runTrees fuzzySteps ds outputs (tree :: rest) first estimates count).execution
      = (runTrees fuzzySteps ds outputs rest (first + 1)
        (execute fuzzySteps tree ds estimates first outputs count).estimates
        (execute fuzzySteps tree ds estimates first outputs count).count).execution := by
  simp only [runTrees, h]

/-- Trees that run without a failure run to their end. -/
lemma treesRun_of_success {ds : Dataset α} {outputs first count : Nat} {trees : List (Code α)}
    {estimates : Array α}
    (h : (runTrees fuzzySteps ds outputs trees first estimates count).execution.failure? = none) :
    TreesRun ds outputs first trees estimates
      (runTrees fuzzySteps ds outputs trees first estimates count).execution.estimates := by
  induction trees generalizing first estimates count with
  | nil => exact .nil estimates
  | cons tree rest ih =>
    obtain ⟨stop, buffer, value, rfl, hstored, hend, hended⟩ :=
      exists_stored tree ds estimates first outputs count
    cases hfailure : (execute fuzzySteps tree ds (buffer 0) first outputs count).failure? with
    | some e =>
      rw [runTrees_of_failure hfailure, hfailure] at h
      cases h
    | none =>
      rw [runTrees_of_success hfailure] at h ⊢
      rw [hfailure] at hended
      obtain rfl := hended.of_none
      refine .cons hstored ?_
      rw [← hend]
      exact ih h

namespace Stored

variable {tree : Code α} {ds : Dataset α} {output outputs : Nat} {buffer : Nat → Array α}
  {value : Nat → α}

/-- A tree does not change the estimates of other outputs. -/
lemma getElem?_other (h : Stored tree ds output outputs 0 ds.records buffer value)
    (hsize : (buffer 0).size = ds.records * outputs) (houtput : output < outputs)
    {last output' : Nat} (hlast : last ≤ ds.records) (houtput' : output' < outputs)
    (hne : output' ≠ output) (row : Nat) :
    (buffer last)[row * outputs + output']? = (buffer 0)[row * outputs + output']? := by
  refine h.getElem?_eq (Nat.zero_le _) hlast fun row' _ hrow' => ?_
  rw [placeOf_entry hsize houtput (Nat.lt_of_lt_of_le hrow' hlast)]
  intro heq
  exact hne (entry_output_inj houtput houtput' heq).symm

/-- The estimate of a row is there as soon as the row is stored. -/
lemma getElem?_own (h : Stored tree ds output outputs 0 ds.records buffer value)
    (hsize : (buffer 0).size = ds.records * outputs) (houtput : output < outputs)
    {row last : Nat} (hrow : row < last) (hlast : last ≤ ds.records) :
    (buffer last)[row * outputs + output]? = some (value row) := by
  have hplace : ∀ row < last, placeOf (buffer 0) output outputs row = row * outputs + output :=
    fun row h => placeOf_entry hsize houtput (Nat.lt_of_lt_of_le h hlast)
  rw [← hplace row hrow]
  refine h.getElem?_placeOf hrow hlast fun row' hlt hlt' heq => ?_
  rw [hplace row' hlt', hplace row hrow] at heq
  exact Nat.ne_of_gt hlt (entry_row_inj houtput heq)

end Stored

namespace TreesRun

variable {ds : Dataset α} {outputs first : Nat} {trees : List (Code α)} {estimates final : Array α}

lemma size_eq (h : TreesRun ds outputs first trees estimates final) :
    final.size = estimates.size := by
  induction h with
  | nil => rfl
  | cons hstored _ ih => rw [ih, hstored.size_eq (Nat.le_refl _)]

/-- The estimates of the outputs before the first tree stay. -/
lemma getElem?_before (h : TreesRun ds outputs first trees estimates final)
    (hsize : estimates.size = ds.records * outputs) (hroom : first + trees.length ≤ outputs)
    {output : Nat} (houtput : output < first) (row : Nat) :
    final[row * outputs + output]? = estimates[row * outputs + output]? := by
  induction h with
  | nil => rfl
  | cons hstored _ ih =>
    rw [List.length_cons] at hroom
    rw [ih ((hstored.size_eq (Nat.le_refl _)).trans hsize) (by omega) (Nat.lt_succ_of_lt houtput),
      hstored.getElem?_other hsize (by omega) (Nat.le_refl _) (by omega) (Nat.ne_of_lt houtput)]

/-- A tree finds the final estimates of the outputs before its own and the first estimates of all
others, and what it stores is final. -/
lemma exists_stored (h : TreesRun ds outputs first trees estimates final)
    (hsize : estimates.size = ds.records * outputs) (hroom : first + trees.length ≤ outputs)
    {k : Nat} {tree : Code α} (htree : trees[k]? = some tree) :
    ∃ buffer value, Stored tree ds (first + k) outputs 0 ds.records buffer value ∧
      (buffer 0).size = ds.records * outputs ∧
      (∀ row output, output < outputs → (buffer 0)[row * outputs + output]?
        = if output < first + k then final[row * outputs + output]?
          else estimates[row * outputs + output]?) ∧
      ∀ row < ds.records, final[row * outputs + (first + k)]? = some (value row) := by
  induction h generalizing k with
  | nil => cases htree
  | @cons first tree' rest buffer value final hstored hrest ih =>
    have hend : (buffer ds.records).size = ds.records * outputs :=
      (hstored.size_eq (Nat.le_refl _)).trans hsize
    rw [List.length_cons] at hroom
    -- the first tree writes nothing but its own output, and no later tree writes that again
    have hother : ∀ row output, output < outputs → output ≠ first →
        (buffer ds.records)[row * outputs + output]? = (buffer 0)[row * outputs + output]? :=
      fun row output houtput hne =>
        hstored.getElem?_other hsize (by omega) (Nat.le_refl _) houtput hne row
    cases k with
    | zero =>
      cases htree
      refine ⟨buffer, value, hstored, hsize, ?_, ?_⟩
      · intro row output houtput
        split
        · rename_i hlt
          rw [hrest.getElem?_before hend (by omega) (Nat.lt_succ_of_lt hlt),
            hother row output houtput (Nat.ne_of_lt hlt)]
        · rfl
      · intro row hrow
        rw [Nat.add_zero, hrest.getElem?_before hend (by omega) (Nat.lt_succ_self _),
          hstored.getElem?_own hsize (by omega) hrow (Nat.le_refl _)]
    | succ k =>
      have hfirst : first + (k + 1) = first + 1 + k := by omega
      obtain ⟨buffer', value', hstored', hsize', hbefore, hfinal⟩ := ih hend (by omega) htree
      rw [hfirst]
      refine ⟨buffer', value', hstored', hsize', ?_, hfinal⟩
      intro row output houtput
      rw [hbefore row output houtput]
      split
      · rfl
      · exact hother row output houtput (by omega)

end TreesRun

/-! ### What a tree reads -/

/-- Where its lag looks back, what an instruction reads depends only on the estimates of its output
for earlier rows. -/
lemma Frame.read_congr {ds : Dataset α} {row outputs : Nat} {estimates estimates' : Array α}
    (hsize : estimates.size = ds.records * outputs) (hsize' : estimates'.size = estimates.size)
    (hrow : row < ds.records)
    {i : Instruction α} (hlag : i.opcode = .pastOutput → 1 ≤ i.lag)
    (h : i.opcode = .pastOutput → i.operand < outputs → ∀ row' < row,
      estimates[row' * outputs + i.operand]? = estimates'[row' * outputs + i.operand]?) :
    Frame.read ⟨ds, row, estimates, outputs⟩ i = Frame.read ⟨ds, row, estimates', outputs⟩ i := by
  rcases i with ⟨op, operand, lag, w⟩
  cases op with
  | pastOutput =>
    simp only [Frame.read]
    split
    · rename_i hlt
      have hback : row - lag < row := by
        have : 1 ≤ lag := hlag rfl
        omega
      simp only [Frame.readEstimate, hsize']
      split
      · split
        · rename_i houtput
          have hentry := entry_lt (show row - lag < ds.records by omega) houtput
          have hstart : Address.of estimates.size ((row - lag) * outputs) = (row - lag) * outputs :=
            Address.of_eq_self (by omega)
          have hentries := h rfl houtput (row - lag) hback
          dsimp only at hentries
          rw [hstart, hentries]
        · rfl
      · rfl
    · rfl
  | _ => rfl

/-- Estimates in which those of the outputs behind one are zero. -/
def withoutLater (outputs output : Nat) (estimates : Array α) : Array α :=
  estimates.mapIdx fun entry x => if entry % outputs ≤ output then x else Scalar.ofNat 0

@[simp]
lemma size_withoutLater (outputs output : Nat) (estimates : Array α) :
    (withoutLater outputs output estimates).size = estimates.size := by
  simp [withoutLater]

lemma getElem?_withoutLater {outputs output output' row : Nat} {estimates : Array α}
    (h : output' < outputs) :
    (withoutLater outputs output estimates)[row * outputs + output']?
      = if output' ≤ output then estimates[row * outputs + output']?
        else estimates[row * outputs + output']?.map fun _ => Scalar.ofNat 0 := by
  rw [withoutLater, Array.getElem?_mapIdx, Nat.mul_add_mod_of_lt h]
  split
  · simp
  · rfl

namespace Forest

/-- A successful evaluation has run all trees, and its estimates are those of the run. -/
lemma runTrees_of_evaluate {ds : Dataset α} {settings : ModelSettings} {f : Forest α} {count : Nat}
    (h : (f.evaluate (.fuzzy ds settings) count).failure? = none) :
    let runs := runTrees fuzzySteps ds f.outputs f.treeCodes 0
      (Array.replicate (ds.records * f.outputs) (Scalar.ofNat 0)) count
    runs.execution.failure? = none ∧
      (f.evaluate (.fuzzy ds settings) count).forest.estimates = runs.execution.estimates := by
  simp only [evaluate, Context.fuzzy] at h ⊢
  split at h
  · cases h
  · rename_i hruns
    refine ⟨hruns, ?_⟩
    split <;> rfl

/-- A successful evaluation runs every tree on every row. -/
lemma treesRun_of_evaluate {ds : Dataset α} {settings : ModelSettings} {f : Forest α} {count : Nat}
    (h : (f.evaluate (.fuzzy ds settings) count).failure? = none) :
    TreesRun ds f.outputs 0 f.code.pieces
      (Array.replicate (ds.records * f.outputs) (Scalar.ofNat 0))
      (f.evaluate (.fuzzy ds settings) count).forest.estimates := by
  obtain ⟨hruns, hestimates⟩ := runTrees_of_evaluate h
  rw [← treeCodes_eq, hestimates]
  exact treesRun_of_success hruns

/-- **The estimate of a row is the value of its tree where the lagged estimates of the trees behind
it are zeros.**  It is the value that the final estimates give exactly where these do not matter,
such as in a tree that reads its own output and those of the trees before it. -/
theorem estimate_eq_value (ds : Dataset α) (settings : ModelSettings) (f : Forest α) (count : Nat)
    (hsuccess : (f.evaluate (.fuzzy ds settings) count).failure? = none)
    (houtputs : f.trees.length = f.outputs)
    (hlag : ∀ i ∈ f.code, i.opcode = .pastOutput → 1 ≤ i.lag) :
    let final := (f.evaluate (.fuzzy ds settings) count).forest.estimates
    ∀ row < ds.records, ∀ k < f.outputs, ∃ tree x, f.treeCodes[k]? = some tree ∧
      final[row * f.outputs + k]? = some x ∧
      Code.value? ⟨ds, row, withoutLater f.outputs k final, f.outputs⟩ tree = some x ∧
      (Code.value? ⟨ds, row, final, f.outputs⟩ tree = some x ↔
        Code.value? ⟨ds, row, final, f.outputs⟩ tree
          = Code.value? ⟨ds, row, withoutLater f.outputs k final, f.outputs⟩ tree) ∧
      ((∀ i ∈ tree, i.opcode = .pastOutput → i.operand ≤ k) →
        Code.value? ⟨ds, row, final, f.outputs⟩ tree = some x) := by
  intro final row hrow k hk
  have hrun := treesRun_of_evaluate hsuccess
  have hlength : f.code.pieces.length = f.outputs := by
    rw [← treeCodes_eq, treeCodes, List.length_map, houtputs]
  have hblank : (Array.replicate (ds.records * f.outputs) (Scalar.ofNat 0 : α)).size
      = ds.records * f.outputs := Array.size_replicate
  have hfinal : final.size = ds.records * f.outputs := hrun.size_eq.trans hblank
  have htree : f.code.pieces[k]? = some f.code.pieces[k] := List.getElem?_eq_getElem _
  have hmem : f.code.pieces[k] ∈ f.code.pieces := List.getElem_mem _
  obtain ⟨buffer, value, hstored, hsize, hbefore, hvalue⟩ :=
    hrun.exists_stored hblank (by omega) htree
  rw [Nat.zero_add] at hstored hbefore hvalue
  have htreeLag : ∀ i ∈ f.code.pieces[k], i.opcode = .pastOutput → 1 ≤ i.lag := fun i hi =>
    hlag i (Code.mem_of_mem_pieces hmem i hi)
  -- what the tree finds in the buffer for earlier rows
  have hearlier : ∀ row' < row, ∀ output < f.outputs, (buffer row)[row' * f.outputs + output]?
      = (withoutLater f.outputs k final)[row' * f.outputs + output]? := by
    intro row' hrow' output houtput
    have hblank' : final[row' * f.outputs + output]?.map (fun _ => (Scalar.ofNat 0 : α))
        = (Array.replicate (ds.records * f.outputs)
          (Scalar.ofNat 0))[row' * f.outputs + output]? := by
      have hlt := entry_lt (Nat.lt_trans hrow' hrow) houtput
      rw [Array.getElem?_replicate, if_pos hlt, Array.getElem?_eq_getElem (hfinal ▸ hlt),
        Option.map_some]
    rw [getElem?_withoutLater houtput]
    by_cases hown : output = k
    · rw [hown, hstored.getElem?_own hsize hk hrow' (Nat.le_of_lt hrow), if_pos (Nat.le_refl _),
        hvalue row' (Nat.lt_trans hrow' hrow)]
    · rw [hstored.getElem?_other hsize hk (Nat.le_of_lt hrow) houtput hown, hbefore _ _ houtput]
      by_cases hlt : output < k
      · rw [if_pos hlt, if_pos (Nat.le_of_lt hlt)]
      · rw [if_neg hlt, if_neg (by omega), hblank']
  have hrow' : (buffer row).size = ds.records * f.outputs :=
    (hstored.size_eq (Nat.le_of_lt hrow)).trans hsize
  -- reading the buffer is reading the final estimates without the later outputs
  have hvalue? : Code.value? ⟨ds, row, withoutLater f.outputs k final, f.outputs⟩ f.code.pieces[k]
      = some (value row) := by
    have hown := hstored.run row (Nat.zero_le _) hrow
    rw [← Code.value?_of_fuzzyRun (fun i hi => ⟨notAggregate_of_fuzzyRun hown i hi,
      Code.isSeparator_of_mem_pieces hmem i hi⟩) hown]
    refine (Code.value?_congr fun i hi => ?_).symm
    exact Frame.read_congr hrow' ((size_withoutLater _ _ _).trans (hfinal.trans hrow'.symm)) hrow
      (htreeLag i hi) fun _ houtput row' hlt => hearlier row' hlt i.operand houtput
  refine ⟨f.code.pieces[k], value row, (by rwa [treeCodes_eq]), hvalue row hrow, hvalue?, ?_, ?_⟩
  · rw [hvalue?]
  · intro hoperand
    rw [← hvalue?]
    refine Code.value?_congr fun i hi => Frame.read_congr hfinal (size_withoutLater _ _ _) hrow
      (htreeLag i hi) fun hop houtput row' _ => ?_
    rw [getElem?_withoutLater houtput, if_pos (hoperand i hi hop)]

/-- A forest whose first tree reads the estimates of its second one. -/
def crossReading : Forest Float :=
  ofCode 3 [.pastOutput 1 1 0.5, .separator, .input 0 0.5, .separator]

/-- One input column and two target columns, with the last row left out. -/
def crossDataset : Dataset Float :=
  ⟨#[0.5, 0.0, 0.0, 1.0, 0.0, 1.0, 0.75, 1.0, 1.0], 3, 3, 2, some 2, rfl, by decide⟩

theorem estimate_eq_value_crossReading :
    let final := (crossReading.evaluate (.fuzzy crossDataset {}) 0).forest.estimates
    ∃ tree x, crossReading.treeCodes[0]? = some tree ∧ final[4]? = some x ∧
      Code.value? ⟨crossDataset, 2, withoutLater 2 0 final, 2⟩ tree = some x := by
  obtain ⟨tree, x, htree, hx, hvalue, -⟩ := estimate_eq_value crossDataset {} crossReading 0
    (by decide +kernel) (by decide +kernel) (by decide +kernel) 2 (by decide) 0 (by decide +kernel)
  exact ⟨tree, x, htree, hx, hvalue⟩

/-- The first tree reads zero where the second one has estimated more. -/
theorem exists_estimate_ne_value :
    ¬∀ (ds : Dataset Float) (settings : ModelSettings) (f : Forest Float) (count : Nat),
      (f.evaluate (.fuzzy ds settings) count).failure? = none → f.trees.length = f.outputs →
      (∀ i ∈ f.code, i.opcode = .pastOutput → 1 ≤ i.lag) →
      let final := (f.evaluate (.fuzzy ds settings) count).forest.estimates
      ∀ row < ds.records, ∀ k < f.outputs, ∀ tree, f.treeCodes[k]? = some tree →
        final[row * f.outputs + k]? = Code.value? ⟨ds, row, final, f.outputs⟩ tree := by
  intro h
  have hread := h crossDataset {} crossReading 0 (by decide +kernel) (by decide +kernel)
    (by decide +kernel) 2 (by decide) 0 (by decide +kernel) [.pastOutput 1 1 0.5]
    (by decide +kernel)
  exact absurd hread (by decide +kernel)

end Forest

end FuzzyForest
