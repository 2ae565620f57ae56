/-
Everything computed from truth degrees is a truth degree.

In exact arithmetic the threshold maps the unit interval into itself, also where its two pieces
have denominators close to zero, and so does every operator.  The bound then passes through rules,
through estimates that are fed back with a lag, through the error rates and through every fitness
scheme.  A degree is defined, so that nothing on this way divides by zero.
-/
import FuzzyForest.Proofs.ExactArithmetic
import FuzzyForest.Proofs.SoundEvaluation

namespace FuzzyForest

open Scalar Exact

/-! ### One node -/

namespace Exact

variable {x w : Exact}

/-- The middle degree of the threshold. -/
lemma isDegree_middle (hw : w.IsDegree) : ((ofNat 1 + w) / ofNat 2).IsDegree := by
  refine Within.div ⟨by simp [hw.defined], trivial, ?_, ?_⟩ (by simp)
  · have hnonneg := hw.nonneg
    simp only [value_add, value_ofNat]
    push_cast
    linarith
  · have hle := hw.le_one
    simp only [value_add, value_ofNat]
    push_cast
    linarith

/-- Below its weight the threshold is the middle degree times a part of the weight. -/
lemma isDegree_rising (hx : x.IsDegree) (hw : w.IsDegree) (hlt : x.value < w.value) :
    ((ofNat 1 + w) / ofNat 2 * x / w).IsDegree := by
  have hmiddle := isDegree_middle hw
  have hpos : 0 < w.value := hx.nonneg.trans_lt hlt
  refine Within.div ⟨⟨hmiddle.defined, hx.defined⟩, hw.defined, ?_, ?_⟩ hpos
  · exact mul_nonneg hmiddle.nonneg hx.nonneg
  · exact (mul_le_of_le_one_left hx.nonneg hmiddle.le_one).trans hlt.le

/-- Above its weight the threshold adds a part of the square of what the weight lacks to the middle
degree. -/
lemma isDegree_going_on (hx : x.IsDegree) (hw : w.IsDegree) (hone : w.value < 1)
    (hle : w.value ≤ x.value) :
    ((ofNat 1 + w) / ofNat 2
      + (ofNat 1 - w * w) / ofNat 4 * (x - w) / (ofNat 1 - w)).IsDegree := by
  have hdenominator : 0 < 1 - w.value := by linarith
  have hslope : (1 - w.value * w.value) / 4 * (x.value - w.value) / (1 - w.value)
      = (1 + w.value) * (x.value - w.value) / 4 := by
    field_simp
    ring
  have hvalue : ((ofNat 1 + w) / ofNat 2
      + (ofNat 1 - w * w) / ofNat 4 * (x - w) / (ofNat 1 - w)).value
      = (1 + w.value) / 2 + (1 + w.value) * (x.value - w.value) / 4 := by
    rw [← hslope]
    simp
  have hw0 := hw.nonneg
  have hx1 := hx.le_one
  have hproduct : (1 + w.value) * (x.value - w.value) ≤ (1 + w.value) * (1 - w.value) :=
    mul_le_mul_of_nonneg_left (by linarith) (by linarith)
  refine isDegree_iff.mpr ⟨?_, ?_, ?_⟩
  · simp [hx.defined, hw.defined, hdenominator.ne']
  · have hrest : 0 ≤ (1 + w.value) * (x.value - w.value) :=
      mul_nonneg (by linarith) (by linarith)
    rw [hvalue]
    linarith
  · rw [hvalue]
    -- what is missing from one is a quarter of the square of `1 - w`
    nlinarith [sq_nonneg (1 - w.value)]

/-- **The threshold of a degree is a degree**, for every weight below one. -/
theorem IsDegree.fuzzyThreshold (hx : x.IsDegree) (hw : w.IsDegree) (hone : w.value < 1) :
    (fuzzyThreshold x w).IsDegree := by
  unfold FuzzyForest.fuzzyThreshold
  dsimp only
  split
  · rename_i hlt
    exact isDegree_rising hx hw hlt
  · rename_i hle
    exact isDegree_going_on hx hw hone (not_lt.mp hle)

/-- What a binary operator makes of degrees is a degree. -/
lemma IsDegree.combine {a b : Exact} (ha : a.IsDegree) (hb : b.IsDegree) (op : Opcode) :
    (op.combine a b).IsDegree := by
  have ha0 := ha.nonneg
  have ha1 := ha.le_one
  have hb0 := hb.nonneg
  have hb1 := hb.le_one
  have hdefined : a.defined ∧ b.defined := ⟨ha.defined, hb.defined⟩
  have hproduct : (a * b).IsDegree :=
    isDegree_iff.mpr ⟨hdefined, mul_nonneg ha0 hb0, mul_le_one₀ ha1 hb0 hb1⟩
  cases op with
  | and => exact isDegree_iff.mpr ⟨hdefined, le_min ha0 hb0, min_le_of_left_le ha1⟩
  | or => exact isDegree_iff.mpr ⟨hdefined, le_max_of_le_left ha0, max_le ha1 hb1⟩
  | sum =>
    -- one minus the sum is the product of the complements
    refine isDegree_iff.mpr ⟨⟨hdefined, hdefined⟩, ?_, ?_⟩
    · show 0 ≤ a.value + b.value - a.value * b.value
      nlinarith
    · show a.value + b.value - a.value * b.value ≤ 1
      nlinarith
  | _ => exact hproduct

end Exact

/-! ### Rules -/

/-- Every number of a buffer is a degree. -/
def AllDegrees (xs : Array Exact) : Prop := ∀ x ∈ xs, x.IsDegree

lemma AllDegrees.getElem? {xs : Array Exact} (h : AllDegrees xs) {k : ℕ} {x : Exact}
    (hx : xs[k]? = some x) : x.IsDegree :=
  h x (Array.mem_of_getElem? hx)

lemma AllDegrees.set {xs : Array Exact} (h : AllDegrees xs) {x : Exact} (hx : x.IsDegree) (k : ℕ) :
    AllDegrees (xs.setIfInBounds k x) := by
  intro y hy
  rcases Array.mem_or_eq_of_mem_setIfInBounds hy with hy | rfl
  · exact h y hy
  · exact hx

/-- The weight of an instruction that takes part in a rule is a degree below one. -/
def Instruction.IsWeighted (i : Instruction Exact) : Prop :=
  i.isLive = true → i.weight.IsDegree ∧ i.weight.value < 1

variable {ds : Dataset Exact} {outputs : ℕ} {estimates : Array Exact}

lemma Dataset.isDegree_cell (hds : AllDegrees ds.values) {row column : ℕ} {x : Exact}
    (hx : ds.cell? row column = some x) : x.IsDegree := by
  rw [Dataset.cell?] at hx
  split at hx
  · exact hds.getElem? hx
  · cases hx

namespace Frame

variable {row row' operand : ℕ} {x : Exact}

lemma isDegree_readRow (hds : AllDegrees ds.values)
    (hx : readRow ⟨ds, row, estimates, outputs⟩ row' operand = .ok x) : x.IsDegree := by
  rw [readRow] at hx
  split at hx
  · split at hx
    · rename_i y hy
      cases hx
      exact Dataset.isDegree_cell hds hy
    · cases hx
  · cases hx

lemma isDegree_readEstimate (hestimates : AllDegrees estimates)
    (hx : readEstimate ⟨ds, row, estimates, outputs⟩ row' operand = .ok x) : x.IsDegree := by
  simp only [readEstimate] at hx
  split at hx
  · split at hx
    · split at hx
      · rename_i y hy
        cases hx
        exact hestimates.getElem? hy
      · cases hx
    · cases hx
  · cases hx

/-- Whatever a terminal reads is a degree. -/
lemma isDegree_read (hds : AllDegrees ds.values) (hestimates : AllDegrees estimates)
    {i : Instruction Exact} (hx : read ⟨ds, row, estimates, outputs⟩ i = .ok x) : x.IsDegree := by
  rw [read] at hx
  split at hx
  · split at hx
    · exact isDegree_readRow hds hx
    · exact isDegree_readRow hds hx
  · split at hx
    · exact isDegree_readEstimate hestimates hx
    · split at hx
      · exact isDegree_readRow hds hx
      · cases hx
        exact isDegree_zero
  · exact isDegree_readRow hds hx

end Frame

/-- One instruction keeps degrees on the stack. -/
lemma Stepped.isDegree {row : ℕ} {i : Instruction Exact} {stack stack' : List Exact}
    (h : Stepped ⟨ds, row, estimates, outputs⟩ i stack stack') (hds : AllDegrees ds.values)
    (hestimates : AllDegrees estimates) (hi : i.IsWeighted) (hstack : ∀ x ∈ stack, x.IsDegree) :
    ∀ x ∈ stack', x.IsDegree := by
  cases h with
  | skip => exact hstack
  | terminal hop hx =>
    obtain ⟨hweight, hone⟩ := hi (Instruction.isLive_of_isTerminal hop)
    have hread := Frame.isDegree_read hds hestimates hx
    exact List.forall_mem_cons.mpr ⟨hread.fuzzyThreshold hweight hone, hstack⟩
  | unary hop a rest =>
    have harity : i.arity = 1 := by rw [Instruction.arity, hop]; rfl
    obtain ⟨hweight, hone⟩ := hi (Instruction.isLive_of_arity (by omega))
    obtain ⟨ha, hrest⟩ := List.forall_mem_cons.mp hstack
    exact List.forall_mem_cons.mpr ⟨ha.complement.fuzzyThreshold hweight hone, hrest⟩
  | binary hop a b rest =>
    obtain ⟨hweight, hone⟩ := hi (Instruction.isLive_of_arity (by omega))
    obtain ⟨ha, hb, hrest⟩ : a.IsDegree ∧ b.IsDegree ∧ ∀ x ∈ rest, x.IsDegree := by
      simpa using hstack
    have hcombined := ha.combine hb i.opcode
    exact List.forall_mem_cons.mpr ⟨hcombined.fuzzyThreshold hweight hone, hrest⟩

/-- A run keeps degrees on the stack. -/
lemma isDegree_fuzzyRun {row : ℕ} {code : Code Exact} (hds : AllDegrees ds.values)
    (hestimates : AllDegrees estimates) (hcode : ∀ i ∈ code, i.IsWeighted)
    {stack stack' : List Exact} (hstack : ∀ x ∈ stack, x.IsDegree)
    (h : fuzzyRun ⟨ds, row, estimates, outputs⟩ code stack = .ok stack') :
    ∀ x ∈ stack', x.IsDegree := by
  induction code generalizing stack with
  | nil =>
    cases h
    exact hstack
  | cons i rest ih =>
    obtain ⟨hi, hrest⟩ := List.forall_mem_cons.mp hcode
    rw [fuzzyRun] at h
    cases hstep : fuzzyStep ⟨ds, row, estimates, outputs⟩ i stack with
    | error e =>
      rw [hstep] at h
      cases h
    | ok middle =>
      rw [hstep] at h
      have hmiddle := (fuzzyStep_eq_ok_iff.mp hstep).isDegree hds hestimates hi hstack
      exact ih hrest hmiddle h

/-! ### Estimates -/

/-- Rows that are stored keep degrees in the buffer. -/
lemma Stored.allDegrees {code : Code Exact} {output stop : ℕ} {buffer : ℕ → Array Exact}
    {value : ℕ → Exact} (h : Stored code ds output outputs 0 stop buffer value)
    (hds : AllDegrees ds.values) (hcode : ∀ i ∈ code, i.IsWeighted)
    (hbuffer : AllDegrees (buffer 0)) {row : ℕ} (hrow : row ≤ stop) : AllDegrees (buffer row) := by
  induction row with
  | zero => exact hbuffer
  | succ row ih =>
    -- the row reads what is in the buffer and stores what its run leaves
    have hlt : row < stop := hrow
    have hhere := ih hlt.le
    have hvalue := isDegree_fuzzyRun hds hhere hcode (List.forall_mem_nil _)
      (h.run row (Nat.zero_le _) hlt)
    rw [h.next row (Nat.zero_le _) hlt]
    exact hhere.set (hvalue _ List.mem_cons_self) _

lemma allDegrees_execute {code : Code Exact} (hds : AllDegrees ds.values)
    (hcode : ∀ i ∈ code, i.IsWeighted) (hestimates : AllDegrees estimates) (output count : ℕ) :
    AllDegrees (execute fuzzySteps code ds estimates output outputs count).estimates := by
  obtain ⟨stop, buffer, value, rfl, hstored, hend, -⟩ :=
    exists_stored code ds estimates output outputs count
  rw [hend]
  exact hstored.allDegrees hds hcode hestimates (Nat.le_refl _)

/-- All trees keep degrees in the buffer, whether or not they run to their end. -/
lemma allDegrees_runTrees {trees : List (Code Exact)} (hds : AllDegrees ds.values)
    (htrees : ∀ tree ∈ trees, ∀ i ∈ tree, i.IsWeighted) (hestimates : AllDegrees estimates)
    (first count : ℕ) :
    AllDegrees (runTrees fuzzySteps ds outputs trees first estimates count).execution.estimates := by
  induction trees generalizing first estimates count with
  | nil => exact hestimates
  | cons tree rest ih =>
    obtain ⟨htree, hrest⟩ := List.forall_mem_cons.mp htrees
    have hnext : AllDegrees (execute fuzzySteps tree ds estimates first outputs count).estimates :=
      allDegrees_execute hds htree hestimates first count
    cases hfailure : (execute fuzzySteps tree ds estimates first outputs count).failure? with
    | some e =>
      rw [runTrees_of_failure hfailure]
      exact hnext
    | none =>
      rw [runTrees_of_success hfailure]
      exact ih hrest hnext (first + 1) _

/-! ### Error rates -/

lemma forall₂_of_mapM {β γ : Type} {f : β → Option γ} {xs : List β} {ys : List γ}
    (h : xs.mapM f = some ys) : List.Forall₂ (fun x y => f x = some y) xs ys := by
  induction xs generalizing ys with
  | nil =>
    cases h
    exact .nil
  | cons x xs ih =>
    rw [List.mapM_cons] at h
    obtain ⟨y, hy, h⟩ := Option.bind_eq_some_iff.mp h
    obtain ⟨rest, hrest, h⟩ := Option.bind_eq_some_iff.mp h
    cases h
    exact .cons hy (ih hrest)

/-- What holds of every result holds of all results. -/
lemma forall_of_mapM {β γ : Type} {f : β → Option γ} {xs : List β} {ys : List γ} {P : γ → Prop}
    (h : xs.mapM f = some ys) (hf : ∀ x y, f x = some y → P y) : ∀ y ∈ ys, P y := by
  have hall : List.Forall₂ (fun y (_ : β) => P y ∧ True) ys xs :=
    (forall₂_of_mapM h).flip.imp fun y x hy => ⟨hf x y hy, trivial⟩
  exact ((List.forall₂_and_left ys xs).mp hall).1

lemma isDegree_target (hds : AllDegrees ds.values) (row t : ℕ) : (ds.target row t).IsDegree := by
  rw [Dataset.target]
  cases hx : ds.cell? row (ds.inputs + t) with
  | none => exact isDegree_zero
  | some x => exact Dataset.isDegree_cell hds hx

section Pairs

variable {t : ℕ} {pairs : List (Exact × Exact)}

/-- The pairs that are scored hold degrees. -/
lemma isDegree_scoredPairs (hds : AllDegrees ds.values) (hestimates : AllDegrees estimates)
    (h : scoredPairs ds estimates outputs t = some pairs) :
    ∀ pair ∈ pairs, pair.1.IsDegree ∧ pair.2.IsDegree := by
  refine forall_of_mapM h fun row pair hpair => ?_
  obtain ⟨estimate, hestimate, rfl⟩ := Option.map_eq_some_iff.mp hpair
  exact ⟨hestimates.getElem? hestimate, isDegree_target hds row t⟩

/-- The targets in the pairs that are scored add up to the sum of the target. -/
lemma sigma_eq_foldl (h : scoredPairs ds estimates outputs t = some pairs) :
    ds.sigma t = pairs.foldl (fun s pair => s + pair.2) emptySum := by
  have htargets : ds.counted.map (fun row => ds.target row t) = pairs.map Prod.snd := by
    rw [← List.forall₂_eq_eq_eq, List.forall₂_map_left_iff, List.forall₂_map_right_iff]
    refine (forall₂_of_mapM h).imp fun row pair hpair => ?_
    obtain ⟨estimate, -, rfl⟩ := Option.map_eq_some_iff.mp hpair
    rfl
  rw [Dataset.sigma, htargets, Scalar.sum, List.foldl_map]

/-- The overlap is a part of the estimates. -/
lemma overlap_within_estimated (h : ∀ pair ∈ pairs, pair.1.IsDegree ∧ pair.2.IsDegree) :
    (overlap pairs).Within (estimated pairs) := by
  have hterms : ∀ pair ∈ pairs, (least pair.1 pair.2).Within pair.1 := by
    intro pair hpair
    obtain ⟨hestimate, htarget⟩ := h pair hpair
    exact ⟨⟨hestimate.defined, htarget.defined⟩, hestimate.defined,
      le_min hestimate.nonneg htarget.nonneg, min_le_left _ _⟩
  exact Within.foldl hterms isDegree_zero.within_self

/-- The overlap is a part of the targets. -/
lemma overlap_within_targets (h : ∀ pair ∈ pairs, pair.1.IsDegree ∧ pair.2.IsDegree) :
    (overlap pairs).Within (pairs.foldl (fun s pair => s + pair.2) emptySum) := by
  have hterms : ∀ pair ∈ pairs, (least pair.1 pair.2).Within pair.2 := by
    intro pair hpair
    obtain ⟨hestimate, htarget⟩ := h pair hpair
    exact ⟨⟨hestimate.defined, htarget.defined⟩, htarget.defined,
      le_min hestimate.nonneg htarget.nonneg, min_le_right _ _⟩
  have hstart : (ofNat 0 : Exact).Within emptySum := ⟨trivial, trivial, by simp, by simp⟩
  exact Within.foldl hterms hstart

end Pairs

/-- The share of a part is a degree, also in a whole that is nothing. -/
lemma isDegree_share {part whole : Exact} (h : part.Within whole) : (share part whole).IsDegree := by
  rw [share]
  split
  · rename_i hpos
    rw [Exact.lt_iff, value_ofNat, Nat.cast_zero] at hpos
    exact h.div hpos
  · exact isDegree_zero

lemma isDegree_targetRates (hds : AllDegrees ds.values) (hestimates : AllDegrees estimates) {t : ℕ}
    {rate : Exact × Exact} (h : targetRates ds estimates outputs t = some rate) :
    rate.1.IsDegree ∧ rate.2.IsDegree := by
  obtain ⟨pairs, hpairs, rfl⟩ := Option.map_eq_some_iff.mp h
  have hdegrees := isDegree_scoredPairs hds hestimates hpairs
  refine ⟨isDegree_share (overlap_within_estimated hdegrees), isDegree_share ?_⟩
  rw [sigma_eq_foldl hpairs]
  exact overlap_within_targets hdegrees

/-- **The error rates of degrees are degrees.** -/
theorem isDegree_errorRates (hds : AllDegrees ds.values) (hestimates : AllDegrees estimates)
    {p1 p2 : Exact} (h : errorRates ds estimates outputs = some (p1, p2)) :
    p1.IsDegree ∧ p2.IsDegree := by
  simp only [errorRates] at h
  split at h
  · cases h
    exact ⟨isDegree_one, isDegree_one⟩
  · rename_i hne
    obtain ⟨rates, hrates, h⟩ := Option.bind_eq_some_iff.mp h
    cases h
    have hdegrees := forall_of_mapM hrates fun t rate => isDegree_targetRates hds hestimates
    have hlength : min outputs ds.targets = rates.length := by
      rw [← (forall₂_of_mapM hrates).length_eq, List.length_range]
    rw [hlength] at hne ⊢
    have hpos : 0 < rates.length := Nat.pos_of_ne_zero hne
    exact ⟨(isDegree_mean hpos fun rate hrate => (hdegrees rate hrate).1).complement,
      (isDegree_mean hpos fun rate hrate => (hdegrees rate hrate).2).complement⟩

/-! ### Fitness -/

section Fitness

variable {p1 p2 beta : Exact}

/-- The F-measure of degrees is a degree. -/
lemma isDegree_fScore (h1 : p1.IsDegree) (h2 : p2.IsDegree) (hbeta : beta.defined) :
    (FitnessScheme.fScore.combine p1 p2 beta).IsDegree := by
  have hprecision := h1.complement
  have hcoverage := h2.complement
  simp only [FitnessScheme.combine]
  generalize (ofNat 1 - p1 : Exact) = precision at hprecision ⊢
  generalize (ofNat 1 - p2 : Exact) = coverage at hcoverage ⊢
  split
  · exact isDegree_zero
  · split
    · exact isDegree_zero
    · rename_i hne
      rw [Exact.beq_iff] at hne
      have hp0 := hprecision.nonneg
      have hp1 := hprecision.le_one
      have hc0 := hcoverage.nonneg
      have hc1 := hcoverage.le_one
      have hsquare : 0 ≤ beta.value * beta.value := mul_self_nonneg _
      have hnonneg : 0 ≤ (beta * beta * precision + coverage).value :=
        add_nonneg (mul_nonneg hsquare hp0) hc0
      refine Within.div ⟨?_, ?_, ?_, ?_⟩ (lt_of_le_of_ne hnonneg ?_)
      · simp [hbeta, hprecision.defined, hcoverage.defined]
      · simp [hbeta, hprecision.defined, hcoverage.defined]
      · simp only [value_mul, value_add, value_ofNat, Nat.cast_one]
        positivity
      · -- each degree is at least its product with the other one
        have hleft : precision.value * coverage.value ≤ coverage.value :=
          mul_le_of_le_one_left hc0 hp1
        have hright : beta.value * beta.value * (precision.value * coverage.value)
            ≤ beta.value * beta.value * precision.value :=
          mul_le_mul_of_nonneg_left (mul_le_of_le_one_right hp0 hc1) hsquare
        simp only [value_mul, value_add, value_ofNat, Nat.cast_one]
        linarith
      · simpa [eq_comm] using hne

/-- One minus the weighted mean of degrees is a degree. -/
lemma isDegree_weightedAverage (h1 : p1.IsDegree) (h2 : p2.IsDegree) (hbeta : beta.defined)
    (hpos : 0 < beta.value) : (FitnessScheme.weightedAverage.combine p1 p2 beta).IsDegree := by
  have hweighted : (beta * p1).Within beta :=
    ⟨⟨hbeta, h1.defined⟩, hbeta, mul_nonneg hpos.le h1.nonneg,
      mul_le_of_le_one_right hpos.le h1.le_one⟩
  have htotal : 0 < (beta + ofNat 1).value := by
    rw [value_add, value_ofNat]
    positivity
  exact ((hweighted.add h2).div htotal).complement

/-- One minus a distance, but not less than zero, is a degree. -/
lemma isDegree_penalizedEuclidean (h1 : p1.IsDegree) (h2 : p2.IsDegree) :
    (FitnessScheme.penalizedEuclidean.combine p1 p2 beta).IsDegree := by
  refine isDegree_iff.mpr ⟨?_, ?_, ?_⟩
  · -- a sum of squares has a root
    have hsquares : 0 ≤ (ofNat 20 * p2 * (ofNat 20 * p2) + p1 * p1).value :=
      add_nonneg (mul_self_nonneg _) (mul_self_nonneg _)
    simp only [FitnessScheme.combine, defined_greatest, defined_sub, defined_root, defined_ofNat]
    exact ⟨⟨trivial, ⟨⟨⟨trivial, h2.defined⟩, ⟨trivial, h2.defined⟩⟩, h1.defined, h1.defined⟩,
      hsquares⟩, trivial⟩
  · simp [FitnessScheme.combine]
  · simp only [FitnessScheme.combine, value_greatest, value_sub, value_root, value_ofNat,
      Nat.cast_one, Nat.cast_zero]
    exact max_le (sub_le_self 1 (Real.sqrt_nonneg _)) zero_le_one

/-- Every scheme makes a degree of two degrees. -/
lemma isDegree_combine (scheme : FitnessScheme) (h1 : p1.IsDegree) (h2 : p2.IsDegree)
    (hbeta : beta.defined) (hpos : 0 < beta.value) : (scheme.combine p1 p2 beta).IsDegree := by
  cases scheme with
  | fScore => exact isDegree_fScore h1 h2 hbeta
  | weightedAverage => exact isDegree_weightedAverage h1 h2 hbeta hpos
  | penalizedEuclidean => exact isDegree_penalizedEuclidean h1 h2

/-- A forest beyond its budget has more than all of it, so that its fitness is lowered. -/
lemma isDegree_parsimony {fitness : Exact} (h : fitness.IsDegree) (length budget : ℕ) :
    (parsimony fitness length budget).IsDegree := by
  rw [parsimony]
  split
  · rename_i hlength
    have hbudget : (0 : ℝ) < budget := by exact_mod_cast hlength.1
    have hlt : (budget : ℝ) < length := by exact_mod_cast hlength.2
    have hshare : 1 ≤ (ofNat length / ofNat budget : Exact).value := (one_le_div hbudget).mpr hlt.le
    refine Within.div ⟨h.defined, ⟨trivial, trivial, hbudget.ne'⟩, h.nonneg, ?_⟩ ?_
    · exact h.le_one.trans hshare
    · exact zero_lt_one.trans_le hshare
  · exact h

end Fitness

/-! ### Forests -/

namespace Forest

variable {f : Forest Exact}

/-- **Degrees all the way.**  On a dataset of degrees a forest whose weights are degrees below one
has degrees for estimates, for error rates and, under every scheme, for its fitness, as soon as it
can be evaluated.  All of them are defined: nothing was divided by zero. -/
theorem isDegree_of_evaluate (settings : ModelSettings) (count : ℕ) (hds : AllDegrees ds.values)
    (hf : ∀ i ∈ f.code, i.IsWeighted)
    (h : (f.evaluate (.fuzzy ds settings) count).failure? = none) :
    let g := (f.evaluate (.fuzzy ds settings) count).forest
    AllDegrees g.estimates ∧ g.p1.IsDegree ∧ g.p2.IsDegree ∧
      ∀ (scheme : FitnessScheme) (beta : Exact) (budget : ℕ), beta.defined → 0 < beta.value →
        (score scheme beta budget g.p1 g.p2 g.code.length).IsDegree := by
  dsimp only
  have hblank : AllDegrees (Array.replicate (ds.records * f.outputs) (ofNat 0)) := by
    intro x hx
    rw [(Array.mem_replicate.mp hx).2]
    exact isDegree_zero
  have hestimates : AllDegrees (runTrees fuzzySteps ds f.outputs f.treeCodes 0
      (Array.replicate (ds.records * f.outputs) (ofNat 0)) count).execution.estimates :=
    allDegrees_runTrees hds (forall_mem_treeCodes hf) hblank 0 count
  simp only [evaluate, Context.fuzzy] at h ⊢
  split at h
  · cases h
  · split at h
    · rename_i p1 p2 hrates
      obtain ⟨h1, h2⟩ := isDegree_errorRates hds hestimates hrates
      refine ⟨hestimates, h1, h2, fun scheme beta budget hbeta hpos => ?_⟩
      exact isDegree_parsimony (isDegree_combine scheme h1 h2 hbeta hpos) _ budget
    · cases h

/-- One row with an input and a target. -/
noncomputable def quarterDataset : Dataset Exact where
  values := #[⟨1 / 4, True⟩, ofNat 1]
  records := 1
  columns := 1 + 1
  targets := 1
  leaveOut := none
  size_values := rfl
  targets_le := Nat.le_add_left 1 1

/-- The complement of an input below the weight, with the smallest weight that there is. -/
noncomputable def complementTree : Code Exact :=
  [.input 0 ⟨1 / 2, True⟩, .plain .not (ofNat 0)]

theorem isDegree_of_evaluate_complement :
    let f := ofCode 1 (complementTree ++ [.separator])
    let g := (f.evaluate (.fuzzy quarterDataset {}) 0).forest
    (f.evaluate (.fuzzy quarterDataset {}) 0).failure? = none ∧
      AllDegrees g.estimates ∧ (score .fScore (ofNat 1) 2 g.p1 g.p2 g.code.length).IsDegree := by
  have hhalf : (⟨1 / 2, True⟩ : Exact).IsDegree :=
    isDegree_iff.mpr ⟨trivial, by norm_num, by norm_num⟩
  have hlt : (⟨1 / 2, True⟩ : Exact).value < 1 := by norm_num
  have hzero : (ofNat 0 : Exact).value < 1 := by simp
  have hdegrees : AllDegrees quarterDataset.values := by
    intro x hx
    simp only [quarterDataset, List.mem_toArray, List.mem_cons, List.not_mem_nil, or_false] at hx
    rcases hx with rfl | rfl
    · exact isDegree_iff.mpr ⟨trivial, by norm_num, by norm_num⟩
    · exact isDegree_one
  have hforest : Code.IsForest 1 (complementTree ++ [.separator]) := .cons rfl rfl .nil
  obtain ⟨hcode, houtputs⟩ := ofCode_of_isForest hforest 1
  have hinstructions : ∀ i ∈ complementTree ++ [.separator],
      i.IsWeighted ∧ i.InRange quarterDataset.shape := by
    intro i hi
    simp only [complementTree, List.cons_append, List.nil_append, List.mem_cons,
      List.not_mem_nil, or_false] at hi
    rcases hi with rfl | rfl | rfl
    · exact ⟨fun _ => ⟨hhalf, hlt⟩, rfl, fun _ => by decide, nofun, nofun⟩
    · exact ⟨fun _ => ⟨isDegree_zero, hzero⟩, rfl, nofun, nofun, nofun⟩
    · exact ⟨nofun, rfl, nofun, nofun, nofun⟩
  have hweights : ∀ i ∈ (ofCode 1 (complementTree ++ [.separator])).code, i.IsWeighted := by
    rw [hcode]
    exact fun i hi => (hinstructions i hi).1
  have hsound : (ofCode 1 (complementTree ++ [.separator])).IsSound quarterDataset := by
    refine ⟨?_, houtputs, ?_⟩
    · rw [hcode]
      exact hforest
    · rw [hcode]
      exact fun i hi => (hinstructions i hi).2
  have hsuccess := hsound.evaluate Nat.one_pos {} 0
  obtain ⟨hestimates, -, -, hscore⟩ := isDegree_of_evaluate {} 0 hdegrees hweights hsuccess
  exact ⟨hsuccess, hestimates, hscore .fScore (ofNat 1) 2 trivial (by simp)⟩

end Forest

end FuzzyForest
