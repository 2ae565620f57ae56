/-
Weights are read and written by a lens.

A buffer whose weights are left open where they can be written is its skeleton, and a buffer is
determined by its skeleton and its weights.  Writing keeps the skeleton, so that the weights alone
tell what is read and written in turn, and placeholders are dropped from a buffer as from its
skeleton.  In a forest that is changed in place the weights are written one by one to the places of
the live instructions, after their number has been checked.
-/
import FuzzyForest.Proofs.Lineage

namespace FuzzyForest

variable {α : Type}

/-! ### Skeletons -/

namespace Instruction

variable {i j : Instruction α}

/-- An instruction whose weight is left open if it can be written. -/
def outline (i : Instruction α) : Instruction (Option α) :=
  ⟨i.opcode, i.operand, i.lag, if i.isLive then none else some i.weight⟩

@[simp] lemma isLive_outline (i : Instruction α) : i.outline.isLive = i.isLive := rfl

@[simp] lemma isNoOp_outline (i : Instruction α) : i.outline.isNoOp = i.isNoOp := rfl

@[simp] lemma isSeparator_outline (i : Instruction α) : i.outline.isSeparator = i.isSeparator := rfl

/-- A weight that is written does not show. -/
lemma outline_withWeight (h : i.isLive = true) (w : α) :
    { i with weight := w }.outline = i.outline := by
  have hlive : { i with weight := w }.isLive = true := h
  rw [outline, outline, if_pos hlive, if_pos h]

lemma isLive_congr (h : i.outline = j.outline) : i.isLive = j.isLive := by
  rw [← isLive_outline, h, isLive_outline]

lemma parts_of_outline_eq (h : i.outline = j.outline) :
    i.opcode = j.opcode ∧ i.operand = j.operand ∧ i.lag = j.lag := by
  simp only [outline, mk.injEq] at h
  exact ⟨h.1, h.2.1, h.2.2.1⟩

/-- The weight is all that an instruction has besides, and nothing if it takes no part in a rule. -/
lemma eq_of_outline_eq (h : i.outline = j.outline)
    (hweight : i.isLive = true → i.weight = j.weight) : i = j := by
  have hlive := isLive_congr h
  obtain ⟨opcode, operand, lag, weight⟩ := i
  obtain ⟨opcode', operand', lag', weight'⟩ := j
  simp only [outline, mk.injEq] at h
  obtain ⟨rfl, rfl, rfl, hopen⟩ := h
  cases hi : (⟨opcode, operand, lag, weight⟩ : Instruction α).isLive with
  | true => rw [show weight = weight' from hweight hi]
  | false =>
    rw [← hlive, hi] at hopen
    rw [Option.some.inj hopen]

/-- Nothing is left open of an instruction that takes no part in a rule. -/
lemma eq_of_not_isLive (h : i.outline = j.outline) (hi : i.isLive = false) : i = j := by
  refine eq_of_outline_eq h fun hlive => ?_
  rw [hi] at hlive
  cases hlive

end Instruction

namespace Code

variable {a b : Code α} {i : Instruction α}

/-- What writing weights keeps of a buffer. -/
def skeleton (code : Code α) : Code (Option α) := code.map Instruction.outline

lemma skeleton_cons (i : Instruction α) (rest : Code α) :
    skeleton (i :: rest) = i.outline :: skeleton rest := List.map_cons

/-- The weights that can be written, in the order of the buffer. -/
def weights (code : Code α) : List α := (code.filter Instruction.isLive).map Instruction.weight

lemma weights_cons (h : i.isLive = true) (rest : Code α) :
    weights (i :: rest) = i.weight :: weights rest := by
  rw [weights, List.filter_cons_of_pos h, List.map_cons, weights]

lemma weights_cons_of_not_isLive (h : i.isLive = false) (rest : Code α) :
    weights (i :: rest) = weights rest := by
  rw [weights, List.filter_cons_of_neg (by simp [h]), weights]

lemma length_weights (code : Code α) : (weights code).length = code.countP Instruction.isLive := by
  rw [weights, List.length_map, List.countP_eq_length_filter]

/-- **A buffer is determined by its skeleton and its weights.** -/
theorem eq_of_skeleton_eq (hskeleton : skeleton a = skeleton b) (hweights : weights a = weights b) :
    a = b := by
  induction a generalizing b with
  | nil => exact (List.map_eq_nil_iff.mp hskeleton.symm).symm
  | cons i a ih =>
    obtain ⟨j, b, rfl, hij, hab⟩ := List.map_eq_cons_iff.mp hskeleton.symm
    have hlive := Instruction.isLive_congr hij
    cases hi : i.isLive with
    | true =>
      rw [weights_cons hi, weights_cons (hlive.trans hi), List.cons.injEq] at hweights
      rw [Instruction.eq_of_outline_eq hij fun _ => hweights.1.symm, ih hab.symm hweights.2]
    | false =>
      rw [weights_cons_of_not_isLive hi, weights_cons_of_not_isLive (hlive.trans hi)] at hweights
      rw [Instruction.eq_of_not_isLive hij (hlive.trans hi), ih hab.symm hweights]

/-! ### What a skeleton tells -/

lemma length_skeleton (code : Code α) : (skeleton code).length = code.length :=
  List.length_map _

/-- The trees of a buffer are those of its skeleton. -/
lemma treesFrom_skeleton (start : ℕ) (code : Code α) :
    treesFrom start (skeleton code) = treesFrom start code := by
  fun_induction treesFrom start code with
  | case1 => rw [skeleton, List.map_nil, treesFrom]
  | case2 start i rest tree ih =>
    have htree : ((skeleton (i :: rest)).takeWhile fun i => !i.isSeparator) = skeleton tree := by
      simp only [skeleton, List.takeWhile_map, Function.comp_def, Instruction.isSeparator_outline,
        tree]
    have hrest : (skeleton (i :: rest)).drop (tree.length + 1)
        = skeleton ((i :: rest).drop (tree.length + 1)) := List.map_drop.symm
    rw [skeleton_cons, treesFrom, ← skeleton_cons]
    simp only [htree, length_skeleton, hrest, ih]
    rfl

/-- An instruction that takes no part in a rule is told in full, any other but for its weight. -/
lemma exists_of_skeleton_eq {k : ℕ} (h : skeleton a = skeleton b) (hk : b[k]? = some i) :
    ∃ j, a[k]? = some j ∧ j.opcode = i.opcode ∧ j.operand = i.operand ∧ j.lag = i.lag ∧
      (i.isLive = false → j = i) := by
  have houtline : (skeleton a)[k]? = some i.outline := by
    rw [h, skeleton, List.getElem?_map, hk, Option.map_some]
  rw [skeleton, List.getElem?_map, Option.map_eq_some_iff] at houtline
  obtain ⟨j, hj, hji⟩ := houtline
  obtain ⟨hopcode, hoperand, hlag⟩ := Instruction.parts_of_outline_eq hji
  refine ⟨j, hj, hopcode, hoperand, hlag, fun hlive => ?_⟩
  exact Instruction.eq_of_not_isLive hji ((Instruction.isLive_congr hji).trans hlive)

/-! ### Without placeholders -/

/-- Placeholders have no weight that can be written. -/
lemma weights_compact (code : Code α) : weights code.compact = weights code := by
  rw [weights, compact, List.filter_filter, weights]
  congr 2
  funext i
  cases hlive : i.isLive with
  | true => rw [isNoOp_of_isLive hlive]; rfl
  | false => rfl

/-- Placeholders are dropped from a buffer as from its skeleton. -/
lemma skeleton_compact (code : Code α) : skeleton code.compact = (skeleton code).compact := by
  simp only [skeleton, compact, List.filter_map, Function.comp_def, Instruction.isNoOp_outline]

/-! ### Writing -/

section Writing

open Forest (reweighted)

variable {ws : List α}

lemma reweighted_cons (h : i.isLive = true) (rest : Code α) (w : α) (ws : List α) :
    reweighted (i :: rest) (w :: ws) = { i with weight := w } :: reweighted rest ws := by
  rw [reweighted, if_pos h]

lemma reweighted_cons_of_not_isLive (h : i.isLive = false) (rest : Code α) (ws : List α) :
    reweighted (i :: rest) ws = i :: reweighted rest ws := by
  cases ws <;> simp [reweighted, h]

/-- Writing weights keeps the skeleton. -/
lemma skeleton_reweighted (code : Code α) (ws : List α) :
    skeleton (reweighted code ws) = skeleton code := by
  induction code generalizing ws with
  | nil => rfl
  | cons i rest ih =>
    cases hi : i.isLive with
    | true =>
      cases ws with
      | nil => rw [reweighted, if_pos hi]
      | cons w ws =>
        rw [reweighted_cons hi, skeleton_cons, Instruction.outline_withWeight hi, ih, skeleton_cons]
    | false =>
      rw [reweighted_cons_of_not_isLive hi, skeleton_cons, ih, skeleton_cons]

/-- What is written is what is read. -/
lemma weights_reweighted {code : Code α} (h : ws.length = code.countP Instruction.isLive) :
    weights (reweighted code ws) = ws := by
  induction code generalizing ws with
  | nil =>
    rw [List.countP_nil, List.length_eq_zero_iff] at h
    rw [h]
    rfl
  | cons i rest ih =>
    cases hi : i.isLive with
    | true =>
      rw [List.countP_cons_of_pos hi] at h
      obtain ⟨w, ws, rfl⟩ := List.exists_cons_of_length_eq_add_one h
      rw [reweighted_cons hi, weights_cons (i := { i with weight := w }) hi, ih (Nat.succ.inj h)]
    | false =>
      rw [List.countP_cons_of_neg (by simp [hi])] at h
      rw [reweighted_cons_of_not_isLive hi, weights_cons_of_not_isLive hi, ih h]

/-- A buffer with other weights is told by its skeleton and these weights. -/
lemma reweighted_eq (hskeleton : skeleton a = skeleton b)
    (hweights : ws.length = a.countP Instruction.isLive) (h : weights b = ws) :
    reweighted a ws = b :=
  eq_of_skeleton_eq ((skeleton_reweighted a ws).trans hskeleton)
    ((weights_reweighted hweights).trans h.symm)

end Writing

end Code

namespace Forest

variable {f g : Forest Float} {ws : List Float}

/-! ### Writing in place -/

lemma writeWeight_apply {before rest : Code Float} {i : Instruction Float}
    (hf : f.code = before ++ i :: rest) (w : Float) : writeWeight before.length w f
      = (.ok (), { f with code := before ++ { i with weight := w } :: rest }) := by
  have hcode : f.code.modify before.length (fun i => { i with weight := w })
      = before ++ { i with weight := w } :: rest := by
    rw [hf, List.modify_eq_take_drop, List.take_left, List.drop_left]
    rfl
  rw [← hcode]
  rfl

/-- What is written behind a part of the buffer leaves this part alone. -/
lemma writeWeights_livePlaces (before : Code Float) {code : Code Float}
    (hf : f.code = before ++ code) (ws : List Float) :
    writeWeights ((code.livePlaces before.length).zip ws) f
      = (.ok (), { f with code := before ++ reweighted code ws }) := by
  induction code generalizing before ws f with
  | nil =>
    rw [reweighted, ← hf]
    rfl
  | cons i rest ih =>
    cases hi : i.isLive with
    | true =>
      rw [Code.livePlaces, if_pos hi]
      cases ws with
      | nil =>
        rw [reweighted, if_pos hi, ← hf]
        rfl
      | cons w ws =>
        -- the part that is written grows by this instruction
        let j := { i with weight := w }
        have hnext := ih (f := { f with code := before ++ j :: rest }) (before ++ [j]) (by simp) ws
        rw [List.zip_cons_cons, writeWeights, Act.bind_apply, writeWeight_apply hf,
          Code.reweighted_cons hi]
        simpa using hnext
    | false =>
      have hnext := ih (f := f) (before ++ [i]) (by simp [hf]) ws
      rw [Code.livePlaces, if_neg (by simp [hi]), Code.reweighted_cons_of_not_isLive hi]
      simpa using hnext

/-- **Writing in place comes to the same forest.** -/
theorem tune_of_setWeights (h : f.setWeights ws = .ok g) : tune ws f = (.ok (), g) := by
  rw [setWeights] at h
  split at h
  · rename_i hlength
    have hwritten := writeWeights_livePlaces (f := f) [] rfl ws
    rw [List.length_nil] at hwritten
    cases h
    rw [tune, Act.bind_apply]
    simp only [Act.get, if_pos hlength]
    rw [Act.bind_apply, hwritten]
    rfl
  · cases h

/-- **A failure leaves the forest as it was.** -/
theorem tune_of_error {e : Error} (h : f.setWeights ws = .error e) :
    tune ws f = (.error e, f) := by
  rw [setWeights] at h
  split at h
  · cases h
  · rename_i hlength
    cases h
    rw [tune, Act.bind_apply]
    simp only [Act.get, if_neg hlength]
    rfl

/-! ### Laws -/

lemma length_weights (f : Forest Float) : f.weights.length = f.weightCount :=
  Code.length_weights f.code

lemma exists_setWeights_iff (f : Forest Float) (ws : List Float) :
    (∃ g, f.setWeights ws = .ok g) ↔ ws.length = f.weightCount := by
  rw [setWeights]
  split <;> simp_all

section Written

variable (h : f.setWeights ws = .ok g)
include h

lemma length_of_setWeights : ws.length = f.weightCount :=
  (exists_setWeights_iff f ws).mp ⟨g, h⟩

lemma skeleton_of_setWeights : g.code.skeleton = f.code.skeleton := by
  rw [eq_of_setWeights h, Code.skeleton_reweighted]

/-- What is written is what is read. -/
lemma weights_of_setWeights : g.weights = ws := by
  rw [eq_of_setWeights h]
  exact Code.weights_reweighted (length_of_setWeights h)

lemma weightCount_of_setWeights : g.weightCount = f.weightCount := by
  rw [← length_weights, weights_of_setWeights h, length_of_setWeights h]

lemma trees_of_setWeights : g.trees = f.trees := by
  rw [trees, Code.trees, ← Code.treesFrom_skeleton, skeleton_of_setWeights h,
    Code.treesFrom_skeleton, trees, Code.trees]

/-- What is written last counts. -/
lemma setWeights_setWeights (ws' : List Float) : g.setWeights ws' = f.setWeights ws' := by
  rw [setWeights, setWeights, weightCount_of_setWeights h]
  split
  · rename_i hlength
    have hcode : reweighted g.code ws' = reweighted f.code ws' := by
      refine Code.reweighted_eq ?_ ?_ ?_
      · rw [skeleton_of_setWeights h, Code.skeleton_reweighted]
      · exact hlength.trans (weightCount_of_setWeights h).symm
      · exact Code.weights_reweighted hlength
    rw [hcode, eq_of_setWeights h]
  · rfl

end Written

/-- What is read changes no instruction where it is written. -/
lemma setWeights_weights (f : Forest Float) :
    f.setWeights f.weights = .ok { f with fitness? := none } := by
  have hcode : reweighted f.code f.weights = f.code :=
    Code.reweighted_eq rfl (length_weights f) rfl
  rw [setWeights, if_pos (length_weights f), hcode]

lemma weights_compact (f : Forest Float) : f.compact.weights = f.weights :=
  Code.weights_compact f.code

/-- It does not matter whether weights are written before or after placeholders are dropped. -/
lemma setWeights_compact (f : Forest Float) (ws : List Float) :
    f.compact.setWeights ws = (f.setWeights ws).map compact := by
  have hcount : f.compact.weightCount = f.weightCount := by
    rw [← length_weights, weights_compact, length_weights]
  rw [setWeights, setWeights, hcount]
  split
  · rename_i hlength
    have hcode : reweighted f.code.compact ws = (reweighted f.code ws).compact := by
      refine Code.reweighted_eq ?_ ?_ ?_
      · rw [Code.skeleton_compact, Code.skeleton_compact, Code.skeleton_reweighted]
      · exact hlength.trans hcount.symm
      · rw [Code.weights_compact, Code.weights_reweighted hlength]
    rw [compact, hcode]
    rfl
  · rfl

/-- **The weights of a forest are read and written by a lens.**  They can be written if their number
is right; then what is written is read, and nothing but the live weights and the cached fitness
changes.  What is written last counts, and what is read changes no instruction where it is written.
A forest in which weights are written in place comes to the same, and a failure leaves it as it was.
It does not matter for the weights whether the forest has placeholders. -/
theorem weights_lens (f : Forest Float) :
    (∀ ws, (∃ g, f.setWeights ws = .ok g) ↔ ws.length = f.weightCount) ∧
    (∀ ws g, f.setWeights ws = .ok g →
      g.weights = ws ∧ g = { f with code := g.code, fitness? := none } ∧
      g.code.length = f.code.length ∧
      (∀ (k : ℕ) (i : Instruction Float), f.code[k]? = some i →
        ∃ j, g.code[k]? = some j ∧ j.opcode = i.opcode ∧ j.operand = i.operand ∧ j.lag = i.lag ∧
          (i.isLive = false → j = i)) ∧
      g.trees = f.trees ∧
      ∀ ws', g.setWeights ws' = f.setWeights ws') ∧
    (∃ g, f.setWeights f.weights = .ok g ∧ g.code = f.code) ∧
    (∀ ws, ws.length ≠ f.weightCount →
      f.setWeights ws = .error (.weightCount f.weightCount ws.length)) ∧
    (∀ ws g, f.setWeights ws = .ok g → tune ws f = (.ok (), g)) ∧
    (∀ ws e, f.setWeights ws = .error e → tune ws f = (.error e, f)) ∧
    f.compact.weights = f.weights ∧
    ∀ ws, f.compact.setWeights ws = (f.setWeights ws).map compact := by
  refine ⟨exists_setWeights_iff f, fun ws g h => ?_, ⟨_, setWeights_weights f, rfl⟩,
    fun ws h => if_neg h, fun ws g => tune_of_setWeights, fun ws e => tune_of_error,
    weights_compact f, setWeights_compact f⟩
  refine ⟨weights_of_setWeights h, ?_, ?_, ?_, trees_of_setWeights h, setWeights_setWeights h⟩
  · rw [eq_of_setWeights h]
  · rw [← Code.length_skeleton, skeleton_of_setWeights h, Code.length_skeleton]
  · exact fun k i => Code.exists_of_skeleton_eq (skeleton_of_setWeights h)

/-- Three weights for a tree with a placeholder: they are read again, and the placeholder stays. -/
theorem weights_lens_placeholder :
    let f : Forest Float := ofCode 4
      [.input 0 0.25, .noOp, .input 1 0.5, .plain .and 0.75, .separator]
    ∃ g, f.setWeights [0.1, 0.2, 0.3] = .ok g ∧ g.weights = [0.1, 0.2, 0.3] ∧
      g.code[1]? = some .noOp ∧ g.trees = f.trees ∧
      g.setWeights f.weights = f.setWeights f.weights := by
  intro f
  obtain ⟨hlength, hset, -⟩ := weights_lens f
  obtain ⟨g, hg⟩ := (hlength [0.1, 0.2, 0.3]).mpr rfl
  obtain ⟨hweights, -, -, hcode, htrees, hlast⟩ := hset _ g hg
  obtain ⟨j, hj, -, -, -, hnoOp⟩ := hcode 1 .noOp rfl
  rw [hnoOp rfl] at hj
  exact ⟨g, hg, hweights, hj, htrees, hlast _⟩

end Forest

end FuzzyForest
