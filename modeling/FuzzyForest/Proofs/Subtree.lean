/-
Subtrees in postfix code.

`Code.reach` walks back over the operands of a node.  It is additive in the number of operands, it
stops where the depth of the stack has fallen by that number, and what it walks over pushes exactly
the operands.  `Code.leftFrom` and `Code.liveBefore?` say the same in positions.
-/
import FuzzyForest.Proofs.Depth

namespace FuzzyForest.Code

variable {α : Type}

/-! ### Walking back -/

lemma reach_nil (k : Nat) : reach k ([] : Code α) = 0 := by
  cases k <;> rfl

lemma isSpecial_of_isNoOp {i : Instruction α} (h : i.isNoOp = true) :
    i.isAggregate = false ∧ i.isSeparator = false := by
  simp only [Instruction.isNoOp, decide_eq_true_eq] at h
  simp [Instruction.isAggregate, Instruction.isSeparator, h]

lemma reach_cons_noOp {i : Instruction α} (hi : i.isNoOp = true) (k : Nat) (before : Code α) :
    reach (k + 1) (i :: before) = reach (k + 1) before + 1 := by
  simp [reach, (isSpecial_of_isNoOp hi).1, hi]

lemma reach_cons {i : Instruction α} (hi : i.isNoOp = false) (ha : i.isAggregate = false)
    (k : Nat) (before : Code α) : reach (k + 1) (i :: before) = reach (k + i.arity) before + 1 := by
  simp [reach, ha, hi]

/-- The operands of a node are walked over one after the other. -/
lemma reach_add {before : Code α} (ha : ∀ i ∈ before, i.isAggregate = false) (a b : Nat) :
    reach (a + b) before = reach a before + reach b (before.drop (reach a before)) := by
  induction before generalizing a with
  | nil => simp [reach_nil]
  | cons i before ih =>
    obtain ⟨hi, hrest⟩ := List.forall_mem_cons.mp ha
    cases a with
    | zero => simp [reach]
    | succ a =>
      rw [Nat.add_right_comm]
      by_cases hn : i.isNoOp = true
      · rw [reach_cons_noOp hn, reach_cons_noOp hn, Nat.add_right_comm, ih hrest,
          List.drop_succ_cons]
        omega
      · have hn : i.isNoOp = false := eq_false_of_ne_true hn
        rw [reach_cons hn hi, reach_cons hn hi, Nat.add_right_comm, ih hrest, List.drop_succ_cons]
        omega

/-- A part of a tree without aggregates. -/
def IsPlain (code : Code α) : Prop := ∀ i ∈ code, i.isAggregate = false ∧ i.isSeparator = false

lemma IsPlain.notAggregate {code : Code α} (h : code.IsPlain) :
    ∀ i ∈ code, i.isAggregate = false := fun i hi => (h i hi).1

lemma isWellFormed_iff {code : Code α} : code.isWellFormed = true ↔
    (∀ i ∈ code, i.isSeparator = false) ∧ residualDepth code = some 1 := by
  simp [isWellFormed]

/-! ### Without placeholders -/

lemma isNoOp_of_isSeparator {i : Instruction α} (h : i.isSeparator = true) : i.isNoOp = false := by
  simp only [Instruction.isSeparator, decide_eq_true_eq] at h
  simp [Instruction.isNoOp, h]

lemma compact_cons {i : Instruction α} (hi : i.isNoOp = false) (rest : Code α) :
    compact (i :: rest) = i :: compact rest := List.filter_cons_of_pos (by simp [hi])

lemma compact_cons_of_isNoOp {i : Instruction α} (hi : i.isNoOp = true) (rest : Code α) :
    compact (i :: rest) = compact rest := List.filter_cons_of_neg (by simp [hi])

lemma compact_append (a b : Code α) : compact (a ++ b) = compact a ++ compact b :=
  List.filter_append a b

/-- Separators stay where they are. -/
lemma compact_tree {sep : Instruction α} (hsep : sep.isSeparator = true) (tree rest : Code α) :
    compact (tree ++ sep :: rest) = compact tree ++ sep :: compact rest := by
  rw [compact_append, compact_cons (isNoOp_of_isSeparator hsep)]

lemma compact_compact (code : Code α) : code.compact.compact = code.compact := by
  rw [compact, compact, List.filter_filter]
  simp only [Bool.and_self]

/-- Placeholders do not matter for a tree. -/
lemma isWellFormed_compact (code : Code α) : code.compact.isWellFormed = code.isWellFormed := by
  have hseparators : (∀ i ∈ code.compact, i.isSeparator = false) ↔
      ∀ i ∈ code, i.isSeparator = false := by
    refine ⟨fun h i hi => ?_, fun h i hi => h i (List.mem_filter.mp hi).1⟩
    by_cases hn : i.isNoOp = true
    · exact (isSpecial_of_isNoOp hn).2
    · exact h i (List.mem_filter.mpr ⟨hi, by simp [hn]⟩)
  rw [Bool.eq_iff_iff, isWellFormed_iff, isWellFormed_iff, hseparators, residualDepth,
    depthFrom_compact, residualDepth]

lemma isPlain_of_isWellFormed {code : Code α} (h : code.isWellFormed = true)
    (ha : ∀ i ∈ code, i.isAggregate = false) : code.IsPlain := fun i hi =>
  ⟨ha i hi, (isWellFormed_iff.mp h).1 i hi⟩

lemma isLive_of_not {i : Instruction α} (hn : i.isNoOp = false) (hs : i.isSeparator = false) :
    i.isLive = true := by
  rw [Instruction.isLive_eq, hn, hs]
  rfl

lemma isNoOp_of_isLive {i : Instruction α} (h : i.isLive = true) : i.isNoOp = false := by
  rw [Instruction.isLive_eq, Bool.and_eq_true] at h
  simpa using h.1

/-- A walk back over operands that are on the stack, with one case for each kind of instruction that
it comes to. -/
inductive Walk : Nat → Code α → Prop
  /-- All operands are found. -/
  | done (before : Code α) : Walk 0 before
  /-- An aggregate has left the only value. -/
  | aggregate {i : Instruction α} {before : Code α} (ha : i.isAggregate = true)
    (hseparators : ∀ j ∈ before, j.isSeparator = false)
    (hd : depthFrom 0 (i :: before).reverse = some 1) : Walk 1 (i :: before)
  /-- A placeholder is passed over. -/
  | noOp {k : Nat} {i : Instruction α} {before : Code α} (hn : i.isNoOp = true)
    (hrest : Walk (k + 1) before) : Walk (k + 1) (i :: before)
  /-- The operands of a node are looked for, too. -/
  | node {k : Nat} {i : Instruction α} {before : Code α} (hl : i.isLive = true)
    (ha : i.isAggregate = false) (hrest : Walk (k + i.arity) before) : Walk (k + 1) (i :: before)

/-- Inside a tree there is a walk over as many operands as there are values on the stack. -/
lemma walk_of_depth {before : Code α} (hseparators : ∀ i ∈ before, i.isSeparator = false) {d k : Nat}
    (hd : depthFrom 0 before.reverse = some d) (hk : k ≤ d) : Walk k before := by
  induction before generalizing d k with
  | nil =>
    cases hd
    obtain rfl : k = 0 := by omega
    exact .done []
  | cons i before ih =>
    cases k with
    | zero => exact .done _
    | succ k =>
      obtain ⟨hs, hrest⟩ := List.forall_mem_cons.mp hseparators
      have hall := hd
      rw [List.reverse_cons, depthFrom_concat] at hd
      obtain ⟨c, hc, hd⟩ := Option.bind_eq_some_iff.mp hd
      by_cases ha : i.isAggregate = true
      · rw [depthAfter_of_isAggregate ha, Option.ite_none_left_eq_some, Option.some.injEq] at hd
        obtain ⟨-, rfl⟩ := hd
        obtain rfl : k = 0 := by omega
        exact .aggregate ha hrest hall
      · have ha : i.isAggregate = false := eq_false_of_ne_true ha
        by_cases hn : i.isNoOp = true
        · rw [depthAfter_of_isNoOp hn] at hd
          cases hd
          exact .noOp hn (ih hrest hc hk)
        · have hl := isLive_of_not (eq_false_of_ne_true hn) hs
          obtain ⟨below, rfl, rfl⟩ := (depthAfter_eq_some_iff hl ha).mp hd
          exact .node hl ha (ih hrest hc (show k + i.arity ≤ below + i.arity by omega))

/-- There are no more operands than instructions. -/
lemma Walk.le_length {k : Nat} {before : Code α} (h : Walk k before) : k ≤ before.length := by
  induction h with
  | done => exact Nat.zero_le _
  | aggregate | noOp | node =>
    rw [List.length_cons]
    omega

/-- Without aggregates, what a walk over `k` operands passes pushes `k` values. -/
lemma Walk.pushes {k : Nat} {before : Code α} (h : Walk k before)
    (ha : ∀ i ∈ before, i.isAggregate = false) :
    Pushes k (before.take (reach k before)).reverse := by
  induction h with
  | done => simpa [reach] using Pushes.nil
  | aggregate hagg =>
    rw [ha _ List.mem_cons_self] at hagg
    cases hagg
  | noOp hn _ ih =>
    rw [reach_cons_noOp hn, List.take_succ_cons, List.reverse_cons]
    exact (ih (List.forall_mem_cons.mp ha).2).concat_of_not_isLive
      (by rw [Instruction.isLive_eq, hn]; rfl)
  | node hl hagg _ ih =>
    rw [reach_cons (isNoOp_of_isLive hl) hagg, List.take_succ_cons, List.reverse_cons]
    exact (ih (List.forall_mem_cons.mp ha).2).concat hl hagg

/-- What a walk over `k` operands passes pushes `k` values, and so much less is on the stack where
it stops. -/
lemma reach_split {before : Code α} (hplain : before.IsPlain) {d k : Nat}
    (hd : depthFrom 0 before.reverse = some d) (hk : k ≤ d) :
    Pushes k (before.take (reach k before)).reverse ∧
      depthFrom 0 (before.drop (reach k before)).reverse = some (d - k) := by
  have hpushes : Pushes k (before.take (reach k before)).reverse :=
    (walk_of_depth (fun i hi => (hplain i hi).2) hd hk).pushes hplain.notAggregate
  refine ⟨hpushes, ?_⟩
  have hparts : before.reverse
      = (before.drop (reach k before)).reverse ++ (before.take (reach k before)).reverse := by
    rw [← List.reverse_append, List.take_append_drop]
  rw [hparts, depthFrom_append] at hd
  obtain ⟨e, he, hd⟩ := Option.bind_eq_some_iff.mp hd
  rw [hpushes e, Option.some.injEq] at hd
  rw [he, ← hd, Nat.add_sub_cancel]

/-! ### Positions -/

/-- The position of the nearest live instruction before a position. -/
def liveBefore? (code : Code α) : Nat → Option Nat
  | 0 => none
  | n + 1 => if (code[n]?).any Instruction.isLive then some n else liveBefore? code n

/-- Where the nearest `k` operands before a position start. -/
def leftFrom (code : Code α) (n k : Nat) : Nat := n - reach k (code.take n).reverse

/-- Where the subtree of the node at a position starts. -/
def leftOf (code : Code α) (i : Nat) : Nat :=
  match code[i]? with
  | some node => i - reachOf node (code.take i).reverse
  | none => i

lemma liveBefore?_lt {code : Code α} {n i : Nat} (h : liveBefore? code n = some i) : i < n := by
  induction n with
  | zero => cases h
  | succ n ih =>
    rw [liveBefore?] at h
    split at h
    · cases h
      exact Nat.lt_succ_self _
    · exact Nat.lt_succ_of_lt (ih h)

lemma liveBefore?_succ {code : Code α} {n : Nat} {node : Instruction α}
    (hn : code[n]? = some node) :
    liveBefore? code (n + 1) = if node.isLive then some n else liveBefore? code n := by
  rw [liveBefore?, hn, Option.any_some]

lemma leftOf_le (code : Code α) (i : Nat) : leftOf code i ≤ i := by
  rw [leftOf]
  split
  · exact Nat.sub_le _ _
  · exact Nat.le_refl _

@[simp]
lemma leftFrom_zero (code : Code α) (n : Nat) : leftFrom code n 0 = n := by
  simp [leftFrom, reach]

lemma leftOf_eq {code : Code α} {i : Nat} {node : Instruction α} (hi : code[i]? = some node)
    (ha : node.isAggregate = false) : leftOf code i = leftFrom code i node.arity := by
  simp [leftOf, leftFrom, reachOf, hi, ha]

lemma reverse_take_succ {code : Code α} {n : Nat} {node : Instruction α}
    (hn : code[n]? = some node) : (code.take (n + 1)).reverse = node :: (code.take n).reverse := by
  rw [List.take_add_one, hn]
  simp

lemma reverse_take_leftFrom {code : Code α} {n : Nat} (hn : n ≤ code.length) (k : Nat) :
    (code.take (leftFrom code n k)).reverse
      = (code.take n).reverse.drop (reach k (code.take n).reverse) := by
  rw [List.drop_reverse, List.take_take, List.length_take, Nat.min_eq_left hn,
    Nat.min_eq_left (Nat.sub_le _ _)]
  rfl

lemma IsPlain.reverse_take {code : Code α} (h : code.IsPlain) (n : Nat) :
    IsPlain (code.take n).reverse := fun i hi =>
  h i (List.mem_of_mem_take (List.mem_reverse.mp hi))

/-- The operands before a position start where the last of them starts. -/
lemma leftFrom_add {code : Code α} (hplain : code.IsPlain) {n : Nat} (hn : n ≤ code.length)
    (a b : Nat) : leftFrom code n (a + b) = leftFrom code (leftFrom code n a) b := by
  rw [leftFrom, reach_add (hplain.reverse_take n).notAggregate, leftFrom,
    reverse_take_leftFrom hn, leftFrom]
  omega

/-- The nearest operand before a position ends at the nearest live instruction. -/
lemma leftFrom_succ {code : Code α} (hplain : code.IsPlain) {n i : Nat} (hn : n ≤ code.length)
    (hi : liveBefore? code n = some i) (k : Nat) :
    leftFrom code n (k + 1) = leftFrom code (leftOf code i) k := by
  induction n with
  | zero => cases hi
  | succ n ih =>
    have hlt : n < code.length := hn
    have hnode : code[n]? = some code[n] := List.getElem?_eq_getElem hlt
    obtain ⟨ha, hs⟩ := hplain _ (List.getElem_mem hlt)
    rw [liveBefore?, hnode, Option.any_some] at hi
    split at hi
    · rename_i hl
      cases hi
      rw [leftOf_eq hnode ha, ← leftFrom_add hplain (Nat.le_of_lt hlt), Nat.add_comm _ k, leftFrom,
        reverse_take_succ hnode, reach_cons (isNoOp_of_isLive hl) ha, leftFrom]
      omega
    · rename_i hl
      have hnoOp : code[n].isNoOp = true := by
        by_contra h
        exact hl (isLive_of_not (eq_false_of_ne_true h) hs)
      rw [← ih (Nat.le_of_lt hlt) hi, leftFrom, reverse_take_succ hnode, reach_cons_noOp hnoOp,
        leftFrom]
      omega

end FuzzyForest.Code
