/-
The span of a node.

In a forest the walk back from a node stops inside its tree, where the stack is as high as it is
below the value of the node.  Whatever does the same to the stack may stand in the place of the
span, and the buffer is still a forest.
-/
import FuzzyForest.Proofs.Boundaries

namespace FuzzyForest.Code

variable {α : Type}

/-! ### Depth in a forest -/

lemma depthBehind_separator {i : Instruction α} (hs : i.isSeparator = true) {d e : Nat}
    (h : depthBehind d i = some e) : d = 1 ∧ e = 0 := by
  rw [depthBehind, if_pos hs, Option.ite_none_right_eq_some, Option.some.injEq] at h
  exact ⟨h.1, h.2.symm⟩

lemma isSeparator_of_isLive {i : Instruction α} (h : i.isLive = true) : i.isSeparator = false := by
  rw [Instruction.isLive_eq, Bool.and_eq_true] at h
  simpa using h.2

/-- A live instruction leaves its own value on top of some others. -/
lemma exists_depthBehind {i : Instruction α} (hl : i.isLive = true) {d e : Nat}
    (h : depthBehind d i = some e) : ∃ below, e = below + 1 := by
  rw [depthBehind_of_not_isSeparator (isSeparator_of_isLive hl)] at h
  by_cases ha : i.isAggregate = true
  · rw [depthAfter_of_isAggregate ha, Option.ite_none_left_eq_some, Option.some.injEq] at h
    exact ⟨0, h.2.symm⟩
  · obtain ⟨below, -, rfl⟩ := (depthAfter_eq_some_iff hl (eq_false_of_ne_true ha)).mp h
    exact ⟨below, rfl⟩

/-- What an instruction does to the stack depends on its kind only. -/
lemma depthBehind_congr {i j : Instruction α} (h : j.opcode = i.opcode) (d : Nat) :
    depthBehind d j = depthBehind d i := by
  rcases i with ⟨op, v, l, w⟩
  rcases j with ⟨op', v', l', w'⟩
  cases h
  rfl

/-- Two instructions of one arity do the same to the stack. -/
lemma depthBehind_of_arity {i j : Instruction α} (hi : i.isLive = true) (hj : j.isLive = true)
    (hai : i.isAggregate = false) (haj : j.isAggregate = false) (harity : j.arity = i.arity)
    (d : Nat) : depthBehind d j = depthBehind d i := by
  rw [depthBehind_of_not_isSeparator (isSeparator_of_isLive hi),
    depthBehind_of_not_isSeparator (isSeparator_of_isLive hj), depthAfter_of_isLive hi hai,
    depthAfter_of_isLive hj haj, harity]

/-- A unary node changes the value on top of the stack. -/
lemma depthBehind_unary {i : Instruction α} (hi : i.isLive = true) (ha : i.isAggregate = false)
    (harity : i.arity = 1) (below : Nat) : depthBehind (below + 1) i = some (below + 1) := by
  rw [depthBehind_of_not_isSeparator (isSeparator_of_isLive hi), ← harity,
    depthAfter_add_arity hi ha, harity]

lemma depthBehind_noOp {i : Instruction α} (hi : i.isNoOp = true) (d : Nat) :
    depthBehind d i = some d := by
  rw [depthBehind_of_not_isSeparator (isSpecial_of_isNoOp hi).2, depthAfter_of_isNoOp hi]

lemma depthThrough_singleton (d : Nat) (i : Instruction α) :
    depthThrough d [i] = depthBehind d i := by
  rw [depthThrough_cons]
  cases depthBehind d i <;> rfl

/-! ### Walking back -/

/-- A tree starts with an empty stack. -/
lemma depthThrough_sinceSeparator {before : Code α} {d : Nat}
    (h : depthThrough 0 before.reverse = some d) :
    depthThrough 0 (before.drop (sinceSeparator before)).reverse = some 0 := by
  induction before generalizing d with
  | nil => rfl
  | cons i before ih =>
    rw [List.reverse_cons, depthThrough_concat] at h
    obtain ⟨c, hc, hd⟩ := Option.bind_eq_some_iff.mp h
    by_cases hs : i.isSeparator = true
    · obtain ⟨rfl, rfl⟩ := depthBehind_separator hs hd
      have hzero : sinceSeparator (i :: before) = 0 := by simp [sinceSeparator, hs]
      rw [hzero, List.drop_zero, List.reverse_cons, depthThrough_concat, hc, Option.bind_some, hd]
    · have hsucc : sinceSeparator (i :: before) = sinceSeparator before + 1 := by
        simp [sinceSeparator, hs]
      rw [hsucc, List.drop_succ_cons]
      exact ih hc

lemma isSeparator_of_mem_sinceSeparator {before : Code α} {i : Instruction α}
    (h : i ∈ before.take (sinceSeparator before)) : i.isSeparator = false := by
  rw [sinceSeparator, ← List.prefix_iff_eq_take.mp (List.takeWhile_prefix _)] at h
  simpa using List.all_eq_true.mp List.all_takeWhile i h

/-- A walk over operands that are on the stack stays in its tree, and stops where they are not yet
there. -/
lemma reach_in_forest {before : Code α} {d k : Nat} (hd : depthThrough 0 before.reverse = some d)
    (hk : k ≤ d) : (∀ i ∈ before.take (reach k before), i.isSeparator = false) ∧
      depthThrough 0 (before.drop (reach k before)).reverse = some (d - k) := by
  induction before generalizing d k with
  | nil =>
    cases hd
    obtain rfl : k = 0 := by omega
    exact ⟨nofun, rfl⟩
  | cons i before ih =>
    cases k with
    | zero => exact ⟨nofun, hd⟩
    | succ k =>
      rw [List.reverse_cons, depthThrough_concat] at hd
      obtain ⟨c, hc, hd⟩ := Option.bind_eq_some_iff.mp hd
      -- behind a separator the stack is empty, so that no operand is looked for there
      have hs : i.isSeparator = false := by
        by_contra hs
        obtain ⟨-, rfl⟩ := depthBehind_separator (eq_true_of_ne_false hs) hd
        omega
      rw [depthBehind_of_not_isSeparator hs] at hd
      by_cases ha : i.isAggregate = true
      · -- an aggregate has left the only value, and its operands start with the tree
        rw [depthAfter_of_isAggregate ha, Option.ite_none_left_eq_some, Option.some.injEq] at hd
        have hreach : reach (k + 1) (i :: before) = sinceSeparator before + 1 := by
          rw [reach, if_pos ha]
        rw [hreach, List.take_succ_cons, List.drop_succ_cons, depthThrough_sinceSeparator hc]
        refine ⟨List.forall_mem_cons.mpr ⟨hs, fun j => isSeparator_of_mem_sinceSeparator⟩, ?_⟩
        congr 1
        omega
      · have ha : i.isAggregate = false := eq_false_of_ne_true ha
        by_cases hn : i.isNoOp = true
        · rw [depthAfter_of_isNoOp hn] at hd
          cases hd
          obtain ⟨hspan, hdrop⟩ := ih hc hk
          rw [reach_cons_noOp hn, List.take_succ_cons, List.drop_succ_cons]
          exact ⟨List.forall_mem_cons.mpr ⟨hs, hspan⟩, hdrop⟩
        · have hn : i.isNoOp = false := eq_false_of_ne_true hn
          obtain ⟨below, rfl, rfl⟩ := (depthAfter_eq_some_iff (isLive_of_not hn hs) ha).mp hd
          obtain ⟨hspan, hdrop⟩ := ih hc (show k + i.arity ≤ below + i.arity by omega)
          rw [reach_cons hn ha, List.take_succ_cons, List.drop_succ_cons, hdrop]
          refine ⟨List.forall_mem_cons.mpr ⟨hs, hspan⟩, ?_⟩
          congr 1
          omega

/-- **The span of a node lies inside its tree and leaves one value more than it finds.** -/
theorem reachOf_in_forest {before : Code α} {i : Instruction α} (hl : i.isLive = true) {d e : Nat}
    (hd : depthThrough 0 before.reverse = some d) (he : depthBehind d i = some e) :
    (∀ j ∈ before.take (reachOf i before), j.isSeparator = false) ∧
      ∃ below, depthThrough 0 (before.drop (reachOf i before)).reverse = some below ∧
        e = below + 1 := by
  rw [depthBehind_of_not_isSeparator (isSeparator_of_isLive hl)] at he
  by_cases ha : i.isAggregate = true
  · rw [depthAfter_of_isAggregate ha, Option.ite_none_left_eq_some, Option.some.injEq] at he
    rw [reachOf, if_pos ha]
    exact ⟨fun j => isSeparator_of_mem_sinceSeparator, 0, depthThrough_sinceSeparator hd, he.2.symm⟩
  · obtain ⟨below, rfl, rfl⟩ := (depthAfter_eq_some_iff hl (eq_false_of_ne_true ha)).mp he
    obtain ⟨hspan, hdrop⟩ := reach_in_forest hd (Nat.le_add_left i.arity below)
    rw [reachOf, if_neg ha]
    exact ⟨hspan, below, by rw [hdrop, Nat.add_sub_cancel], rfl⟩

/-! ### Replacing a part -/

/-- A part of a forest may be replaced by one that has as many separators and does the same to the
stack. -/
lemma IsForest.replace {n : Nat} {front old back : Code α} (h : IsForest n (front ++ old ++ back))
    (new : Code α)
    (hdepth : ∀ d e, depthThrough 0 front = some d → depthThrough d old = some e →
      depthThrough d new = some e)
    (hseparators : new.separators = old.separators) (hback : back ≠ []) :
    IsForest n (front ++ new ++ back) := by
  obtain ⟨hscan, hclosed, hn⟩ := isForest_iff.mp h
  rw [List.append_assoc, depthThrough_append] at hscan
  obtain ⟨d, hd, hscan⟩ := Option.bind_eq_some_iff.mp hscan
  rw [depthThrough_append] at hscan
  obtain ⟨e, he, hscan⟩ := Option.bind_eq_some_iff.mp hscan
  refine isForest_iff.mpr ⟨?_, ?_, ?_⟩
  · rw [List.append_assoc, depthThrough_append, hd, Option.bind_some, depthThrough_append,
      hdepth d e hd he, Option.bind_some, hscan]
  · rw [isClosed_append hback] at hclosed ⊢
    exact hclosed
  · rw [separators_append, separators_append] at hn ⊢
    rw [hseparators, hn]

/-- A live instruction is not the last one of a forest. -/
lemma IsForest.ne_nil {n : Nat} {front back : Code α} {i : Instruction α}
    (h : IsForest n (front ++ i :: back)) (hi : i.isSeparator = false) : back ≠ [] := by
  rintro rfl
  have := h.isClosed i (by simp)
  rw [hi] at this
  cases this

/-- Code that may stand in the place of other code of a tree. -/
structure Replaces (new old : Code α) : Prop where
  ne_nil : old ≠ []
  oldInTree : ∀ i ∈ old, i.isSeparator = false
  newInTree : ∀ i ∈ new, i.isSeparator = false
  /-- Wherever the old code has its operands, the new code does the same to the stack. -/
  depth : ∀ d e, depthThrough d old = some e → depthThrough d new = some e

lemma Replaces.separators_eq {new old : Code α} (h : Replaces new old) :
    new.separators = old.separators := by
  rw [separators_eq_zero h.newInTree, separators_eq_zero h.oldInTree]

lemma IsForest.replaces {n : Nat} {front old new back : Code α}
    (h : IsForest n (front ++ old ++ back)) (hreplaces : Replaces new old) :
    IsForest n (front ++ new ++ back) := by
  refine h.replace new (fun d e _ => hreplaces.depth d e) hreplaces.separators_eq ?_
  rintro rfl
  -- the forest would end inside a tree
  rw [List.append_nil] at h
  have hclosed := (isClosed_append hreplaces.ne_nil).mp h.isClosed
  have hlast := hclosed _ (List.getLast?_eq_some_getLast hreplaces.ne_nil)
  rw [hreplaces.oldInTree _ (List.getLast_mem hreplaces.ne_nil)] at hlast
  cases hlast

end FuzzyForest.Code
