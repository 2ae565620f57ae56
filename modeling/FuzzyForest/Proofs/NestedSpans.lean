/-
Where subtrees start.

In a buffer of well-formed trees the search for the start of a subtree ends inside the tree of its
node, and what it has passed is a well-formed tree.  The walk back from one node passes the whole
span of every node that it meets, so that any two spans are nested or disjoint.  Without aggregates
no shorter code up to the node is well formed.  An aggregate is met with operands still owed; since
it takes the whole stack, its span starts with its tree, and a shorter one may be well formed too.
-/
import FuzzyForest.Proofs.Exchange

namespace FuzzyForest

namespace Code

variable {α : Type}

/-! ### Walking back -/

/-- The operands that are looked for inside a tree are never more than its instructions, so that
their number is a word. -/
lemma Walk.reachRound_eq {inside before : Code α} {k : Nat} (h : Walk k inside)
    (hwords : inside.length < UInt64.size) :
    reachRound k (inside ++ before) = reach k (inside ++ before) := by
  induction h with
  | done => simp [reach, reachRound]
  | aggregate ha => rw [List.cons_append, reachRound, reach, if_pos ha, if_pos ha]
  | noOp hn _ ih =>
    rw [List.cons_append, reach_cons_noOp hn, reachRound, if_neg (by simp [isSpecial_of_isNoOp hn]),
      if_pos hn, ih (Nat.lt_of_succ_lt hwords)]
  | @node k i inside hl ha hrest ih =>
    have hn := isNoOp_of_isLive hl
    have hlt : inside.length < UInt64.size := Nat.lt_of_succ_lt hwords
    rw [List.cons_append, reach_cons hn ha, reachRound, if_neg (by simp [ha]), if_neg (by simp [hn]),
      Nat.mod_eq_of_lt (Nat.lt_of_le_of_lt hrest.le_length hlt), ih hlt]

/-- More operands take up no less code. -/
lemma reach_mono {k k' : Nat} (h : k ≤ k') (before : Code α) :
    reach k before ≤ reach k' before := by
  induction before generalizing k k' with
  | nil => simp [reach_nil]
  | cons i before ih =>
    cases k with
    | zero => simp [reach]
    | succ k =>
      obtain ⟨k', rfl⟩ := Nat.exists_eq_add_of_le' (Nat.le_trans (Nat.le_add_left 1 k) h)
      have hle : k ≤ k' := Nat.le_of_succ_le_succ h
      rw [reach, reach]
      split
      · exact Nat.le_refl _
      · split
        · exact Nat.succ_le_succ (ih h)
        · exact Nat.succ_le_succ (ih (Nat.add_le_add_right hle _))

/-- **A walk back inside a tree that passes a node passes its whole span.** -/
lemma add_reachOf_le_reach {inside before : Code α} {node : Instruction α} {k : Nat}
    (hl : node.isLive = true)
    (hseparators : ∀ i ∈ inside ++ node :: before, i.isSeparator = false)
    (h : inside.length < reach k (inside ++ node :: before)) :
    inside.length + 1 + reachOf node before ≤ reach k (inside ++ node :: before) := by
  induction inside generalizing k with
  | nil =>
    cases k with
    | zero => simp [reach] at h
    | succ k =>
      rw [List.nil_append, reachOf, reach, isNoOp_of_isLive hl, if_neg Bool.false_ne_true]
      have hmono := reach_mono (Nat.le_add_left node.arity k) before
      split <;> simp only [List.length_nil] <;> omega
  | cons i inside ih =>
    rw [List.cons_append] at hseparators
    obtain ⟨-, hrest⟩ := List.forall_mem_cons.mp hseparators
    cases k with
    | zero => simp [reach] at h
    | succ k =>
      have hbound := Code.sinceSeparator_le before
      have hreach := Code.reach_le node.arity before
      rw [List.cons_append, reach] at h ⊢
      split at h
      · -- an aggregate on the way takes the walk to the start of the tree
        rename_i ha
        rw [if_pos ha, sinceSeparator_eq_length hrest, reachOf]
        simp only [List.length_append, List.length_cons]
        split <;> omega
      · rename_i ha
        rw [if_neg ha]
        split at h
        · rename_i hn
          rw [if_pos hn, List.length_cons]
          have := ih hrest (Nat.lt_of_succ_lt_succ h)
          omega
        · rename_i hn
          rw [if_neg hn, List.length_cons]
          have := ih hrest (Nat.lt_of_succ_lt_succ h)
          omega

/-- Code that makes the operands out of nothing is not left by the walk over them. -/
lemma Walk.reach_le_length {inside before : Code α} {k : Nat} (h : Walk k inside)
    (hinside : ∀ i ∈ inside, i.isAggregate = false) :
    reach k (inside ++ before) ≤ inside.length := by
  induction h with
  | done => simp [reach]
  | aggregate ha =>
    rw [hinside _ List.mem_cons_self] at ha
    cases ha
  | noOp hn _ ih =>
    rw [List.cons_append, reach_cons_noOp hn]
    exact Nat.succ_le_succ (ih (List.forall_mem_cons.mp hinside).2)
  | node hl ha _ ih =>
    rw [List.cons_append, reach_cons (isNoOp_of_isLive hl) ha]
    exact Nat.succ_le_succ (ih (List.forall_mem_cons.mp hinside).2)

/-! ### Spans in a tree -/

section

variable {tree : Code α} {i j : Nat} {node other : Instruction α}

/-- The subtree of a live node is a tree. -/
lemma isWellFormed_spanAt (htree : tree.isWellFormed = true) (hnode : tree[j]? = some node)
    (hl : node.isLive = true) : (spanAt tree j).isWellFormed = true :=
  isWellFormed_iff.mpr ⟨fun i hi => (isWellFormed_iff.mp htree).1 i
    (List.mem_of_mem_take (List.mem_of_mem_drop hi)), depthFrom_spanAt htree hnode hl⟩

/-- The spans of two live nodes of a tree are nested or disjoint. -/
lemma leftOf_le_or_lt (htree : tree.isWellFormed = true) (hij : i < j) (hi : tree[i]? = some other)
    (hj : tree[j]? = some node) (hl : other.isLive = true) :
    leftOf tree j ≤ leftOf tree i ∨ i < leftOf tree j := by
  obtain ⟨hlt, -⟩ := List.getElem?_eq_some_iff.mp hj
  -- the code before the later node, nearest first
  have hbefore : (tree.take j).reverse
      = ((tree.take j).drop (i + 1)).reverse ++ other :: (tree.take i).reverse := by
    conv_lhs => rw [← List.take_append_drop (i + 1) (tree.take j)]
    rw [List.take_take, Nat.min_eq_left hij, List.reverse_append, reverse_take_succ hi]
  have hlength : ((tree.take j).drop (i + 1)).reverse.length = j - (i + 1) := by
    rw [List.length_reverse, List.length_drop, List.length_take_of_le (Nat.le_of_lt hlt)]
  have hseparators : ∀ i ∈ (tree.take j).reverse, i.isSeparator = false := fun i hi =>
    (isWellFormed_iff.mp htree).1 i (List.mem_of_mem_take (List.mem_reverse.mp hi))
  have hleft : leftOf tree j = j - reachOf node (tree.take j).reverse := by rw [leftOf, hj]
  have hleft' : leftOf tree i = i - reachOf other (tree.take i).reverse := by rw [leftOf, hi]
  by_cases ha : node.isAggregate = true
  · left
    rw [hleft, reachOf, if_pos ha, sinceSeparator_eq_length hseparators, List.length_reverse,
      List.length_take_of_le (Nat.le_of_lt hlt)]
    omega
  · rw [hleft, hleft', reachOf, if_neg ha, hbefore]
    rw [hbefore] at hseparators
    by_cases h : ((tree.take j).drop (i + 1)).reverse.length
        < reach node.arity
          (((tree.take j).drop (i + 1)).reverse ++ other :: (tree.take i).reverse)
    · have := add_reachOf_le_reach hl hseparators h
      omega
    · omega

/-- Without aggregates the span of a node is the shortest well-formed code up to it. -/
lemma le_leftOf (htree : tree.isWellFormed = true) (ha : ∀ i ∈ tree, i.isAggregate = false)
    (hnode : tree[j]? = some node) (hl : node.isLive = true) {k : Nat}
    (hk : (tree.slice (k, j + 1)).isWellFormed = true) : k ≤ leftOf tree j := by
  obtain ⟨hlt, -⟩ := List.getElem?_eq_some_iff.mp hnode
  have hplain := isPlain_of_isWellFormed htree ha
  have hlength : (tree.take j).length = j := List.length_take_of_le (Nat.le_of_lt hlt)
  have hdepth : depthFrom 0 (tree.slice (k, j + 1)) = some 1 := (isWellFormed_iff.mp hk).2
  have hle : k ≤ j := by
    by_contra hlarge
    rw [slice, List.drop_of_length_le (by rw [List.length_take]; omega)] at hdepth
    cases hdepth
  rw [slice, List.take_add_one, hnode, Option.toList_some,
    List.drop_append_of_le_length (by omega), depthFrom_concat] at hdepth
  obtain ⟨d, hd, hroot⟩ := Option.bind_eq_some_iff.mp hdepth
  have hagg : node.isAggregate = false := ha node (List.mem_of_getElem? hnode)
  obtain ⟨below, rfl, hbelow⟩ := (depthAfter_eq_some_iff hl hagg).mp hroot
  have hinside : IsPlain ((tree.take j).drop k).reverse := fun i hi =>
    hplain i (List.mem_of_mem_take (List.mem_of_mem_drop (List.mem_reverse.mp hi)))
  have hwalk : Walk node.arity ((tree.take j).drop k).reverse :=
    walk_of_depth (fun i hi => (hinside i hi).2) (by rwa [List.reverse_reverse])
      (Nat.le_add_left _ _)
  have hreach : reach node.arity (((tree.take j).drop k).reverse ++ ((tree.take j).take k).reverse)
      ≤ ((tree.take j).drop k).reverse.length := hwalk.reach_le_length hinside.notAggregate
  rw [← List.reverse_append, List.take_append_drop, List.length_reverse, List.length_drop,
    hlength] at hreach
  rw [leftOf_eq hnode hagg, leftFrom]
  omega

end

/-! ### Spans in a buffer -/

/-- What the search for the start of the subtree of a node finds in the tree in a range: it does not
leave the tree, the code from there to the node is a tree, and without aggregates it is the shortest
one. -/
structure IsSubtreeStart (code : Code α) (range : Nat × Nat) (i start : Nat) : Prop where
  inTree : range.1 ≤ start
  le : start ≤ i
  isWellFormed : (code.slice (start, i + 1)).isWellFormed = true
  greatest : (∀ j ∈ code.slice range, j.isAggregate = false) →
    ∀ k, (code.slice (k, i + 1)).isWellFormed = true → k ≤ start

end Code

namespace Forest

open Code (depthAfter_eq_some_iff exists_depth_at isWellFormed_iff leftOf reach reachOf treesFrom)

/-- A live instruction of a buffer stands in one of its trees. -/
lemma exists_standsIn {code rest : Code Float} {start i : Nat} (hrest : code.drop start = rest)
    (hclosed : Code.IsClosed (code.take start)) (hle : start ≤ i) {node : Instruction Float}
    (hnode : code[i]? = some node) (hl : node.isLive = true) :
    ∃ range ∈ treesFrom start rest, ∃ tree, StandsIn tree code range.1 range.2 ∧
      range.1 ≤ i ∧ i < range.2 := by
  obtain ⟨hlt, -⟩ := List.getElem?_eq_some_iff.mp hnode
  fun_induction treesFrom start rest with
  | case1 start =>
    rw [List.drop_eq_nil_iff] at hrest
    omega
  | case2 start head rest tree ih =>
    have hlength : (code.take start).length = start := List.length_take_of_le (by omega)
    have hparts : code = code.take start ++ head :: rest := by rw [← hrest, List.take_append_drop]
    have hstands := (first_tree hclosed (Code.pieces_cons head rest)).2
    rw [← hparts, hlength] at hstands
    by_cases hi : i < start + tree.length
    · exact ⟨_, List.mem_cons_self, tree, hstands, hle, hi⟩
    · -- the node is not the separator behind the first tree either
      obtain ⟨-, ⟨heq, -⟩ | ⟨sep, rest', heq, hsep, -⟩⟩ :=
        Code.eq_of_pieces_eq_cons (Code.pieces_cons head rest)
      · have hend : code.length = start + tree.length := by
          rw [hparts, List.length_append, hlength, heq]
        omega
      · have hbehind : code[start + tree.length]? = some sep := by
          rw [← List.getElem?_drop, hrest, heq, List.getElem?_append_right (Nat.le_refl _),
            Nat.sub_self, List.getElem?_cons_zero]
        have hne : i ≠ start + tree.length := by
          rintro rfl
          rw [hbehind, Option.some.injEq] at hnode
          rw [hnode, Code.isSeparator_of_isLive hl] at hsep
          cases hsep
        obtain ⟨range, hmem, hrange⟩ := ih (by rw [← hrest, List.drop_drop, Nat.add_assoc])
          (by
            rw [List.take_add_one, hbehind, Code.isClosed_append (by simp)]
            simpa [Code.IsClosed] using hsep)
          (by omega)
        exact ⟨range, List.mem_cons_of_mem _ hmem, hrange⟩

/-- In a tree of a buffer the search for the start of a subtree does not leave the tree. -/
lemma StandsIn.subtreeStart?_eq {tree code : Code Float} {start stop : Nat}
    (h : StandsIn tree code start stop) (htree : tree.isWellFormed = true)
    (hwords : code.length < UInt64.size) {j : Nat} {node : Instruction Float}
    (hnode : tree[j]? = some node) (hl : node.isLive = true) :
    code.subtreeStart? (start + j) node.arity = some (start + leftOf tree j) := by
  obtain ⟨hlt, -⟩ := List.getElem?_eq_some_iff.mp hnode
  obtain ⟨hseparators, hdepth⟩ := isWellFormed_iff.mp htree
  have hcode : code[start + j]? = some node := (h.getElem?_eq hlt).trans hnode
  have hleft : start + j - reachOf node (code.take (start + j)).reverse = start + leftOf tree j :=
    h.left_of hnode (h.le_left hseparators (.inr (by rw [hdepth]; exact Option.some_ne_none 1))
      hnode hl)
  rw [← hleft, Code.subtreeStart?, hcode, Option.any_some, reachOf]
  by_cases ha : node.isAggregate = true
  · rw [if_pos ha, if_pos ha]
  · rw [if_neg ha, if_neg ha]
    split
    · rename_i hzero
      simp [hzero, reach]
    · obtain ⟨hroom, -⟩ := List.getElem?_eq_some_iff.mp hcode
      rw [if_neg (by omega)]
      split
      · rfl
      · -- the number of operands that are looked for is a word all the same
        obtain ⟨d, e, hd, he, -⟩ := exists_depth_at hdepth hnode
        obtain ⟨below, rfl, -⟩ := (depthAfter_eq_some_iff hl (eq_false_of_ne_true ha)).mp he
        obtain ⟨before, -, htake⟩ := h.exists_reverse_take (Nat.le_of_lt hlt)
        have hwalk : Code.Walk node.arity (tree.take j).reverse :=
          Code.walk_of_depth (fun i hi => hseparators i
            (List.mem_of_mem_take (List.mem_reverse.mp hi))) (by rwa [List.reverse_reverse])
            (Nat.le_add_left _ _)
        rw [htake, hwalk.reachRound_eq (by rw [List.length_reverse, List.length_take]; omega)]

/-- What the search finds in a tree of a buffer. -/
lemma StandsIn.isSubtreeStart {tree code : Code Float} {start stop : Nat}
    (h : StandsIn tree code start stop) (htree : tree.isWellFormed = true) {j : Nat}
    {node : Instruction Float} (hnode : tree[j]? = some node) (hl : node.isLive = true) :
    Code.IsSubtreeStart code (start, stop) (start + j) (start + leftOf tree j) := by
  obtain ⟨hlt, -⟩ := List.getElem?_eq_some_iff.mp hnode
  refine ⟨Nat.le_add_right _ _, Nat.add_le_add_left (Code.leftOf_le tree j) start, ?_, ?_⟩
  · have hspan : code.slice (start + leftOf tree j, start + j + 1) = tree.spanAt j := h.slice_eq hlt
    rw [hspan]
    exact Code.isWellFormed_spanAt htree hnode hl
  · intro ha k hk
    rw [h.slice_whole] at ha
    rcases Nat.le_total k start with hle | hle
    · exact Nat.le_trans hle (Nat.le_add_right _ _)
    · obtain ⟨k, rfl⟩ := Nat.exists_eq_add_of_le hle
      have hshorter : code.slice (start + k, start + j + 1) = tree.slice (k, j + 1) :=
        h.slice_eq hlt
      rw [hshorter] at hk
      exact Nat.add_le_add_left (Code.le_leftOf htree ha hnode hl hk) start

/-- The tree in which a live instruction stands. -/
lemma exists_tree {code : Code Float}
    (htrees : ∀ range ∈ code.trees, (code.slice range).isWellFormed = true) {i : Nat}
    {node : Instruction Float} (hnode : code[i]? = some node) (hl : node.isLive = true) :
    ∃ range ∈ code.trees, ∃ tree j, StandsIn tree code range.1 range.2 ∧
      tree.isWellFormed = true ∧ i = range.1 + j ∧ tree[j]? = some node ∧ i < range.2 := by
  have hall : code.drop 0 = code := rfl
  have hclosed : Code.IsClosed (code.take 0) := Code.isClosed_nil
  obtain ⟨range, hmem, tree, hstands, hle, hlt⟩ :=
    exists_standsIn hall hclosed (Nat.zero_le i) hnode hl
  obtain ⟨j, rfl⟩ := Nat.exists_eq_add_of_le hle
  have hj : j < tree.length := by
    have := hstands.stop_eq
    omega
  refine ⟨range, hmem, tree, j, hstands, ?_, rfl, ?_, hlt⟩
  · rw [← hstands.slice_whole]
    exact htrees range hmem
  · rw [← hstands.getElem?_eq hj, hnode]

/-- **The search for the subtree of a live node ends in the tree of the node, at a well-formed tree
and, without aggregates, at the shortest one.  The spans of two live nodes are nested or
disjoint.**  The length of a buffer is a word. -/
theorem subtreeStart_spans {code : Code Float} (hwords : code.length < UInt64.size)
    (htrees : ∀ range ∈ code.trees, (code.slice range).isWellFormed = true) :
    (∀ i node, code[i]? = some node → node.isLive = true →
      ∃ range ∈ code.trees, (range.1 ≤ i ∧ i < range.2) ∧
        ∃ start, code.subtreeStart? i node.arity = some start ∧
          Code.IsSubtreeStart code range i start) ∧
    ∀ i j first second, i < j → code[i]? = some first → code[j]? = some second →
      first.isLive = true → second.isLive = true →
      ∃ start1 start2, code.subtreeStart? i first.arity = some start1 ∧
        code.subtreeStart? j second.arity = some start2 ∧ (start2 ≤ start1 ∨ i < start2) := by
  constructor
  · intro i node hnode hl
    obtain ⟨range, hmem, tree, j, hstands, htree, rfl, hinTree, hlt⟩ := exists_tree htrees hnode hl
    exact ⟨range, hmem, ⟨Nat.le_add_right _ _, hlt⟩, _,
      hstands.subtreeStart?_eq htree hwords hinTree hl, hstands.isSubtreeStart htree hinTree hl⟩
  · intro i j first second hij hfirst hsecond hl1 hl2
    obtain ⟨range, hmem, tree, j, hstands, htree, rfl, hinTree, hlt⟩ :=
      exists_tree htrees hsecond hl2
    rcases Nat.lt_or_ge i range.1 with hbefore | hle
    · -- the first node stands in an earlier tree
      obtain ⟨range', -, tree', i, hstands', htree', rfl, hinTree', -⟩ :=
        exists_tree htrees hfirst hl1
      exact ⟨_, _, hstands'.subtreeStart?_eq htree' hwords hinTree' hl1,
        hstands.subtreeStart?_eq htree hwords hinTree hl2, .inr (by omega)⟩
    · obtain ⟨i, rfl⟩ := Nat.exists_eq_add_of_le hle
      have hij : i < j := Nat.lt_of_add_lt_add_left hij
      obtain ⟨hj, -⟩ := List.getElem?_eq_some_iff.mp hinTree
      have hinTree' : tree[i]? = some first := by
        rw [← hstands.getElem?_eq (Nat.lt_trans hij hj), hfirst]
      refine ⟨_, _, hstands.subtreeStart?_eq htree hwords hinTree' hl1,
        hstands.subtreeStart?_eq htree hwords hinTree hl2, ?_⟩
      have hnested := Code.leftOf_le_or_lt htree hij hinTree' hinTree hl1
      omega

/-- The aggregate takes its whole tree, and the conjunction passes a placeholder. -/
theorem subtreeStart_spans_twoTrees :
    let code : Code Float := [.input 0 0.5, .input 1 0.25, .plain .processAll 0.5, .plain .not 0.75,
      .separator, .input 0 0.5, .noOp, .input 1 0.25, .plain .and 0.75]
    (∃ range ∈ code.trees, (range.1 ≤ 3 ∧ 3 < range.2) ∧
      ∃ start, code.subtreeStart? 3 1 = some start ∧ Code.IsSubtreeStart code range 3 start) ∧
    ∃ start1 start2, code.subtreeStart? 7 0 = some start1 ∧ code.subtreeStart? 8 2 = some start2 ∧
      (start2 ≤ start1 ∨ 7 < start2) := by
  intro code
  have hwords : code.length < UInt64.size := by decide
  have htrees : ∀ range ∈ code.trees, (code.slice range).isWellFormed = true := by decide +kernel
  exact ⟨(subtreeStart_spans hwords htrees).1 3 _ rfl rfl,
    (subtreeStart_spans hwords htrees).2 7 8 _ _ (by decide) rfl rfl rfl rfl⟩

end Forest

end FuzzyForest
