/-
What crossing does to a pair of trees.

The span of a node is found without the code before its tree, so that a node cuts its tree into a
front, the span and a back.  A pair of trees is either copied, or the spans of two nodes change
places; either way nothing but live code is left, and no lone terminal that is forbidden.  The trees
of two buffers are crossed pair by pair.
-/
import FuzzyForest.Forest.Crossover
import FuzzyForest.Proofs.Growth
import FuzzyForest.Proofs.Span
import Mathlib.Data.List.TakeWhile

namespace FuzzyForest

open Act (Returns ReturnsIf)
open Code (IsForest Pushes)

namespace Code

variable {α : Type}

/-! ### Inside a tree -/

/-- The start of a tree is found without the code before it. -/
lemma sinceSeparator_append (inside : Code α) {before : Code α}
    (hbefore : ∀ i ∈ before.head?, i.isSeparator = true) :
    sinceSeparator (inside ++ before) = sinceSeparator inside :=
  congrArg List.length (takeWhile_append_tail hbefore)

/-- A walk that does not leave a tree is the same without the code before the tree. -/
lemma reach_append {inside before : Code α} (hbefore : ∀ i ∈ before.head?, i.isSeparator = true)
    {k : Nat} (h : reach k (inside ++ before) ≤ inside.length) :
    reach k (inside ++ before) = reach k inside := by
  induction inside generalizing k with
  | nil => rw [reach_nil, Nat.le_zero.mp h]
  | cons i inside ih =>
    cases k with
    | zero => rw [reach, reach]
    | succ k =>
      rw [List.cons_append, List.length_cons] at *
      by_cases ha : i.isAggregate = true
      · rw [reach, reach, if_pos ha, if_pos ha, sinceSeparator_append inside hbefore]
      · have ha : i.isAggregate = false := eq_false_of_ne_true ha
        by_cases hn : i.isNoOp = true
        · rw [reach_cons_noOp hn] at h ⊢
          rw [reach_cons_noOp hn, ih (Nat.le_of_succ_le_succ h)]
        · have hn : i.isNoOp = false := eq_false_of_ne_true hn
          rw [reach_cons hn ha] at h ⊢
          rw [reach_cons hn ha, ih (Nat.le_of_succ_le_succ h)]

lemma reachOf_le (node : Instruction α) (before : Code α) : reachOf node before ≤ before.length := by
  rw [reachOf]
  split
  · exact sinceSeparator_le before
  · exact reach_le node.arity before

/-- The span of a node that starts in its tree is found without the code before the tree. -/
lemma reachOf_append {inside before : Code α} (hbefore : ∀ j ∈ before.head?, j.isSeparator = true)
    {i : Instruction α} (h : reachOf i (inside ++ before) ≤ inside.length) :
    reachOf i (inside ++ before) = reachOf i inside := by
  rw [reachOf] at h ⊢
  rw [reachOf]
  split
  · exact sinceSeparator_append inside hbefore
  · rw [if_neg ‹_›] at h
    exact reach_append hbefore h

/-- The walk over operands that are on the stack does not leave the tree. -/
lemma Walk.reach_append_le {inside before : Code α} {k : Nat} (h : Walk k inside)
    (hbefore : ∀ i ∈ before.head?, i.isSeparator = true) :
    reach k (inside ++ before) ≤ inside.length := by
  induction h with
  | done => simp [reach]
  | @aggregate i inside ha =>
    rw [List.cons_append, reach, if_pos ha, sinceSeparator_append inside hbefore]
    exact Nat.succ_le_succ (sinceSeparator_le inside)
  | noOp hn _ ih =>
    rw [List.cons_append, reach_cons_noOp hn]
    exact Nat.succ_le_succ ih
  | node hl ha _ ih =>
    rw [List.cons_append, reach_cons (isNoOp_of_isLive hl) ha]
    exact Nat.succ_le_succ ih

/-- A node whose operands are on the stack has a span that starts in its tree. -/
lemma reachOf_append_le {inside before : Code α} {i : Instruction α} (hi : i.isLive = true)
    (hinside : ∀ j ∈ inside, j.isSeparator = false)
    (hbefore : ∀ j ∈ before.head?, j.isSeparator = true) {d e : Nat}
    (hd : depthFrom 0 inside.reverse = some d) (he : depthAfter d i = some e) :
    reachOf i (inside ++ before) ≤ inside.length := by
  rw [reachOf]
  split
  · rw [sinceSeparator_append inside hbefore]
    exact sinceSeparator_le inside
  · rename_i ha
    obtain ⟨below, rfl, rfl⟩ := (depthAfter_eq_some_iff hi (eq_false_of_ne_true ha)).mp he
    exact (walk_of_depth hinside hd (Nat.le_add_left _ _)).reach_append_le hbefore

/-! ### Cutting a tree -/

/-- A well-formed tree in three parts, of which the second one makes a single value. -/
structure Cut (tree front span back : Code α) : Prop where
  /-- The parts make the tree. -/
  whole : tree = front ++ span ++ back
  /-- The span leaves one value more than it finds. -/
  depth : ∃ d, depthFrom 0 front = some d ∧ depthFrom d span = some (d + 1) ∧
    depthFrom (d + 1) back = some 1
  /-- It does so on any stack if there are no aggregates. -/
  pushes : (∀ i ∈ tree, i.isAggregate = false) → Pushes 1 span

/-- The subtree of the node at a position. -/
def spanAt (tree : Code α) (j : Nat) : Code α := tree.slice (leftOf tree j, j + 1)

/-- The tree with other code in place of the subtree of the node at a position. -/
def replaceAt (tree : Code α) (j : Nat) (span : Code α) : Code α :=
  tree.take (leftOf tree j) ++ span ++ tree.drop (j + 1)

/-- The number of live instructions below the node at a position. -/
def belowAt (tree : Code α) (j : Nat) : Nat := (tree.slice (leftOf tree j, j)).liveCount

/-- The subtree of a node is what the walk back from it passes. -/
lemma spanAt_eq {tree : Code α} {j : Nat} {node : Instruction α} (hnode : tree[j]? = some node) :
    spanAt tree j
      = ((tree.take j).reverse.take (reachOf node (tree.take j).reverse)).reverse ++ [node] := by
  obtain ⟨hlt, -⟩ := List.getElem?_eq_some_iff.mp hnode
  have hlength : (tree.take j).length = j := List.length_take_of_le (Nat.le_of_lt hlt)
  have hleft : leftOf tree j = j - reachOf node (tree.take j).reverse := by rw [leftOf, hnode]
  rw [spanAt, slice, List.take_add_one, hnode, Option.toList_some,
    List.drop_append_of_le_length (by rw [hlength]; exact leftOf_le tree j), List.take_reverse,
    List.reverse_reverse, hlength, ← hleft]

/-- The stack before and behind a node of a tree. -/
lemma exists_depth_at {tree : Code α} {n : Nat} (hdepth : residualDepth tree = some n) {j : Nat}
    {node : Instruction α} (hnode : tree[j]? = some node) : ∃ d e,
      depthFrom 0 (tree.take j) = some d ∧ depthAfter d node = some e ∧
        depthFrom e (tree.drop (j + 1)) = some n := by
  obtain ⟨hlt, rfl⟩ := List.getElem?_eq_some_iff.mp hnode
  have hparts : tree = tree.take j ++ tree[j] :: tree.drop (j + 1) := by
    rw [List.getElem_cons_drop, List.take_append_drop]
  rw [residualDepth, hparts, depthFrom_append] at hdepth
  obtain ⟨d, hd, hdepth⟩ := Option.bind_eq_some_iff.mp hdepth
  obtain ⟨e, he, hback⟩ := Option.bind_eq_some_iff.mp hdepth
  exact ⟨d, e, hd, he, hback⟩

/-- **A live node cuts its tree where its span starts and ends.** -/
theorem cut_at {tree : Code α} (htree : tree.isWellFormed = true) {j : Nat} {node : Instruction α}
    (hnode : tree[j]? = some node) (hl : node.isLive = true) :
    Cut tree (tree.take (leftOf tree j)) (spanAt tree j) (tree.drop (j + 1)) := by
  obtain ⟨hlt, -⟩ := List.getElem?_eq_some_iff.mp hnode
  obtain ⟨hseparators, hdepth⟩ := isWellFormed_iff.mp htree
  obtain ⟨d, e, hd, he, hback⟩ := exists_depth_at hdepth hnode
  have hleft : leftOf tree j = j - reachOf node (tree.take j).reverse := by
    rw [leftOf, hnode]
  have hle : leftOf tree j ≤ j := leftOf_le tree j
  have hlength : (tree.take j).length = j := List.length_take_of_le (Nat.le_of_lt hlt)
  -- what the walk back from the node does not reach
  have htake : ((tree.take j).reverse.drop (reachOf node (tree.take j).reverse)).reverse
      = tree.take (leftOf tree j) := by
    rw [List.drop_reverse, List.reverse_reverse, hlength, ← hleft, List.take_take,
      Nat.min_eq_left hle]
  have hwhole : tree.take (j + 1) = tree.take (leftOf tree j) ++ spanAt tree j := by
    rw [spanAt, slice]
    conv_lhs => rw [← List.take_append_drop (leftOf tree j) (tree.take (j + 1))]
    rw [List.take_take, Nat.min_eq_left (by omega)]
  refine ⟨?_, ?_, ?_⟩
  · rw [← hwhole, List.take_append_drop]
  · have hinside : ∀ i ∈ (tree.take j).reverse, i.isSeparator = false := fun i hi =>
      hseparators i (List.mem_of_mem_take (List.mem_reverse.mp hi))
    have hscan : depthThrough 0 (tree.take j).reverse.reverse = some d := by
      rw [List.reverse_reverse,
        depthThrough_eq fun i hi => hseparators i (List.mem_of_mem_take hi), hd]
    have hbehind : depthBehind d node = some e := by
      rw [depthBehind_of_not_isSeparator (isSeparator_of_isLive hl), he]
    obtain ⟨-, below, hbelow, rfl⟩ := reachOf_in_forest hl hscan hbehind
    rw [htake, depthThrough_eq fun i hi => hseparators i (List.mem_of_mem_take hi)] at hbelow
    refine ⟨below, hbelow, ?_, hback⟩
    have hupTo : depthFrom 0 (tree.take (j + 1)) = some (below + 1) := by
      rw [List.take_add_one, hnode, Option.toList_some, depthFrom_concat, hd, Option.bind_some, he]
    rw [hwhole, depthFrom_append, hbelow, Option.bind_some] at hupTo
    exact hupTo
  · intro ha
    have hagg : node.isAggregate = false := ha node (List.mem_of_getElem? hnode)
    obtain ⟨below, rfl, rfl⟩ := (depthAfter_eq_some_iff hl hagg).mp he
    have hplain := (isPlain_of_isWellFormed htree ha).reverse_take j
    have hpushes := (reach_split hplain (by rwa [List.reverse_reverse])
      (Nat.le_add_left node.arity below)).1
    rw [spanAt_eq hnode, reachOf, if_neg (by simp [hagg])]
    exact Pushes.concat (k := 0) ((Nat.zero_add _).symm ▸ hpushes) hl hagg

end Code

namespace Forest

/-! ### A tree in a buffer -/

/-- A tree stands somewhere in a buffer, and a separator in front of it if there is any code. -/
structure StandsIn (tree code : Code Float) (start stop : Nat) : Prop where
  parts : ∃ before behind, code = before ++ (tree ++ behind) ∧ Code.IsClosed before ∧
    start = before.length
  stop_eq : stop = start + tree.length

namespace StandsIn

variable {tree code : Code Float} {start stop : Nat}

/-- A range of positions of the tree. -/
lemma slice_eq (h : StandsIn tree code start stop) {a b : Nat} (hb : b ≤ tree.length) :
    code.slice (start + a, start + b) = tree.slice (a, b) := by
  obtain ⟨before, behind, rfl, -, rfl⟩ := h.parts
  rw [Code.slice, List.take_length_add_append, List.drop_length_add_append,
    List.take_append_of_le_length hb, Code.slice]

lemma slice_whole (h : StandsIn tree code start stop) : code.slice (start, stop) = tree := by
  rw [h.stop_eq]
  calc code.slice (start, start + tree.length) = tree.slice (0, tree.length) :=
        h.slice_eq (a := 0) (Nat.le_refl _)
    _ = tree := by rw [Code.slice, List.take_length, List.drop_zero]

lemma getElem?_eq (h : StandsIn tree code start stop) {j : Nat} (hj : j < tree.length) :
    code[start + j]? = tree[j]? := by
  obtain ⟨before, behind, rfl, -, rfl⟩ := h.parts
  rw [List.getElem?_append_right (Nat.le_add_right _ _), Nat.add_sub_cancel_left,
    List.getElem?_append_left hj]

/-- Before a position of the tree, nearest first, stands the front of the tree, and then nothing or
a separator. -/
lemma exists_reverse_take (h : StandsIn tree code start stop) {j : Nat} (hj : j ≤ tree.length) :
    ∃ before, (∀ i ∈ before.head?, i.isSeparator = true) ∧
      (code.take (start + j)).reverse = (tree.take j).reverse ++ before := by
  obtain ⟨before, behind, rfl, hclosed, rfl⟩ := h.parts
  exact ⟨before.reverse, by rwa [List.head?_reverse], by
    rw [List.take_length_add_append, List.take_append_of_le_length hj, List.reverse_append]⟩

/-- The site of a node of the tree starts where its span does, unless it starts before the tree. -/
lemma left_of (h : StandsIn tree code start stop) {j : Nat} {node : Instruction Float}
    (hnode : tree[j]? = some node)
    (hleft : start ≤ (Site.of code start stop (start + j) node).left) :
    (Site.of code start stop (start + j) node).left = start + Code.leftOf tree j := by
  obtain ⟨hlt, -⟩ := List.getElem?_eq_some_iff.mp hnode
  have hinside : (tree.take j).reverse.length = j := by
    rw [List.length_reverse, List.length_take_of_le (Nat.le_of_lt hlt)]
  have hroom : start + j ≤ code.length :=
    Nat.le_of_lt (List.getElem?_eq_some_iff.mp ((h.getElem?_eq hlt).trans hnode)).1
  -- at the start of the buffer no walk is longer than the code before the node
  have hle : Code.reachOf node (code.take (start + j)).reverse ≤ j := by
    have hbound := Code.reachOf_le node (code.take (start + j)).reverse
    rw [List.length_reverse, List.length_take_of_le hroom] at hbound
    simp only [Site.of] at hleft
    omega
  obtain ⟨before, hbefore, htake⟩ := h.exists_reverse_take (Nat.le_of_lt hlt)
  rw [htake] at hle
  have hreach : Code.reachOf node ((tree.take j).reverse ++ before)
      = Code.reachOf node (tree.take j).reverse :=
    Code.reachOf_append hbefore (by rwa [hinside])
  rw [hreach] at hle
  simp only [Site.of, Code.leftOf, hnode]
  rw [htake, hreach, Nat.add_sub_assoc hle]

/-- A subtree starts in its tree if the tree stands at the start of the buffer, and wherever its
nodes find their operands. -/
lemma le_left (h : StandsIn tree code start stop) (hseparators : ∀ i ∈ tree, i.isSeparator = false)
    (hfinds : start = 0 ∨ tree.residualDepth ≠ none) {j : Nat} {node : Instruction Float}
    (hnode : tree[j]? = some node) (hl : node.isLive = true) :
    start ≤ (Site.of code start stop (start + j) node).left := by
  obtain ⟨hlt, -⟩ := List.getElem?_eq_some_iff.mp hnode
  rcases hfinds with rfl | hdepth
  · exact Nat.zero_le _
  · obtain ⟨n, hn⟩ := Option.ne_none_iff_exists'.mp hdepth
    obtain ⟨d, e, hd, he, -⟩ := Code.exists_depth_at hn hnode
    obtain ⟨before, hbefore, htake⟩ := h.exists_reverse_take (Nat.le_of_lt hlt)
    have hinside : ∀ i ∈ (tree.take j).reverse, i.isSeparator = false := fun i hi =>
      hseparators i (List.mem_of_mem_take (List.mem_reverse.mp hi))
    have hreach := Code.reachOf_append_le hl hinside hbefore (by rwa [List.reverse_reverse]) he
    rw [List.length_reverse, List.length_take_of_le (Nat.le_of_lt hlt)] at hreach
    show start ≤ start + j - Code.reachOf node (code.take (start + j)).reverse
    rw [htake]
    omega

end StandsIn

/-! ### One pair of trees -/

/-- Whether a lone terminal would take the place of a whole tree. -/
def DegenerateAt (tree1 tree2 : Code Float) (j1 j2 : Nat) : Prop :=
  tree1.belowAt j1 = 0 ∧ tree2.belowAt j2 + 1 = tree2.liveCount ∨
    tree2.belowAt j2 = 0 ∧ tree1.belowAt j1 + 1 = tree1.liveCount

/-- What becomes of a pair of trees: they are copied, or the subtrees of two live nodes change
places, but not so that a forbidden lone terminal is left. -/
inductive CrossedAt (nontrivial : Bool) (tree1 tree2 : Code Float) : Code Float × Code Float → Prop
  | copy : CrossedAt nontrivial tree1 tree2 (live tree1, live tree2)
  | exchange {j1 j2 : Nat} {node1 node2 : Instruction Float} (hnode1 : tree1[j1]? = some node1)
    (hnode2 : tree2[j2]? = some node2) (hl1 : node1.isLive = true) (hl2 : node2.isLive = true)
    (hspared : nontrivial = true → ¬DegenerateAt tree1 tree2 j1 j2) :
    CrossedAt nontrivial tree1 tree2
      (live (tree1.replaceAt j1 (tree2.spanAt j2)), live (tree2.replaceAt j2 (tree1.spanAt j1)))

/-- A pair of trees, each with its separator. -/
def terminated (trees : Code Float × Code Float) : Code Float × Code Float :=
  (trees.1 ++ [Instruction.separator], trees.2 ++ [Instruction.separator])

lemma live_append (a b : Code Float) : live (a ++ b) = live a ++ live b := List.filter_append ..

/-- A graft has the span of the other site between its own front and back. -/
lemma Site.graft_eq (a b : Site) : a.graft b = treeCopy (a.front ++ b.subtree ++ a.back) := by
  simp only [Site.graft, treeCopy, live_append, List.append_assoc]

/-- The tree of the site of a node. -/
lemma StandsIn.tree_of {tree code : Code Float} {start stop : Nat}
    (h : StandsIn tree code start stop) (root : Nat) (node : Instruction Float) :
    (Site.of code start stop root node).tree = tree := h.slice_whole

/-- The parts of the site of a node are those into which the node cuts its tree. -/
lemma StandsIn.site {tree code : Code Float} {start stop : Nat} (h : StandsIn tree code start stop)
    {j : Nat} {node : Instruction Float} (hnode : tree[j]? = some node)
    (hinside : start ≤ (Site.of code start stop (start + j) node).left) :
    (Site.of code start stop (start + j) node).front = tree.take (Code.leftOf tree j) ∧
      (Site.of code start stop (start + j) node).subtree = tree.spanAt j ∧
      (Site.of code start stop (start + j) node).back = tree.drop (j + 1) ∧
      (Site.of code start stop (start + j) node).below = tree.belowAt j := by
  obtain ⟨hlt, -⟩ := List.getElem?_eq_some_iff.mp hnode
  have hle := Code.leftOf_le tree j
  have hleft := h.left_of hnode hinside
  refine ⟨?_, ?_, ?_, ?_⟩
  · rw [Site.front, hleft]
    calc code.slice (start + 0, start + Code.leftOf tree j) = tree.slice (0, Code.leftOf tree j) :=
          h.slice_eq (by omega)
      _ = tree.take (Code.leftOf tree j) := by rw [Code.slice, List.drop_zero]
  · rw [Site.subtree, hleft]
    exact h.slice_eq hlt
  · rw [Site.back]
    calc code.slice (start + (j + 1), stop) = tree.slice (j + 1, tree.length) :=
          h.stop_eq ▸ h.slice_eq (Nat.le_refl _)
      _ = tree.drop (j + 1) := by rw [Code.slice, List.take_length]
  · rw [Site.below, hleft]
    exact congrArg Code.liveCount (h.slice_eq (Nat.le_of_lt hlt))

/-- At two sites trees are copied or exchange their spans.  A span that starts before its tree is not
cut out. -/
lemma returnsIf_exchanged (nontrivial : Bool) {c : Prop} {a b : Site} {tree1 tree2 : Code Float}
    (h1 : a.tree = tree1) (h2 : b.tree = tree2) (hinside : c → a.start ≤ a.left ∧ b.start ≤ b.left)
    (hexchange : a.start ≤ a.left → b.start ≤ b.left →
      (nontrivial = true → a.degenerate b = false) → CrossedAt nontrivial tree1 tree2
        (live (a.front ++ b.subtree ++ a.back), live (b.front ++ a.subtree ++ b.back))) :
    ReturnsIf c (Act.lift (exchanged nontrivial a b) : Draw (Code Float × Code Float)) fun r =>
      ∃ trees, CrossedAt nontrivial tree1 tree2 trees ∧ r = terminated trees := by
  rw [exchanged, h1, h2, Site.graft_eq, Site.graft_eq]
  by_cases hdegenerate : nontrivial = true ∧ a.degenerate b = true
  · rw [if_pos hdegenerate]
    exact (Returns.pure ⟨_, .copy, rfl⟩).returnsIf c
  · rw [if_neg hdegenerate]
    by_cases hcut : a.left < a.start ∨ b.left < b.start
    · rw [if_pos hcut]
      exact .outOfBounds fun hc => by
        have := hinside hc
        omega
    · rw [if_neg hcut]
      exact .pure ⟨_, hexchange (by omega) (by omega)
        fun hs => eq_false_of_ne_true fun h => hdegenerate ⟨hs, h⟩, rfl⟩

/-- **Crossing copies a pair of trees or exchanges two of their subtrees.  It goes out of bounds at
most where a tree owes operands and stands behind another one.** -/
theorem returnsIf_crossTree (nontrivial : Bool) (p : Float) {c : Prop} {a b tree1 tree2 : Code Float}
    {start1 stop1 start2 stop2 : Nat} (h1 : StandsIn tree1 a start1 stop1)
    (h2 : StandsIn tree2 b start2 stop2) (hseparators1 : ∀ i ∈ tree1, i.isSeparator = false)
    (hseparators2 : ∀ i ∈ tree2, i.isSeparator = false)
    (hfinds1 : c → start1 = 0 ∨ tree1.residualDepth ≠ none)
    (hfinds2 : c → start2 = 0 ∨ tree2.residualDepth ≠ none) :
    ReturnsIf c (crossTree nontrivial p a b start1 stop1 start2 stop2) fun r =>
      ∃ trees, CrossedAt nontrivial tree1 tree2 trees ∧ r = terminated trees := by
  rw [crossTree, h1.slice_whole, h2.slice_whole]
  have hcopy : ReturnsIf c
      (pure (treeCopy tree1, treeCopy tree2) : Draw (Code Float × Code Float))
      fun r => ∃ trees, CrossedAt nontrivial tree1 tree2 trees ∧ r = terminated trees :=
    .pure ⟨_, .copy, rfl⟩
  refine .ite (fun hroom => ?_) fun _ => hcopy
  refine (Draw.returns_unit.returnsIf c).bind fun x _ => .ite (fun _ => ?_) fun _ => hcopy
  -- both roots are positions of their trees, and a pair with a placeholder is copied
  refine ((Draw.returns_between hroom.1).returnsIf c).bind fun root1 hroot1 =>
    ((Draw.returns_between hroom.2).returnsIf c).bind fun root2 hroot2 => ?_
  obtain ⟨j1, rfl⟩ := Nat.exists_eq_add_of_le hroot1.1
  obtain ⟨j2, rfl⟩ := Nat.exists_eq_add_of_le hroot2.1
  have hj1 : j1 < tree1.length := by
    have := h1.stop_eq
    omega
  have hj2 : j2 < tree2.length := by
    have := h2.stop_eq
    omega
  have hnode1 : tree1[j1]? = some tree1[j1] := List.getElem?_eq_getElem hj1
  have hnode2 : tree2[j2]? = some tree2[j2] := List.getElem?_eq_getElem hj2
  rw [h1.getElem?_eq hj1, h2.getElem?_eq hj2, hnode1, hnode2]
  refine .ite (fun _ => hcopy) fun hnoOp => ?_
  -- a tree holds no separators, so that what is no placeholder is live
  have hl1 : tree1[j1].isLive = true := Code.isLive_of_not (by simp_all)
    (hseparators1 _ (List.getElem_mem hj1))
  have hl2 : tree2[j2].isLive = true := Code.isLive_of_not (by simp_all)
    (hseparators2 _ (List.getElem_mem hj2))
  refine returnsIf_exchanged nontrivial (h1.tree_of _ _) (h2.tree_of _ _)
    (fun hc => ⟨h1.le_left hseparators1 (hfinds1 hc) hnode1 hl1,
      h2.le_left hseparators2 (hfinds2 hc) hnode2 hl2⟩) fun hleft1 hleft2 hspared => ?_
  obtain ⟨hfront1, hspan1, hback1, hbelow1⟩ := h1.site hnode1 hleft1
  obtain ⟨hfront2, hspan2, hback2, hbelow2⟩ := h2.site hnode2 hleft2
  rw [hfront1, hspan1, hback1, hfront2, hspan2, hback2]
  refine .exchange hnode1 hnode2 hl1 hl2 fun hs => ?_
  have hdegenerate := of_decide_eq_false (hspared hs)
  rwa [hbelow1, hbelow2, h1.tree_of, h2.tree_of] at hdegenerate

/-! ### All pairs of trees -/

/-- The buffer of some trees, each with its separator. -/
def joined (trees : List (Code Float)) : Code Float :=
  trees.flatMap fun tree => tree ++ [Instruction.separator]

/-- The trees that are joined are the pieces of the buffer. -/
lemma pieces_joined {trees : List (Code Float)}
    (h : ∀ tree ∈ trees, ∀ i ∈ tree, i.isSeparator = false) : (joined trees).pieces = trees := by
  induction trees with
  | nil => exact Code.pieces_nil
  | cons tree trees ih =>
    obtain ⟨htree, htrees⟩ := List.forall_mem_cons.mp h
    rw [joined, List.flatMap_cons, List.append_assoc, List.singleton_append, ← joined,
      Code.pieces_append htree Instruction.isSeparator_separator, ih htrees]

/-- Well-formed trees that are joined are a forest. -/
lemma isForest_joined {trees : List (Code Float)} (h : ∀ tree ∈ trees, tree.isWellFormed = true) :
    IsForest trees.length (joined trees) := by
  induction trees with
  | nil => exact .nil
  | cons tree trees ih =>
    obtain ⟨htree, htrees⟩ := List.forall_mem_cons.mp h
    rw [joined, List.flatMap_cons, List.append_assoc, List.singleton_append, ← joined,
      List.length_cons]
    exact .cons htree Instruction.isSeparator_separator (ih htrees)

lemma mem_joined {trees : List (Code Float)} {i : Instruction Float} (h : i ∈ joined trees) :
    (∃ tree ∈ trees, i ∈ tree) ∨ i = Instruction.separator := by
  obtain ⟨tree, htree, hi⟩ := List.mem_flatMap.mp h
  rcases List.mem_append.mp hi with hi | hi
  · exact .inl ⟨tree, htree, hi⟩
  · exact .inr (List.mem_singleton.mp hi)

/-- The trees of two buffers are crossed pair by pair. -/
def CrossedPieces (nontrivial : Bool) (trees1 trees2 : List (Code Float))
    (r : Code Float × Code Float) : Prop :=
  ∃ pairs, List.Forall₂ (fun trees new => CrossedAt nontrivial trees.1 trees.2 new)
      (trees1.zip trees2) pairs ∧
    r = (joined (pairs.map Prod.fst), joined (pairs.map Prod.snd))

variable {nontrivial : Bool}

lemma CrossedPieces.nil : CrossedPieces nontrivial [] [] ([], []) := ⟨[], .nil, rfl⟩

lemma CrossedPieces.cons {tree1 tree2 : Code Float} {trees1 trees2 : List (Code Float)}
    {new r : Code Float × Code Float} (hnew : CrossedAt nontrivial tree1 tree2 new)
    (hrest : CrossedPieces nontrivial trees1 trees2 r) :
    CrossedPieces nontrivial (tree1 :: trees1) (tree2 :: trees2)
      ((terminated new).1 ++ r.1, (terminated new).2 ++ r.2) := by
  obtain ⟨pairs, hpairs, rfl⟩ := hrest
  exact ⟨new :: pairs, .cons hnew hpairs, rfl⟩

/-- The first tree behind a closed buffer. -/
lemma first_tree {before rest tree : Code Float} {trees : List (Code Float)}
    (hbefore : Code.IsClosed before) (h : rest.pieces = tree :: trees) :
    (before ++ rest).separatorFrom before.length = before.length + tree.length ∧
      StandsIn tree (before ++ rest) before.length (before.length + tree.length) := by
  obtain ⟨hfirst, -⟩ := Code.eq_of_pieces_eq_cons h
  have hparts : rest = tree ++ rest.dropWhile fun i => !i.isSeparator := by
    conv_lhs => rw [← List.takeWhile_append_dropWhile (p := fun i => !i.isSeparator) (l := rest)]
    rw [hfirst]
  exact ⟨by rw [Code.separatorFrom, List.drop_left, hfirst],
    ⟨before, _, by rw [← hparts], hbefore, rfl⟩, rfl⟩

/-- Where there are more trees, a separator closes the buffer behind the first one. -/
lemma next_tree (before : Code Float) {rest tree : Code Float} {trees : List (Code Float)}
    (h : rest.pieces = tree :: trees) (htrees : trees ≠ []) : ∃ before' rest',
      before ++ rest = before' ++ rest' ∧ Code.IsClosed before' ∧
        before.length + tree.length + 1 = before'.length ∧ rest'.pieces = trees := by
  obtain ⟨-, ⟨-, hnil⟩ | ⟨sep, rest', rfl, hsep, hpieces⟩⟩ := Code.eq_of_pieces_eq_cons h
  · exact absurd hnil htrees
  · refine ⟨before ++ (tree ++ [sep]), rest', by simp, ?_, by simp [Nat.add_assoc], hpieces⟩
    rw [Code.isClosed_append (by simp), Code.isClosed_append (by simp)]
    simpa [Code.IsClosed] using hsep

lemma returnsIf_crossTrees_from (nontrivial : Bool) (p : Float) {c : Prop} {n : Nat}
    {before1 before2 rest1 rest2 : Code Float} (hbefore1 : Code.IsClosed before1)
    (hbefore2 : Code.IsClosed before2) (hlength1 : rest1.pieces.length = n)
    (hlength2 : rest2.pieces.length = n)
    (h : c → Code.FindsOperands (before1 ++ rest1) ∧ Code.FindsOperands (before2 ++ rest2)) :
    ReturnsIf c (crossTrees nontrivial p (before1 ++ rest1) (before2 ++ rest2) n before1.length
      before2.length) (CrossedPieces nontrivial rest1.pieces rest2.pieces) := by
  induction n generalizing before1 before2 rest1 rest2 with
  | zero =>
    rw [List.length_eq_zero_iff.mp hlength1, List.length_eq_zero_iff.mp hlength2]
    exact .pure .nil
  | succ n ih =>
    obtain ⟨tree1, trees1, hpieces1⟩ := List.exists_cons_of_length_eq_add_one hlength1
    obtain ⟨tree2, trees2, hpieces2⟩ := List.exists_cons_of_length_eq_add_one hlength2
    obtain ⟨hstop1, hstands1⟩ := first_tree hbefore1 hpieces1
    obtain ⟨hstop2, hstands2⟩ := first_tree hbefore2 hpieces2
    have hcross := returnsIf_crossTree nontrivial p hstands1 hstands2
      (Code.isSeparator_of_mem_pieces (hpieces1 ▸ List.mem_cons_self))
      (Code.isSeparator_of_mem_pieces (hpieces2 ▸ List.mem_cons_self))
      (fun hc => ((h hc).1.tree hbefore1 hpieces1).imp_left List.length_eq_zero_iff.mpr)
      fun hc => ((h hc).2.tree hbefore2 hpieces2).imp_left List.length_eq_zero_iff.mpr
    rw [hpieces1] at hlength1 ⊢
    rw [hpieces2] at hlength2 ⊢
    rw [crossTrees, if_neg (by simp), hstop1, hstop2]
    refine hcross.bind ?_
    rintro - ⟨new, hnew, rfl⟩
    refine .bind (R := CrossedPieces nontrivial trees1 trees2) ?_ fun r hr => .pure (.cons hnew hr)
    rw [List.length_cons, Nat.add_left_inj] at hlength1 hlength2
    -- the last tree need not be closed, and there is no next one behind it
    cases n with
    | zero =>
      rw [List.length_eq_zero_iff.mp hlength1, List.length_eq_zero_iff.mp hlength2]
      exact .pure .nil
    | succ n =>
      obtain ⟨before1', rest1', heq1, hclosed1, hnext1, rfl⟩ :=
        next_tree before1 hpieces1 (List.ne_nil_of_length_eq_add_one hlength1)
      obtain ⟨before2', rest2', heq2, hclosed2, hnext2, rfl⟩ :=
        next_tree before2 hpieces2 (List.ne_nil_of_length_eq_add_one hlength2)
      rw [heq1, heq2] at h ⊢
      rw [hnext1, hnext2]
      exact ih hclosed1 hclosed2 hlength1 hlength2 h

/-- **Crossing two buffers of equally many trees crosses them pair by pair.  It goes out of bounds at
most where a tree behind the first one owes operands.** -/
theorem returnsIf_crossTrees_pieces (nontrivial : Bool) (p : Float) {n : Nat} {a b : Code Float}
    (ha : a.pieces.length = n) (hb : b.pieces.length = n) :
    ReturnsIf (a.FindsOperands ∧ b.FindsOperands) (crossTrees nontrivial p a b n 0 0)
      (CrossedPieces nontrivial a.pieces b.pieces) :=
  returnsIf_crossTrees_from nontrivial p Code.isClosed_nil Code.isClosed_nil ha hb id

/-- Crossing two buffers of equally many trees that find their operands succeeds. -/
theorem returns_crossTrees_pieces (nontrivial : Bool) (p : Float) {n : Nat} {a b : Code Float}
    (ha : a.pieces.length = n) (hb : b.pieces.length = n) (h1 : a.FindsOperands)
    (h2 : b.FindsOperands) :
    Returns (crossTrees nontrivial p a b n 0 0) (CrossedPieces nontrivial a.pieces b.pieces) :=
  (returnsIf_crossTrees_pieces nontrivial p ha hb).returns ⟨h1, h2⟩

/-! ### Forests -/

/-- Crossing leaves both forests as they are, or gives them other trees and drops what was cached
for the old ones. -/
lemma crossed_cases {ctx : Context Float} {p : Float} {a b c d : Forest Float} {s t : Session}
    (h : crossed ctx p a b s = (.ok (c, d), t)) : c = a ∧ d = b ∨
      ∃ son daughter source, a.outputs = b.outputs ∧
        crossTrees ctx.settings.nontrivial p a.code b.code a.outputs 0 0 s.source
          = (.ok (son, daughter), source) ∧
        (ctx.settings.nontrivial = true →
          leastOffspring < son.length ∧ leastOffspring < daughter.length) ∧
        c = { a with code := son, fitness? := none } ∧
        d = { b with code := daughter, fitness? := none } := by
  rw [crossed] at h
  split at h
  · obtain ⟨_, _, -, h⟩ := Act.bind_eq_ok.mp h
    cases h
    exact .inl ⟨rfl, rfl⟩
  · rename_i houtputs
    obtain ⟨⟨son, daughter⟩, _, hdraw, h⟩ := Act.bind_eq_ok.mp h
    obtain ⟨source, htrees, -⟩ := Act.within_eq.mp hdraw
    dsimp only at h
    split at h
    · rename_i hlength
      cases h
      refine .inr ⟨son, daughter, source, not_not.mp houtputs, htrees, fun hnontrivial => ?_, rfl,
        rfl⟩
      simpa [hnontrivial] using hlength
    · obtain ⟨_, _, -, h⟩ := Act.bind_eq_ok.mp h
      cases h
      exact .inl ⟨rfl, rfl⟩

/-- What becomes of a pair of trees, by the parts of either one. -/
inductive Crossed (tree1 tree2 : Code Float) : Code Float × Code Float → Prop
  | copy : Crossed tree1 tree2 (treeCopy tree1, treeCopy tree2)
  | exchange {front1 span1 back1 front2 span2 back2 : Code Float}
    (h1 : Code.Cut tree1 front1 span1 back1) (h2 : Code.Cut tree2 front2 span2 back2) :
    Crossed tree1 tree2
      (treeCopy (front1 ++ span2 ++ back1), treeCopy (front2 ++ span1 ++ back2))

lemma CrossedAt.crossed {tree1 tree2 : Code Float} {new : Code Float × Code Float}
    (h : CrossedAt nontrivial tree1 tree2 new) (htree1 : tree1.isWellFormed = true)
    (htree2 : tree2.isWellFormed = true) : Crossed tree1 tree2 (terminated new) := by
  cases h with
  | copy => exact .copy
  | exchange hnode1 hnode2 hl1 hl2 =>
    exact .exchange (Code.cut_at htree1 hnode1 hl1) (Code.cut_at htree2 hnode2 hl2)

/-- What becomes of two buffers of so many trees. -/
inductive CrossedTrees : Nat → Code Float → Code Float → Code Float × Code Float → Prop
  | nil : CrossedTrees 0 [] [] ([], [])
  | cons {n : Nat} {tree1 rest1 tree2 rest2 : Code Float} {sep1 sep2 : Instruction Float}
    {first rest : Code Float × Code Float} (htree1 : tree1.isWellFormed = true)
    (htree2 : tree2.isWellFormed = true) (hsep1 : sep1.isSeparator = true)
    (hsep2 : sep2.isSeparator = true) (hfirst : Crossed tree1 tree2 first)
    (hrest : CrossedTrees n rest1 rest2 rest) :
    CrossedTrees (n + 1) (tree1 ++ sep1 :: rest1) (tree2 ++ sep2 :: rest2)
      (first.1 ++ rest.1, first.2 ++ rest.2)

lemma CrossedPieces.trees {n : Nat} {a b : Code Float} {r : Code Float × Code Float}
    (h : CrossedPieces nontrivial a.pieces b.pieces r) (ha : IsForest n a) (hb : IsForest n b) :
    CrossedTrees n a b r := by
  induction n generalizing a b r with
  | zero =>
    cases ha
    cases hb
    obtain ⟨pairs, hpairs, rfl⟩ := h
    rw [Code.pieces_nil, List.zip_nil_left] at hpairs
    cases hpairs
    exact .nil
  | succ n ih =>
    obtain ⟨tree1, sep1, rest1, rfl, htree1, hsep1, hrest1⟩ := ha.exists_cons
    obtain ⟨tree2, sep2, rest2, rfl, htree2, hsep2, hrest2⟩ := hb.exists_cons
    rw [Code.pieces_append (Code.isWellFormed_iff.mp htree1).1 hsep1,
      Code.pieces_append (Code.isWellFormed_iff.mp htree2).1 hsep2] at h
    obtain ⟨pairs, hpairs, rfl⟩ := h
    rw [List.zip_cons_cons, List.forall₂_cons_left_iff] at hpairs
    obtain ⟨new, pairs, hnew, hpairs, rfl⟩ := hpairs
    exact .cons htree1 htree2 hsep1 hsep2 (hnew.crossed htree1 htree2)
      (ih ⟨pairs, hpairs, rfl⟩ hrest1 hrest2)

/-- **Crossing two forests of equally many trees crosses them pair by pair.** -/
theorem returns_crossTrees (nontrivial : Bool) (p : Float) {n : Nat} {a b : Code Float}
    (ha : IsForest n a) (hb : IsForest n b) :
    Returns (crossTrees nontrivial p a b n 0 0) (CrossedTrees n a b) :=
  (returns_crossTrees_pieces nontrivial p ha.pieces_eq.1 hb.pieces_eq.1 ha.findsOperands
    hb.findsOperands).mono fun _ h => h.trees ha hb

/-! ### What crossing keeps -/

/-- A copy of a well-formed tree is a forest of one tree. -/
lemma isForest_treeCopy {tree : Code Float} (htree : tree.isWellFormed = true) :
    IsForest 1 (treeCopy tree) :=
  .cons ((Code.isWellFormed_compact tree).trans htree) rfl .nil

lemma mem_treeCopy {tree : Code Float} {i : Instruction Float} (hi : i ∈ treeCopy tree) :
    i ∈ tree ∨ i.isSeparator = true := by
  rcases List.mem_append.mp hi with hi | hi
  · exact .inl (List.mem_filter.mp hi).1
  · exact .inr (by rw [List.mem_singleton.mp hi]; rfl)

/-- A span that makes a value on any stack may stand in the place of another one. -/
lemma isWellFormed_exchange {tree1 tree2 front1 span1 back1 front2 span2 back2 : Code Float}
    (htree1 : tree1.isWellFormed = true) (htree2 : tree2.isWellFormed = true)
    (h1 : Code.Cut tree1 front1 span1 back1) (h2 : Code.Cut tree2 front2 span2 back2)
    (ha : ∀ i ∈ tree2, i.isAggregate = false) :
    (front1 ++ span2 ++ back1).isWellFormed = true := by
  obtain ⟨hseparators1, -⟩ := Code.isWellFormed_iff.mp htree1
  obtain ⟨hseparators2, -⟩ := Code.isWellFormed_iff.mp htree2
  -- on the stack that the first tree has in front, either span leaves one value more
  obtain ⟨d, hfront, -, hback⟩ := h1.depth
  refine Code.isWellFormed_iff.mpr ⟨?_, ?_⟩
  · intro i hi
    rw [h1.whole] at hseparators1
    rw [h2.whole] at hseparators2
    simp only [List.mem_append] at hi hseparators1 hseparators2
    rcases hi with (hi | hi) | hi
    · exact hseparators1 i (.inl (.inl hi))
    · exact hseparators2 i (.inl (.inr hi))
    · exact hseparators1 i (.inr hi)
  · rw [Code.residualDepth, Code.depthFrom_append, Code.depthFrom_append, hfront, Option.bind_some,
      h2.pushes ha d, Option.bind_some, hback]

lemma Crossed.isForest {tree1 tree2 : Code Float} {r : Code Float × Code Float}
    (h : Crossed tree1 tree2 r) (htree1 : tree1.isWellFormed = true)
    (htree2 : tree2.isWellFormed = true) (ha1 : ∀ i ∈ tree1, i.isAggregate = false)
    (ha2 : ∀ i ∈ tree2, i.isAggregate = false) : IsForest 1 r.1 ∧ IsForest 1 r.2 := by
  cases h with
  | copy => exact ⟨isForest_treeCopy htree1, isForest_treeCopy htree2⟩
  | exchange h1 h2 =>
    exact ⟨isForest_treeCopy (isWellFormed_exchange htree1 htree2 h1 h2 ha2),
      isForest_treeCopy (isWellFormed_exchange htree2 htree1 h2 h1 ha1)⟩

/-- Crossing brings in nothing but separators. -/
lemma Crossed.mem {tree1 tree2 : Code Float} {r : Code Float × Code Float}
    (h : Crossed tree1 tree2 r) {i : Instruction Float} (hi : i ∈ r.1 ∨ i ∈ r.2) :
    i ∈ tree1 ∨ i ∈ tree2 ∨ i.isSeparator = true := by
  cases h with
  | copy =>
    rcases hi with hi | hi
    · exact (mem_treeCopy hi).imp_right .inr
    · exact .inr (mem_treeCopy hi)
  | exchange h1 h2 =>
    rw [h1.whole, h2.whole]
    rcases hi with hi | hi
    all_goals
      rcases mem_treeCopy hi with hi | hi
      · simp only [List.mem_append] at hi ⊢
        tauto
      · exact .inr (.inr hi)

namespace CrossedTrees

variable {n : Nat} {a b : Code Float} {r : Code Float × Code Float}

lemma mem (h : CrossedTrees n a b r) {i : Instruction Float} (hi : i ∈ r.1 ∨ i ∈ r.2) :
    i ∈ a ∨ i ∈ b ∨ i.isSeparator = true := by
  induction h with
  | nil => simp at hi
  | cons htree1 htree2 hsep1 hsep2 hfirst hrest ih =>
    simp only [List.mem_append, List.mem_cons] at hi ih ⊢
    have hone := hfirst.mem (i := i)
    tauto

/-- **Crossing forests without aggregates gives forests of as many trees.** -/
theorem isForest (h : CrossedTrees n a b r) (ha : ∀ i ∈ a, i.isAggregate = false)
    (hb : ∀ i ∈ b, i.isAggregate = false) : IsForest n r.1 ∧ IsForest n r.2 := by
  induction h with
  | nil => exact ⟨.nil, .nil⟩
  | @cons n _ _ _ _ _ _ _ _ htree1 htree2 _ _ hfirst _ ih =>
    simp only [List.mem_append, List.mem_cons] at ha hb
    obtain ⟨hfirst1, hfirst2⟩ := hfirst.isForest htree1 htree2 (fun i hi => ha i (.inl hi))
      fun i hi => hb i (.inl hi)
    obtain ⟨hrest1, hrest2⟩ := ih (fun i hi => ha i (.inr (.inr hi)))
      fun i hi => hb i (.inr (.inr hi))
    rw [Nat.add_comm n 1]
    exact ⟨hfirst1.append hrest1, hfirst2.append hrest2⟩

end CrossedTrees

/-- What is in offspring was in a parent, but for separators. -/
lemma mem_of_crossed {ctx : Context Float} {p : Float} {a b c d : Forest Float} {s t : Session}
    (ha : IsForest a.outputs a.code) (hb : IsForest b.outputs b.code)
    (h : crossed ctx p a b s = (.ok (c, d), t)) {i : Instruction Float}
    (hi : i ∈ c.code ∨ i ∈ d.code) : i ∈ a.code ∨ i ∈ b.code ∨ i.isSeparator = true := by
  rcases crossed_cases h with ⟨rfl, rfl⟩ | ⟨son, daughter, _, houtputs, hdraw, -, rfl, rfl⟩
  · exact hi.imp_right .inl
  · have htrees : CrossedTrees a.outputs a.code b.code (son, daughter) :=
      (returns_crossTrees _ p ha (houtputs ▸ hb)).ok hdraw
    exact htrees.mem hi

end Forest

end FuzzyForest
