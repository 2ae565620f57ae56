/-
What settings rule out.

Where lone terminals are forbidden, every tree of a descendant of random forests has two live
instructions at least and ends with an operator; where complements are forbidden, there is none.
One scan over a buffer counts the live instructions of each tree.  A drawn tree has enough of them,
an edit of a mutation pass leaves enough of them, and so does an exchange that is not refused.
-/
import FuzzyForest.Proofs.Exchange
import FuzzyForest.Proofs.Lineage

namespace FuzzyForest

open Act (Returns)
open Code (IsForest)
open Relation (ReflTransGen)

namespace Code

variable {α : Type}

/-! ### Live instructions -/

@[simp]
lemma liveCount_nil : liveCount ([] : Code α) = 0 := rfl

@[simp]
lemma liveCount_append (a b : Code α) : liveCount (a ++ b) = liveCount a + liveCount b :=
  List.countP_append

lemma liveCount_cons (i : Instruction α) (rest : Code α) :
    liveCount (i :: rest) = liveCount [i] + liveCount rest := liveCount_append [i] rest

lemma liveCount_singleton {i : Instruction α} (h : i.isLive = true) : liveCount [i] = 1 := by
  simp [liveCount, isNoOp_of_isLive h]

lemma liveCount_eq_length (code : Code α) : liveCount code = code.compact.length :=
  List.countP_eq_length_filter

@[simp]
lemma liveCount_compact (code : Code α) : liveCount code.compact = liveCount code := by
  simp [liveCount, compact, List.countP_filter]

/-- Inside a tree what is no placeholder is live. -/
lemma liveCount_eq_countP {code : Code α} (h : ∀ i ∈ code, i.isSeparator = false) :
    liveCount code = code.countP Instruction.isLive :=
  List.countP_congr fun i hi => by simp [Instruction.isLive_eq, h i hi]

/-- Where there are two live instructions, the last one takes what the others leave. -/
lemma exists_root {tree : Code α} (htree : tree.isWellFormed = true)
    (ha : ∀ i ∈ tree, i.isAggregate = false) (htwo : 2 ≤ liveCount tree) :
    ∃ root, tree.compact.getLast? = some root ∧ root.opcode.isTerminal = false := by
  have hcompact : tree.compact.isWellFormed = true := (isWellFormed_compact tree).trans htree
  have hlive : ∀ i ∈ tree.compact, i.isLive = true ∧ i.isAggregate = false := fun i hi =>
    ⟨isLive_of_not (by simpa using (List.mem_filter.mp hi).2)
      ((isWellFormed_iff.mp hcompact).1 i hi), ha i (List.mem_filter.mp hi).1⟩
  rw [liveCount_eq_length] at htwo
  have hdepth := (isWellFormed_iff.mp hcompact).2
  rcases List.eq_nil_or_concat' tree.compact with hnil | ⟨front, root, hparts⟩
  · rw [hnil] at htwo
    cases htwo
  rw [hparts] at hdepth hlive htwo ⊢
  refine ⟨root, by simp, ?_⟩
  by_contra hterminal
  have harity : root.arity = 0 := Opcode.arity_of_isTerminal (eq_true_of_ne_false hterminal)
  -- a terminal leaves its value on top of the others, of which there would have to be none
  rw [residualDepth, depthFrom_concat] at hdepth
  obtain ⟨d, hd, hroot⟩ := Option.bind_eq_some_iff.mp hdepth
  obtain ⟨hl, hra⟩ := hlive root (by simp)
  obtain ⟨below, rfl, hbelow⟩ := (depthAfter_eq_some_iff hl hra).mp hroot
  obtain rfl : below = 0 := by omega
  rcases List.eq_nil_or_concat' front with rfl | ⟨front, i, rfl⟩
  · simp at htwo
  rw [harity, depthFrom_concat] at hd
  obtain ⟨c, -, hi⟩ := Option.bind_eq_some_iff.mp hd
  obtain ⟨hil, hia⟩ := hlive i (by simp)
  obtain ⟨_, -, h⟩ := (depthAfter_eq_some_iff hil hia).mp hi
  cases h

/-! ### One scan over all trees -/

/-- The number of live instructions since the last separator, behind an instruction.  A separator
needs two of them. -/
def liveBehind (k : Nat) (i : Instruction α) : Option Nat :=
  if i.isSeparator then if 2 ≤ k then some 0 else none else some (k + liveCount [i])

/-- The same behind a part of a forest. -/
def liveThrough (k : Nat) (code : Code α) : Option Nat := code.foldlM liveBehind k

/-- Whether every tree of a buffer that is closed has two live instructions at least. -/
def IsSubstantial (code : Code α) : Prop := ∃ k, liveThrough 0 code = some k

lemma liveThrough_cons (k : Nat) (i : Instruction α) (rest : Code α) :
    liveThrough k (i :: rest) = (liveBehind k i).bind fun m => liveThrough m rest := rfl

lemma liveThrough_append (k : Nat) (a b : Code α) :
    liveThrough k (a ++ b) = (liveThrough k a).bind fun m => liveThrough m b := List.foldlM_append

lemma liveBehind_of_not_isSeparator {i : Instruction α} (h : i.isSeparator = false) (k : Nat) :
    liveBehind k i = some (k + liveCount [i]) := by
  rw [liveBehind, h, if_neg Bool.false_ne_true]

/-- Inside a tree the scan counts. -/
lemma liveThrough_eq {code : Code α} (h : ∀ i ∈ code, i.isSeparator = false) (k : Nat) :
    liveThrough k code = some (k + liveCount code) := by
  induction code generalizing k with
  | nil => rfl
  | cons i rest ih =>
    obtain ⟨hi, hrest⟩ := List.forall_mem_cons.mp h
    rw [liveThrough_cons, liveBehind_of_not_isSeparator hi, Option.bind_some, ih hrest,
      liveCount_cons i rest, Nat.add_assoc]

/-- What a scan has counted stands behind the last separator. -/
lemma eq_of_liveThrough {front : Code α} {k : Nat} (h : liveThrough 0 front = some k) :
    k = liveCount (front.reverse.takeWhile fun i => !i.isSeparator) := by
  induction front using List.reverseRecOn generalizing k with
  | nil =>
    cases h
    rfl
  | append_singleton front i ih =>
    rw [liveThrough_append] at h
    obtain ⟨m, hm, hk⟩ := Option.bind_eq_some_iff.mp h
    obtain rfl := ih hm
    rw [List.reverse_append, List.reverse_singleton, List.singleton_append, List.takeWhile_cons]
    by_cases hi : i.isSeparator = true
    · rw [liveThrough_cons, liveBehind, if_pos hi] at hk
      split at hk
      · cases hk
        simp [hi]
      · cases hk
    · have hi : i.isSeparator = false := eq_false_of_ne_true hi
      rw [liveThrough_cons, liveBehind_of_not_isSeparator hi] at hk
      cases hk
      rw [hi, Bool.not_false, if_pos rfl]
      exact (Nat.add_comm _ _).trans (liveCount_cons i _).symm

/-- With as many live instructions in front, or else with two of them up to the next separator, a
scan gets through, too. -/
lemma exists_liveThrough {code : Code α} {k m r : Nat} (h : liveThrough k code = some r)
    (hm : k ≤ m ∨ 2 ≤ m + liveCount (code.takeWhile fun i => !i.isSeparator)) :
    ∃ r', liveThrough m code = some r' := by
  induction code generalizing k m with
  | nil => exact ⟨m, rfl⟩
  | cons i rest ih =>
    rw [liveThrough_cons] at h ⊢
    obtain ⟨c, hc, hrest⟩ := Option.bind_eq_some_iff.mp h
    by_cases hi : i.isSeparator = true
    · -- behind the separator both scans go on alike
      rw [liveBehind, if_pos hi, Option.ite_none_right_eq_some, Option.some.injEq] at hc
      obtain ⟨hk, rfl⟩ := hc
      have htwo : 2 ≤ m := by
        rcases hm with hm | hm
        · exact hk.trans hm
        · simpa [hi] using hm
      rw [liveBehind, if_pos hi, if_pos htwo, Option.bind_some]
      exact ⟨r, hrest⟩
    · have hi : i.isSeparator = false := eq_false_of_ne_true hi
      rw [liveBehind_of_not_isSeparator hi] at hc ⊢
      cases hc
      rw [Option.bind_some]
      refine ih hrest (hm.imp (fun hm => Nat.add_le_add_right hm _) fun hm => ?_)
      rw [List.takeWhile_cons, hi] at hm
      simp only [Bool.not_false, if_true] at hm
      rw [liveCount_cons i] at hm
      omega

/-- A part of a tree may be replaced by one with as many live instructions, or if two of them are
left in the tree. -/
lemma IsSubstantial.replace {front old back : Code α} (h : IsSubstantial (front ++ old ++ back))
    (hold : ∀ i ∈ old, i.isSeparator = false) {new : Code α}
    (hnew : ∀ i ∈ new, i.isSeparator = false)
    (hcount : liveCount old ≤ liveCount new ∨
      2 ≤ liveCount (front.reverse.takeWhile fun i => !i.isSeparator) + liveCount new
        + liveCount (back.takeWhile fun i => !i.isSeparator)) :
    IsSubstantial (front ++ new ++ back) := by
  obtain ⟨r, hr⟩ := h
  rw [List.append_assoc, liveThrough_append] at hr
  obtain ⟨k, hk, hr⟩ := Option.bind_eq_some_iff.mp hr
  rw [liveThrough_append, liveThrough_eq hold, Option.bind_some] at hr
  rw [IsSubstantial, List.append_assoc, liveThrough_append, hk, Option.bind_some,
    liveThrough_append, liveThrough_eq hnew, Option.bind_some]
  refine exists_liveThrough hr (hcount.imp (fun hle => Nat.add_le_add_left hle k) fun htwo => ?_)
  rwa [eq_of_liveThrough hk]

/-- The scan of a forest looks at each of its trees. -/
lemma IsForest.isSubstantial_iff {n : Nat} {code : Code α} (h : IsForest n code) :
    IsSubstantial code ↔ ∀ tree ∈ pieces code, 2 ≤ liveCount tree := by
  induction h with
  | nil => exact iff_of_true ⟨0, rfl⟩ (by simp [pieces_nil])
  | @cons n tree rest sep htree hsep hrest ih =>
    have hseparators := (isWellFormed_iff.mp htree).1
    rw [pieces_append hseparators hsep, List.forall_mem_cons, ← ih, IsSubstantial,
      liveThrough_append, liveThrough_eq hseparators, Option.bind_some, liveThrough_cons,
      liveBehind, if_pos hsep, Nat.zero_add]
    by_cases htwo : 2 ≤ liveCount tree
    · simp [htwo, IsSubstantial]
    · simp [htwo]

/-- A forest of substantial trees has three instructions for each of them. -/
lemma IsForest.three_mul_le_length {n : Nat} {code : Code α} (h : IsForest n code)
    (htwo : ∀ tree ∈ pieces code, 2 ≤ liveCount tree) : 3 * n ≤ code.length := by
  induction h with
  | nil => exact Nat.le_refl 0
  | @cons n tree rest sep htree hsep hrest ih =>
    rw [pieces_append (isWellFormed_iff.mp htree).1 hsep, List.forall_mem_cons] at htwo
    have hle : liveCount tree ≤ tree.length := List.countP_le_length
    have hrest := ih htwo.2
    rw [List.length_append, List.length_cons]
    omega

/-! ### What a scan does not see -/

/-- Placeholders are not counted. -/
lemma liveThrough_compact (k : Nat) (code : Code α) :
    liveThrough k code.compact = liveThrough k code := by
  induction code generalizing k with
  | nil => rfl
  | cons i rest ih =>
    by_cases hn : i.isNoOp = true
    · have hbehind : liveBehind k i = some k := by
        rw [liveBehind_of_not_isSeparator (isSpecial_of_isNoOp hn).2]
        simp [liveCount, hn]
      have hparts : compact (i :: rest) = compact rest := by simp [compact, hn]
      rw [hparts, liveThrough_cons, hbehind, Option.bind_some, ih]
    · have hparts : compact (i :: rest) = i :: compact rest := by simp [compact, hn]
      rw [hparts, liveThrough_cons, liveThrough_cons]
      congr 1
      funext m
      exact ih m

/-- The scan looks at the kinds of the instructions only. -/
lemma liveThrough_congr {a b : Code α} (h : b.map Instruction.opcode = a.map Instruction.opcode)
    (k : Nat) : liveThrough k b = liveThrough k a := by
  induction a generalizing b k with
  | nil =>
    rw [List.map_nil, List.map_eq_nil_iff] at h
    rw [h]
  | cons i a ih =>
    rw [List.map_cons, List.map_eq_cons_iff] at h
    obtain ⟨j, b, rfl, hij, hab⟩ := h
    have hbehind : liveBehind k j = liveBehind k i := by
      simp [liveBehind, liveCount, Instruction.isSeparator, Instruction.isNoOp, hij]
    rw [liveThrough_cons, liveThrough_cons, hbehind]
    congr 1
    funext m
    exact ih hab m

end Code

/-! ### Drawn trees -/

/-- All of a drawn tree is live. -/
lemma Draw.DrawnTree.liveCount_eq {s : ModelSettings} {shape : Shape} {tree : Code Float}
    (h : Draw.DrawnTree s shape tree) : tree.liveCount = tree.length :=
  List.countP_eq_length.mpr fun i hi => by simp [Code.isNoOp_of_isLive (h.drawn i hi).isLive]

namespace Forest

/-! ### Mutation -/

section

variable {s : ModelSettings} {shape : Shape} {n : Nat} {y z : Place}

/-- Where there is a live instruction, the count is that of the code on either side and one more. -/
lemma liveAround_eq {before rest : Code Float} {i : Instruction Float} (hi : i.isLive = true) :
    liveAround before (i :: rest) = Code.liveCount (before.takeWhile fun i => !i.isSeparator) + 1
      + Code.liveCount (rest.takeWhile fun i => !i.isSeparator) := by
  have hinside : ∀ code : Code Float, ∀ i ∈ code.takeWhile fun i => !i.isSeparator,
      i.isSeparator = false := fun code i hi => by
    simpa using List.all_eq_true.mp List.all_takeWhile i hi
  have hs := Code.isSeparator_of_isLive hi
  rw [liveAround, Code.liveCount_eq_countP (hinside before),
    Code.liveCount_eq_countP (hinside rest)]
  simp only [List.takeWhile_cons, hs, Bool.not_false, if_true, List.countP_cons, hi]
  omega

/-- Other code in the place of a live instruction. -/
lemma isSubstantial_instead {before rest : Code Float} {i : Instruction Float}
    (h : Code.IsSubstantial (Place.code (before, i :: rest))) (hi : i.isLive = true)
    (new : Code Float) (hnew : ∀ j ∈ new, j.isSeparator = false)
    (hcount : 1 ≤ new.liveCount ∨ leastForDeletion < liveAround before (i :: rest)) :
    Code.IsSubstantial (before.reverse ++ new ++ rest) := by
  have hparts : Code.IsSubstantial (before.reverse ++ [i] ++ rest) := by simpa [Place.code] using h
  refine hparts.replace (by simp [Code.isSeparator_of_isLive hi]) hnew ?_
  rw [Code.liveCount_singleton hi, List.reverse_reverse]
  refine hcount.imp_right fun hspare => ?_
  rw [liveAround_eq hi, leastForDeletion] at hspare
  omega

/-- **An edit leaves two live instructions in every tree**, where lone terminals are forbidden. -/
theorem Edit.isSubstantial (h : Edit s shape y z) (hs : s.nontrivial = true)
    (hforest : IsForest n y.code) (hy : y.code.IsSubstantial) : z.code.IsSubstantial := by
  cases h with
  | keep => simpa [Place.code] using hy
  | @retune before rest i j hi hj =>
    have hlive : j.isLive = true := by rwa [Instruction.isLive, hj.opcode]
    have hnew := isSubstantial_instead hy hi [j] (by simp [Code.isSeparator_of_isLive hlive])
      (.inl (Nat.le_of_eq (Code.liveCount_singleton hlive).symm))
    simpa [Place.code] using hnew
  | @insert before rest i unary hi hallow hunary harity =>
    have hcount : 1 ≤ Code.liveCount [i, unary] := by
      rw [Code.liveCount_cons, Code.liveCount_singleton hi]
      omega
    have hnew := isSubstantial_instead hy hi [i, unary]
      (by simp [Code.isSeparator_of_isLive hi, Code.isSeparator_of_isLive hunary.isLive])
      (.inl hcount)
    simpa [Place.code] using hnew
  | @fill before rest i next unary hi hnext hallow hunary harity =>
    have hparts : Code.IsSubstantial (before.reverse ++ [i, next] ++ rest) := by
      simpa [Place.code] using hy
    have hcount : Code.liveCount [i, next] ≤ Code.liveCount [i, unary] := by
      rw [Code.liveCount_cons i, Code.liveCount_cons i [unary],
        Code.liveCount_singleton hunary.isLive]
      exact Nat.add_le_add_left List.countP_le_length _
    have hnew := hparts.replace
      (by simp [Code.isSeparator_of_isLive hi, (Code.isSpecial_of_isNoOp hnext).2])
      (by simp [Code.isSeparator_of_isLive hi, Code.isSeparator_of_isLive hunary.isLive])
      (.inl hcount)
    simpa [Place.code] using hnew
  | @drop before rest i hi ha harity hspare =>
    have hspare := hspare.resolve_right (by simp [hs])
    have hnew := isSubstantial_instead hy hi [Instruction.noOp]
      (by simp [(Code.isSpecial_of_isNoOp Instruction.isNoOp_noOp).2]) (.inr hspare)
    simpa [Place.code] using hnew
  | @redraw before rest i j hi ha hj harity =>
    have hnew := isSubstantial_instead hy hi [j]
      (by simp [Code.isSeparator_of_isLive hj.isLive])
      (.inl (Nat.le_of_eq (Code.liveCount_singleton hj.isLive).symm))
    simpa [Place.code] using hnew
  | @graft before rest tree i hi htree =>
    -- the tree alone has two live instructions
    rw [Place.code_split before rest i (Code.reachOf i before)] at hy
    have htwo : 2 ≤ tree.liveCount := htree.liveCount_eq ▸ htree.nontrivial hs
    have hnew := hy.replace (Edit.span_at hforest hi).1
      (Code.isWellFormed_iff.mp htree.isWellFormed).1 (.inr (by omega))
    simpa [Place.code] using hnew

/-- The same for a chain of edits. -/
lemma Edit.isSubstantial_chain (h : ReflTransGen (Edit s shape) y z) (hs : s.nontrivial = true)
    (hforest : IsForest n y.code) (hy : y.code.IsSubstantial) : z.code.IsSubstantial := by
  induction h with
  | refl => exact hy
  | tail hchain hedit ih => exact hedit.isSubstantial hs (Edit.isForest_chain hchain hforest) ih

/-- Mutation leaves two live instructions in every tree. -/
lemma returns_mutated_substantial (ctx : Context Float) (hs : ctx.settings.nontrivial = true)
    (p : Float) {f : Forest Float} (hforest : IsForest n f.code) (hf : f.code.IsSubstantial) :
    Returns (mutated ctx p f) fun g => g.code.IsSubstantial := by
  refine (returns_mutatePass p [] f.code).bind fun code hcode => .pure ?_
  have hend := Edit.isSubstantial_chain hcode hs hforest hf
  rwa [Place.code, List.reverse_reverse, List.append_nil] at hend

end

/-! ### Crossing -/

section

variable {nontrivial : Bool} {tree1 tree2 : Code Float}

/-- The span of a live node. -/
lemma liveCount_spanAt {tree : Code Float} {j : Nat} {node : Instruction Float}
    (hnode : tree[j]? = some node) (hl : node.isLive = true) :
    Code.liveCount (tree.spanAt j) = tree.belowAt j + 1 := by
  obtain ⟨hlt, -⟩ := List.getElem?_eq_some_iff.mp hnode
  have hle : Code.leftOf tree j ≤ (tree.take j).length := by
    rw [List.length_take_of_le (Nat.le_of_lt hlt)]
    exact Code.leftOf_le tree j
  rw [Code.spanAt, Code.slice, List.take_add_one, hnode, Option.toList_some,
    List.drop_append_of_le_length hle, Code.liveCount_append, Code.liveCount_singleton hl,
    Code.belowAt, Code.slice]

/-- Outside the span of a live node a tree has as many live instructions, whatever the span. -/
lemma exists_liveCount_replaceAt {tree : Code Float} (htree : tree.isWellFormed = true) {j : Nat}
    {node : Instruction Float} (hnode : tree[j]? = some node) (hl : node.isLive = true) :
    ∃ k, tree.liveCount = k + (tree.belowAt j + 1) ∧
      ∀ span, Code.liveCount (live (tree.replaceAt j span)) = k + Code.liveCount span := by
  have hwhole := congrArg Code.liveCount (Code.cut_at htree hnode hl).whole
  rw [Code.liveCount_append, Code.liveCount_append, liveCount_spanAt hnode hl] at hwhole
  refine ⟨Code.liveCount (tree.take (Code.leftOf tree j)) + Code.liveCount (tree.drop (j + 1)),
    by omega, fun span => ?_⟩
  rw [live, Code.liveCount_compact, Code.replaceAt, Code.liveCount_append, Code.liveCount_append]
  omega

/-- **Crossing leaves two live instructions in every tree**, where lone terminals are forbidden. -/
theorem CrossedAt.two_le_liveCount {new : Code Float × Code Float}
    (h : CrossedAt nontrivial tree1 tree2 new) (hs : nontrivial = true)
    (htree1 : tree1.isWellFormed = true) (htree2 : tree2.isWellFormed = true)
    (h1 : 2 ≤ tree1.liveCount) (h2 : 2 ≤ tree2.liveCount) :
    2 ≤ new.1.liveCount ∧ 2 ≤ new.2.liveCount := by
  cases h with
  | copy =>
    dsimp only [live]
    rw [Code.liveCount_compact, Code.liveCount_compact]
    exact ⟨h1, h2⟩
  | @exchange j1 j2 node1 node2 hnode1 hnode2 hl1 hl2 hspared =>
    obtain ⟨k1, hk1, hson⟩ := exists_liveCount_replaceAt htree1 hnode1 hl1
    obtain ⟨k2, hk2, hdaughter⟩ := exists_liveCount_replaceAt htree2 hnode2 hl2
    have hspared := hspared hs
    rw [DegenerateAt] at hspared
    dsimp only
    rw [hson, hdaughter, liveCount_spanAt hnode1 hl1, liveCount_spanAt hnode2 hl2]
    omega

/-- The trees of forests that are crossed pair by pair. -/
lemma CrossedPieces.isSubstantial {a b : Code Float} {r : Code Float × Code Float} {n : Nat}
    (h : CrossedPieces nontrivial a.pieces b.pieces r) (hs : nontrivial = true)
    (ha : IsForest n a) (hb : IsForest n b) (hr : IsForest n r.1 ∧ IsForest n r.2)
    (hsa : a.IsSubstantial) (hsb : b.IsSubstantial) : r.1.IsSubstantial ∧ r.2.IsSubstantial := by
  rw [ha.isSubstantial_iff] at hsa
  rw [hb.isSubstantial_iff] at hsb
  rw [hr.1.isSubstantial_iff, hr.2.isSubstantial_iff]
  obtain ⟨pairs, -, hson, hdaughter, hcrossed⟩ := h.exists_pairs ha.pieces_eq.2 hb.pieces_eq.2
  have htwo : ∀ old ∈ a.pieces.zip b.pieces, 2 ≤ old.1.liveCount ∧ 2 ≤ old.2.liveCount := by
    rintro ⟨tree1, tree2⟩ hmem
    obtain ⟨h1, h2⟩ := List.of_mem_zip hmem
    exact ⟨hsa _ h1, hsb _ h2⟩
  have hnew : ∀ new ∈ pairs, 2 ≤ new.1.liveCount ∧ 2 ≤ new.2.liveCount :=
    forall_right <| ((List.forall₂_and_left ..).mpr ⟨htwo, hcrossed⟩).imp
      fun old new ⟨⟨htwo1, htwo2⟩, ⟨h1, h2⟩, hnew⟩ => hnew.two_le_liveCount hs h1 h2 htwo1 htwo2
  rw [hson, hdaughter]
  exact ⟨List.forall_mem_map.mpr fun new hmem => (hnew new hmem).1,
    List.forall_mem_map.mpr fun new hmem => (hnew new hmem).2⟩

end

/-! ### Lineages -/

section

variable {ds : Dataset Float} {settings : ModelSettings} {f : Forest Float}

/-- Sound forests with two live instructions in every tree have such offspring. -/
lemma isSubstantial_of_crossed {a b c d : Forest Float} (ha : a.IsSound ds) (hb : b.IsSound ds)
    (hs : settings.nontrivial = true) (hsa : a.code.IsSubstantial) (hsb : b.code.IsSubstantial)
    {p : Float} {s t : Session} (h : crossed (.fuzzy ds settings) p a b s = (.ok (c, d), t)) :
    c.code.IsSubstantial ∧ d.code.IsSubstantial := by
  obtain ⟨hc, hd⟩ := ((ha.crossed hb settings p _).ok rfl h).1
  rcases crossed_cases h with ⟨rfl, rfl⟩ | ⟨son, daughter, _, houtputs, hdraw, -, rfl, rfl⟩
  · exact ⟨hsa, hsb⟩
  · have hpieces : CrossedPieces settings.nontrivial a.code.pieces b.code.pieces (son, daughter) :=
      (returns_crossTrees_pieces _ p (ha.isForest.pieces_eq.1.trans ha.outputs.symm)
        (hb.isForest.pieces_eq.1.trans ha.outputs.symm) ha.isForest.findsOperands
        hb.isForest.findsOperands).ok hdraw
    exact hpieces.isSubstantial hs ha.isForest hb.isForest ⟨hc.isForest, hd.isForest⟩ hsa hsb

/-- No descendant of random forests has a tree of one live instruction. -/
lemma Reachable.isSubstantial (hs : settings.nontrivial = true)
    (h : Reachable (.fuzzy ds settings) f) : f.code.IsSubstantial := by
  induction h with
  | random h =>
    obtain ⟨trees, -, htrees, hcode, hforest, -⟩ := (returns_random_trees _).ok h
    rw [hforest.isSubstantial_iff, hcode, pieces_joined fun tree htree =>
      (Code.isWellFormed_iff.mp (htrees tree htree).isWellFormed).1]
    intro tree htree
    rw [(htrees tree htree).liveCount_eq]
    exact (htrees tree htree).nontrivial hs
  | mutated hf h ih =>
    exact (returns_mutated_substantial _ hs _ hf.isSound.isForest ih).ok h
  | son ha hb h iha ihb => exact (isSubstantial_of_crossed ha.isSound hb.isSound hs iha ihb h).1
  | daughter ha hb h iha ihb =>
    exact (isSubstantial_of_crossed ha.isSound hb.isSound hs iha ihb h).2
  | compact _ ih =>
    obtain ⟨k, hk⟩ := ih
    exact ⟨k, (Code.liveThrough_compact 0 _).trans hk⟩
  | setWeights _ h ih =>
    obtain rfl := eq_of_setWeights h
    obtain ⟨k, hk⟩ := ih
    exact ⟨k, (Code.liveThrough_congr (opcodes_reweighted _ _) 0).trans hk⟩
  | computed _ h ih =>
    rw [(computeFitness_code h).1]
    exact ih

/-- No descendant of random forests has an instruction that is not allowed. -/
lemma Reachable.isAllowed (h : Reachable (.fuzzy ds settings) f) :
    ∀ i ∈ f.code, i.IsAllowed settings := by
  have hseparator : ∀ i : Instruction Float, i.isSeparator = true → i.IsAllowed settings := by
    intro i hi hop
    simp [Instruction.isSeparator, hop] at hi
  have hcrossed : ∀ {a b c d : Forest Float} {p : Float} {s t : Session}, a.IsSound ds →
      b.IsSound ds → (∀ i ∈ a.code, i.IsAllowed settings) → (∀ i ∈ b.code, i.IsAllowed settings) →
      crossed (.fuzzy ds settings) p a b s = (.ok (c, d), t) →
      ∀ i, i ∈ c.code ∨ i ∈ d.code → i.IsAllowed settings := by
    intro a b c d p s t ha hb hia hib h i hi
    rcases mem_of_crossed (ha.outputs ▸ ha.isForest) (hb.outputs ▸ hb.isForest) h hi
      with hi | hi | hi
    · exact hia i hi
    · exact hib i hi
    · exact hseparator i hi
  induction h with
  | random h =>
    obtain ⟨trees, -, htrees, hcode, -⟩ := (returns_random_trees _).ok h
    intro i hi
    rw [hcode] at hi
    rcases mem_joined hi with ⟨tree, htree, hi⟩ | rfl
    · exact (htrees tree htree).allowed i hi
    · exact hseparator _ Instruction.isSeparator_separator
  | mutated hf h ih =>
    obtain ⟨-, -, -, hmem⟩ := (returns_mutated _ _ hf.isSound.isForest).ok h
    exact hmem _ heritable_isAllowed ih
  | son ha hb h iha ihb => exact fun i hi => hcrossed ha.isSound hb.isSound iha ihb h i (.inl hi)
  | daughter ha hb h iha ihb =>
    exact fun i hi => hcrossed ha.isSound hb.isSound iha ihb h i (.inr hi)
  | compact _ ih => exact fun i hi => ih i (List.mem_filter.mp hi).1
  | setWeights _ h ih =>
    obtain rfl := eq_of_setWeights h
    exact Code.forall_congr (opcodes_reweighted _ _)
      (P := fun op => op = .not → settings.allowNot = true) ih
  | computed _ h ih =>
    rw [(computeFitness_code h).1]
    exact ih

/-- **What the settings rule out is nowhere in a lineage.**  Where lone terminals are forbidden,
every tree of a descendant of random forests has two live instructions at least, the last of which
is no terminal, so that no offspring has fewer than three instructions; where complements are
forbidden, there is none. -/
theorem lineage_keeps_restrictions (ds : Dataset Float) (settings : ModelSettings) :
    let ctx := Context.fuzzy ds settings
    (∀ f, Reachable ctx f →
      (settings.nontrivial = true →
        (∀ tree ∈ f.treeCodes, 2 ≤ tree.liveCount ∧
          ∃ root, (live tree).getLast? = some root ∧ root.opcode.isTerminal = false) ∧
        f.treeCodes.length = ds.targets ∧ 3 * ds.targets ≤ f.code.length) ∧
      (settings.allowNot = false → ∀ i ∈ f.code, i.opcode ≠ .not)) ∧
    (settings.nontrivial = true → ∀ a b, Reachable ctx a → Reachable ctx b →
      ∀ p s son daughter t, crossed ctx p a b s = (.ok (son, daughter), t) →
        son = a ∧ daughter = b ∨ 3 ≤ son.code.length ∧ 3 ≤ daughter.code.length) := by
  intro ctx
  refine ⟨fun f hf => ⟨fun hs => ?_, fun hforbidden i hi hop => ?_⟩, ?_⟩
  · have hsound : f.IsSound ds := hf.isSound
    have htwo := hsound.isForest.isSubstantial_iff.mp (hf.isSubstantial hs)
    obtain ⟨hlength, htrees⟩ := hsound.isForest.pieces_eq
    rw [treeCodes_eq]
    refine ⟨fun tree htree => ⟨htwo tree htree, ?_⟩, hlength,
      hsound.isForest.three_mul_le_length htwo⟩
    exact Code.exists_root (htrees tree htree)
      (fun i hi => (hsound.inRange i (Code.mem_of_mem_pieces htree i hi)).notAggregate)
      (htwo tree htree)
  · have hallowed := hf.isAllowed i hi hop
    rw [hforbidden] at hallowed
    cases hallowed
  · intro hs a b _ _ p s son daughter t h
    rcases crossed_cases h with hkept | ⟨_, _, _, -, -, hlength, rfl, rfl⟩
    · exact .inl hkept
    · exact .inr (hlength hs)

/-- A forest for a series, what it is mutated to, and the offspring of both. -/
theorem lineage_keeps_restrictions_series :
    let settings : ModelSettings := { nontrivial := true, allowNot := false, pastOutputLimit := 4 }
    let ctx := Context.fuzzy series settings
    let source : Source := ⟨fun n => ((n * 5 + 2) % 9 * 576460752303423488).toUInt64, 0, 4⟩
    settings.nontrivial = true ∧ settings.allowNot = false ∧
      ∃ f g son daughter source1 source2 t, random ctx source = (.ok f, source1) ∧
        mutated ctx 1.0 f source1 = (.ok g, source2) ∧
        crossed ctx 1.0 f g { source := source2 } = (.ok (son, daughter), t) ∧
        (∀ tree ∈ son.treeCodes, 2 ≤ tree.liveCount) ∧ son.treeCodes.length = 1 ∧
        (∀ i ∈ son.code, i.opcode ≠ .not) ∧
        (son = f ∧ daughter = g ∨ 3 ≤ son.code.length ∧ 3 ≤ daughter.code.length) := by
  intro settings ctx source
  refine ⟨rfl, rfl, ?_⟩
  obtain ⟨hkept, hlength⟩ := lineage_keeps_restrictions series settings
  have hok : (match (do let f ← random ctx; return (f, ← mutated ctx 1.0 f) : Draw _) source with
      | (.ok (f, g), source) => (crossed ctx 1.0 f g { source }).1.isOk
      | (.error _, _) => false) = true := by decide +kernel
  rcases hdraw : (do let f ← random ctx; return (f, ← mutated ctx 1.0 f) : Draw _) source
    with ⟨e | ⟨f, g⟩, source2⟩ <;> rw [hdraw] at hok
  · cases hok
  · obtain ⟨f', source1, hf, hdraw⟩ := Act.bind_eq_ok.mp hdraw
    obtain ⟨g', _, hg, hdraw⟩ := Act.bind_eq_ok.mp hdraw
    cases hdraw
    rcases hcross : crossed ctx 1.0 f g { source := source2 } with ⟨e | ⟨son, daughter⟩, t⟩
    · simp only [hcross] at hok
      cases hok
    · have hreachf : Reachable ctx f := .random hf
      have hreachg : Reachable ctx g := .mutated hreachf hg
      obtain ⟨hnontrivial, hallowed⟩ := hkept son (.son hreachf hreachg hcross)
      obtain ⟨htwo, hcount, -⟩ := hnontrivial rfl
      exact ⟨f, g, son, daughter, source1, source2, t, hf, hg, hcross,
        fun tree htree => (htwo tree htree).1, hcount, hallowed rfl,
        hlength rfl f g hreachf hreachg _ _ _ _ _ hcross⟩

end

end Forest

end FuzzyForest
