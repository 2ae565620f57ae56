/-
Tree boundaries of forests that were read.

A text need not stand for well-formed trees.  Operators keep to the boundaries of its trees as long
as every tree behind the first one finds its operands; the first one may owe some, for there is
nothing in front of it.  Where another tree owes an operand, the subtree of the node that asks for
it reaches over a separator.  A mutation can cut that out; crossing goes out of bounds instead.
-/
import FuzzyForest.Proofs.ChosenDraws
import FuzzyForest.Proofs.GroundedTrees
import FuzzyForest.Proofs.ReadBack

namespace FuzzyForest

open Act (Returns ReturnsIf)
open Code (IsClosed)

/-! ### Trees that owe operands -/

namespace Code

variable {α : Type}

/-- A tree behind the first one has a separator in front of it. -/
lemma exists_before_of_mem_tail {code tree : Code α} (h : tree ∈ (pieces code).tail) :
    ∃ before sep behind, code = before ++ sep :: (tree ++ behind) ∧ sep.isSeparator = true := by
  induction hpieces : pieces code generalizing code with
  | nil =>
    rw [hpieces] at h
    cases h
  | cons first trees ih =>
    rw [hpieces, List.tail_cons] at h
    obtain ⟨-, ⟨-, rfl⟩ | ⟨sep, rest, rfl, hsep, hrest⟩⟩ := eq_of_pieces_eq_cons hpieces
    · cases h
    · cases trees with
      | nil => cases h
      | cons next later =>
        rcases List.mem_cons.mp h with rfl | h
        · obtain ⟨-, ⟨rfl, -⟩ | ⟨sep', rest', rfl, -, -⟩⟩ := eq_of_pieces_eq_cons hrest
          · exact ⟨first, sep, [], by simp, hsep⟩
          · exact ⟨first, sep, sep' :: rest', rfl, hsep⟩
        · have hlater : tree ∈ (pieces rest).tail := by rwa [hrest, List.tail_cons]
          obtain ⟨before, sep', behind, rfl, hsep'⟩ := ih hlater hrest
          exact ⟨first ++ sep :: before, sep', behind, by simp, hsep'⟩

/-- A walk over more operands than there are on the stack passes the separator in front of the
tree. -/
lemma mem_reach_of_lt {inside : Code α} (before : Code α) {sep : Instruction α}
    (hseparators : ∀ i ∈ inside, i.isSeparator = false)
    (ha : ∀ i ∈ inside ++ [sep], i.isAggregate = false) (hsep : sep.isSeparator = true) {d k : Nat}
    (hd : depthFrom 0 inside.reverse = some d) (hk : d < k) :
    sep ∈ (inside ++ sep :: before).take (reach k (inside ++ sep :: before)) := by
  induction inside generalizing d k with
  | nil =>
    obtain ⟨k, rfl⟩ := Nat.exists_eq_add_one.mpr (Nat.lt_of_le_of_lt (Nat.zero_le d) hk)
    rw [List.nil_append, reach_cons (isNoOp_of_isSeparator hsep) (ha sep (by simp)),
      List.take_succ_cons]
    exact List.mem_cons_self
  | cons i inside ih =>
    obtain ⟨hs, hrest⟩ := List.forall_mem_cons.mp hseparators
    obtain ⟨hi, hrestAgg⟩ := List.forall_mem_cons.mp ha
    obtain ⟨k, rfl⟩ := Nat.exists_eq_add_one.mpr (Nat.lt_of_le_of_lt (Nat.zero_le d) hk)
    rw [List.reverse_cons, depthFrom_concat] at hd
    obtain ⟨c, hc, hd⟩ := Option.bind_eq_some_iff.mp hd
    rw [List.cons_append]
    by_cases hn : i.isNoOp = true
    · rw [depthAfter_of_isNoOp hn] at hd
      cases hd
      rw [reach_cons_noOp hn, List.take_succ_cons]
      exact List.mem_cons_of_mem i (ih hrest hrestAgg hc hk)
    · have hn : i.isNoOp = false := eq_false_of_ne_true hn
      obtain ⟨below, rfl, rfl⟩ := (depthAfter_eq_some_iff (isLive_of_not hn hs) hi).mp hd
      rw [reach_cons hn hi, List.take_succ_cons]
      exact List.mem_cons_of_mem i (ih hrest hrestAgg hc (by omega))

/-- A tree in which every node comes to its operands finds all of them. -/
lemma exists_depthFrom_of_arity {tree : Code α} (ha : ∀ i ∈ tree, i.isAggregate = false)
    (h : ∀ front i back d, tree = front ++ i :: back → i.isLive = true →
      depthFrom 0 front = some d → i.arity ≤ d) : ∃ d, depthFrom 0 tree = some d := by
  induction tree using List.reverseRecOn with
  | nil => exact ⟨0, rfl⟩
  | append_singleton front i ih =>
    obtain ⟨d, hd⟩ := ih (fun j hj => ha j (by simp [hj])) fun front' j back e hfront =>
      h front' j (back ++ [i]) e (by simp [hfront])
    rw [depthFrom_concat, hd, Option.bind_some]
    by_cases hl : i.isLive = true
    · rw [depthAfter_of_isLive hl (ha i (by simp)), if_pos (h front i [] d rfl hl hd)]
      exact ⟨_, rfl⟩
    · exact ⟨d, depthAfter_of_not_isLive (eq_false_of_ne_true hl) d⟩

/-- **If no subtree reaches over a separator, every tree behind the first one finds its operands.** -/
theorem findsOperands_of_spans {code : Code α} (ha : ∀ i ∈ code, i.isAggregate = false)
    (hspans : ∀ (before rest : Code α) (i : Instruction α), code = before.reverse ++ i :: rest →
      i.isLive = true → ∀ j ∈ before.take (reachOf i before), j.isSeparator = false) :
    FindsOperands code := by
  intro tree htree
  have hseparators := isSeparator_of_mem_pieces (List.mem_of_mem_tail htree)
  obtain ⟨before, sep, behind, rfl, hsep⟩ := exists_before_of_mem_tail htree
  suffices hdepth : ∃ d, depthFrom 0 tree = some d by
    obtain ⟨d, hd⟩ := hdepth
    rw [residualDepth, hd]
    exact Option.some_ne_none d
  refine exists_depthFrom_of_arity (fun i hi => ha i (by simp [hi])) ?_
  rintro front i back d rfl hl hd
  by_contra harity
  have hagg : ∀ j ∈ front.reverse ++ [sep], j.isAggregate = false := by
    intro j hj
    refine ha j ?_
    simp only [List.mem_append, List.mem_cons, List.mem_reverse, List.not_mem_nil, or_false]
      at hj ⊢
    tauto
  have hinside : ∀ j ∈ front.reverse, j.isSeparator = false := fun j hj =>
    hseparators j (List.mem_append_left _ (List.mem_reverse.mp hj))
  -- the walk from the node would pass the separator in front of its tree
  have hmem := mem_reach_of_lt before.reverse hinside hagg hsep (by rwa [List.reverse_reverse])
    (Nat.lt_of_not_le harity)
  have hreach := hspans (front.reverse ++ sep :: before.reverse) (back ++ behind) i (by simp) hl
  rw [reachOf, if_neg (by simp [ha i (by simp)])] at hreach
  rw [hreach sep hmem] at hsep
  cases hsep

end Code

namespace Forest

variable {ctx : Context Float} {f a b : Forest Float}

/-! ### Operators that keep to the trees -/

/-- A forest with as many outputs as another one, and with a separator and a tree for each. -/
structure KeepsTrees (f g : Forest Float) : Prop where
  outputs : g.outputs = f.outputs
  separators : g.code.separators = f.outputs
  trees : g.trees.length = f.outputs

/-- Whatever the probability is and the source holds, mutation keeps the trees, and no turn cuts out
a separator. -/
structure MutatesInTrees (ctx : Context Float) (f : Forest Float) : Prop where
  keepsTrees : ∀ {p source g source'}, mutated ctx p f source = (.ok g, source') → KeepsTrees f g
  turns : ∀ {p source g source'}, mutated ctx p f source = (.ok g, source') → ∃ turns,
    Passes ctx.settings ctx.shape p ([], f.code) source turns g.code source' ∧
      ∀ t ∈ turns, t.cut.separators = 0

/-- Whatever the probability is and the source holds, crossing that ends well keeps the trees of both
forests, and gives these back as they are or crosses their trees pair by pair.  It goes out of bounds
at most where a tree behind the first one owes operands. -/
structure CrossInTrees (ctx : Context Float) (a b : Forest Float) : Prop where
  error : ∀ {p s e t}, crossed ctx p a b s = (.error e, t) →
    e = .stalled ∨ ¬(a.code.FindsOperands ∧ b.code.FindsOperands) ∧ e = .outOfBounds
  keepsTrees : ∀ {p s son daughter t}, crossed ctx p a b s = (.ok (son, daughter), t) →
    KeepsTrees a son ∧ KeepsTrees b daughter
  trees : ∀ {p s son daughter t}, crossed ctx p a b s = (.ok (son, daughter), t) →
    (son, daughter) = (a, b) ∨ CrossedPieces ctx.settings.nontrivial a.code.pieces b.code.pieces
      (son.code, daughter.code)

/-- A forest without aggregates, with a last tree that is closed and an output for each tree. -/
structure IsCounted (f : Forest Float) : Prop where
  isClosed : IsClosed f.code
  outputs : f.code.separators = f.outputs
  notAggregate : ∀ i ∈ f.code, i.isAggregate = false

/-- Every text is read as such a forest. -/
lemma isCounted_parse (records : ℕ) (text : String) : (parse records text).IsCounted :=
  ⟨isClosed_closed _, rfl, fun i hi => (isPrintable_parse records text i hi).1.notAggregate⟩

lemma IsCounted.length_pieces (h : f.IsCounted) : f.code.pieces.length = f.outputs := by
  rw [h.isClosed.length_pieces, h.outputs]

lemma IsCounted.keepsTrees (h : f.IsCounted) {code : Code Float} {fitness? : Option Float}
    (hclosed : IsClosed code) (hcount : code.separators = f.code.separators) :
    KeepsTrees f { f with code, fitness? } := by
  refine ⟨rfl, hcount.trans h.outputs, ?_⟩
  rw [length_trees, hclosed.length_pieces, hcount, h.outputs]

/-! ### Mutation -/

lemma IsCounted.mutatesInTrees (hf : f.IsCounted) (h : f.code.FindsOperands) :
    f.MutatesInTrees ctx := by
  obtain ⟨depth, hgrounded⟩ := h.exists_grounded hf.notAggregate
  have hrun : ∀ {p source g source'}, mutated ctx p f source = (.ok g, source') →
      g = { f with code := g.code, fitness? := none } ∧ ∃ turns,
        Passes ctx.settings ctx.shape p ([], f.code) source turns g.code source' := by
    intro p source g source' hmutated
    obtain ⟨code, middle, hpass, hg⟩ := Act.bind_eq_ok.mp hmutated
    cases hg
    exact ⟨rfl, exists_passes hpass⟩
  constructor
  · intro p source g source' hmutated
    obtain ⟨hg, turns, hturns⟩ := hrun hmutated
    rw [hg]
    exact hf.keepsTrees (isClosed_mutated hf.isClosed hmutated) (hturns.grounded hgrounded).1
  · intro p source g source' hmutated
    obtain ⟨-, turns, hturns⟩ := hrun hmutated
    exact ⟨turns, hturns, (hturns.grounded hgrounded).2⟩

/-- Where mutation keeps the trees, no subtree reaches over a separator. -/
lemma IsCounted.findsOperands (hf : f.IsCounted) (h : f.MutatesInTrees ctx) :
    f.code.FindsOperands := by
  refine Code.findsOperands_of_spans hf.notAggregate fun before rest i hcode hi => ?_
  obtain ⟨tree, htree, hgiven⟩ :=
    exists_canGive_grafted ctx.settings ctx.shape before rest hi
  have hmutated : Draw.CanGive (mutated ctx evenOdds f) { f with
      code := Place.code (tree.reverse ++ before.drop (Code.reachOf i before), rest)
      fitness? := none } := by
    rw [Place.code, ← hcode] at hgiven
    exact hgiven.bind (.pure _)
  obtain ⟨source, source', hrun⟩ := hmutated.exists_source
  -- the new tree holds no separator, so that the subtree has held none
  have hcount := (h.keepsTrees hrun).separators
  have htreeSep := (Code.isWellFormed_iff.mp htree.isWellFormed).1
  have hold := hf.outputs
  have hsplit : f.code = (before.drop (Code.reachOf i before)).reverse
      ++ ((before.take (Code.reachOf i before)).reverse ++ [i]) ++ rest := by
    rw [hcode, ← Place.code_split]
    rfl
  rw [hsplit] at hold
  simp only [Place.code, List.reverse_append, List.reverse_reverse, Code.separators_append,
    Code.separators_eq_zero htreeSep] at hcount hold
  have hnone : Code.separators (before.take (Code.reachOf i before)).reverse = 0 := by omega
  intro j hj
  simpa using List.countP_eq_zero.mp hnone j (List.mem_reverse.mpr hj)

/-! ### Crossing -/

/-- Crossing two forests of equally many trees leaves them as they are, or gives them the trees that
are crossed pair by pair. -/
lemma returnsIf_crossed (ctx : Context Float) (p : Float) (houtputs : a.outputs = b.outputs)
    (hlength1 : a.code.pieces.length = a.outputs) (hlength2 : b.code.pieces.length = b.outputs) :
    ReturnsIf (a.code.FindsOperands ∧ b.code.FindsOperands) (crossed ctx p a b) fun new =>
      new = (a, b) ∨ ∃ r, CrossedPieces ctx.settings.nontrivial a.code.pieces b.code.pieces r ∧
        new = ({ a with code := r.1, fitness? := none }, { b with code := r.2, fitness? := none }) := by
  have hpieces := returnsIf_crossTrees_pieces ctx.settings.nontrivial p hlength1
    (hlength2.trans houtputs.symm)
  rw [crossed, if_neg (not_ne_iff.mpr houtputs)]
  refine hpieces.within.bind fun r hr => ?_
  obtain ⟨son, daughter⟩ := r
  dsimp only
  split
  · exact .pure (.inr ⟨_, hr, rfl⟩)
  · exact .bind (R := fun _ => True) (.modify trivial) fun _ _ => .pure (.inl rfl)

lemma IsCounted.crossInTrees (ha : a.IsCounted) (hb : b.IsCounted)
    (houtputs : a.outputs = b.outputs) : CrossInTrees ctx a b := by
  have hcrossing := fun p => returnsIf_crossed ctx p houtputs ha.length_pieces hb.length_pieces
  have hgiven : ∀ {p s son daughter t}, crossed ctx p a b s = (.ok (son, daughter), t) →
      (son, daughter) = (a, b) ∨ CrossedPieces ctx.settings.nontrivial a.code.pieces b.code.pieces
          (son.code, daughter.code) ∧ son = { a with code := son.code, fitness? := none } ∧
        daughter = { b with code := daughter.code, fitness? := none } := by
    intro p s son daughter t hcrossed
    obtain hsame | ⟨r, hr, hnew⟩ := (hcrossing p).ok hcrossed
    · exact .inl hsame
    · cases hnew
      exact .inr ⟨hr, rfl, rfl⟩
  refine ⟨fun {p s e t} hcrossed => (hcrossing p).error hcrossed,
    fun {p s son daughter t} hcrossed => ?_,
    fun {p s son daughter t} hcrossed => (hgiven hcrossed).imp_right And.left⟩
  obtain ⟨hclosed1, hclosed2⟩ := isClosed_crossed ha.isClosed hb.isClosed hcrossed
  obtain hsame | ⟨hpieces, hson, hdaughter⟩ := hgiven hcrossed
  · cases hsame
    exact ⟨ha.keepsTrees ha.isClosed rfl, hb.keepsTrees hb.isClosed rfl⟩
  · -- there are as many new trees as there are pairs, and each has its separator
    obtain ⟨pairs, -, htrees1, htrees2, hpairs⟩ := hpieces.exists_pieces
      (fun _ => Code.isSeparator_of_mem_pieces) fun _ => Code.isSeparator_of_mem_pieces
    have hlength : pairs.length = a.outputs := by
      rw [← hpairs.length_eq, List.length_zip, ha.length_pieces, hb.length_pieces, houtputs,
        Nat.min_self]
    rw [hson, hdaughter]
    refine ⟨ha.keepsTrees hclosed1 ?_, hb.keepsTrees hclosed2 ?_⟩
    · rw [← hclosed1.length_pieces, htrees1, List.length_map, hlength, ha.outputs]
    · rw [← hclosed2.length_pieces, htrees2, List.length_map, hlength, houtputs, hb.outputs]

/-! ### Texts -/

/-- **Mutation of whatever was read from a text ends, and it keeps to the trees exactly if every tree
behind the first one finds its operands.  Crossing two texts of as many trees keeps to the trees
unless it fails, which it does not where the trees find their operands.** -/
theorem parsed_keep_trees (ctx : Context Float) (records : ℕ) :
    (∀ text,
      let f := parse records text
      (∀ p, Returns (mutated ctx p f) fun _ => True) ∧
        (f.MutatesInTrees ctx ↔ f.code.FindsOperands)) ∧
    ∀ text1 text2,
      let a := parse records text1
      let b := parse records text2
      a.outputs = b.outputs → CrossInTrees ctx a b := by
  constructor
  · intro text f
    have hf : f.IsCounted := isCounted_parse records text
    refine ⟨fun p => ?_, hf.findsOperands, hf.mutatesInTrees⟩
    exact (returns_mutatePass p [] f.code).bind fun _ _ => .pure trivial
  · intro text1 text2 a b houtputs
    exact (isCounted_parse records text1).crossInTrees (isCounted_parse records text2) houtputs

/-- The first tree owes both of its operands, and the other text has a word that is no token. -/
theorem parsed_keep_trees_owing :
    let a : Forest Float := parse 3 "and:0.5 ; t0:0.5 t1:0.25 ;"
    let b : Forest Float := parse 3 "t0:0.5 all:0.5 ; t1:0.5 not:0.5"
    (a.treeCodes.map Code.residualDepth = [none, some 2] ∧ a.outputs = b.outputs) ∧
      MutatesInTrees (.fuzzy crossDataset {}) a ∧ CrossInTrees (.fuzzy crossDataset {}) a b := by
  intro a b
  obtain ⟨hmutation, hcrossing⟩ := parsed_keep_trees (.fuzzy crossDataset {}) 3
  have hdepths : a.treeCodes.map Code.residualDepth = [none, some 2] := by decide +kernel
  have houtputs : a.outputs = b.outputs := by decide +kernel
  have ha : a.code.FindsOperands := by
    rw [Code.FindsOperands, ← treeCodes_eq]
    decide +kernel
  obtain ⟨-, hkeeps⟩ := hmutation "and:0.5 ; t0:0.5 t1:0.25 ;"
  have hcross := hcrossing "and:0.5 ; t0:0.5 t1:0.25 ;" "t0:0.5 all:0.5 ; t1:0.5 not:0.5"
  exact ⟨⟨hdepths, houtputs⟩, hkeeps.mpr ha, hcross houtputs⟩

/-- Words by which every pair of trees is crossed at its first instructions. -/
def zeros : Source := ⟨fun _ => 0, 0, 4⟩

/-- **A separator is lost, or crossing fails.**  The conjunction of the second tree owes its operands,
so that its subtree reaches over the separator in front of it. -/
theorem exists_boundary_not_kept :
    let ctx : Context Float := .fuzzy crossDataset {}
    let f : Forest Float := parse 3 "t0:0.5 ; and:0.5 ;"
    (∃ g source, mutated ctx 0.5 f splicing = (.ok g, source) ∧ g.outputs = 2 ∧
      g.code.separators = 1) ∧
    ∃ s, crossed ctx 1.0 f f { source := zeros } = (.error .outOfBounds, s) := by
  intro ctx f
  constructor
  · have hrun : (match (mutated ctx 0.5 f splicing).1 with
        | .ok g => decide (g.outputs = 2 ∧ g.code.separators = 1)
        | .error _ => false) = true := by decide +kernel
    rcases hg : mutated ctx 0.5 f splicing with ⟨e | g, source⟩ <;> rw [hg] at hrun
    · cases hrun
    · exact ⟨g, source, rfl, of_decide_eq_true hrun⟩
  · have hrun : (match (crossed ctx 1.0 f f { source := zeros }).1 with
        | .ok _ => false
        | .error e => decide (e = .outOfBounds)) = true := by decide +kernel
    rcases hr : crossed ctx 1.0 f f { source := zeros } with ⟨e | r, s⟩ <;> rw [hr] at hrun
    · exact ⟨s, by rw [of_decide_eq_true hrun]⟩
    · cases hrun

end Forest

end FuzzyForest
