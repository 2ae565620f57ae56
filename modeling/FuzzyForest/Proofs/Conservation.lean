/-
What crossing conserves.

Where subtrees of two trees change places, each part of either tree is in one of the new trees.  No
instruction is lost or doubled, then, whichever nodes are drawn, and aggregates make no difference:
the new trees need not be well formed, but what they are made of is what was there.
-/
import FuzzyForest.Proofs.Exchange
import Mathlib.Data.Multiset.AddSub
import Mathlib.Tactic.Abel

namespace FuzzyForest.Forest

/-! ### One pair of trees -/

lemma live_live (tree : Code Float) : live (live tree) = live tree := compact_live tree

/-- Two trees that exchange their spans are made of the same parts. -/
lemma perm_exchange {tree1 tree2 front1 span1 back1 front2 span2 back2 : Code Float}
    (h1 : Code.Cut tree1 front1 span1 back1) (h2 : Code.Cut tree2 front2 span2 back2) :
    ((front1 ++ span2 ++ back1) ++ (front2 ++ span1 ++ back2)).Perm (tree1 ++ tree2) := by
  rw [h1.whole, h2.whole, ← Multiset.coe_eq_coe]
  simp only [← Multiset.coe_add]
  abel

section

variable {nontrivial : Bool} {tree1 tree2 : Code Float} {new : Code Float × Code Float}

/-- The live instructions of a pair of trees are those of the pair before. -/
lemma CrossedAt.perm (h : CrossedAt nontrivial tree1 tree2 new) (htree1 : tree1.isWellFormed = true)
    (htree2 : tree2.isWellFormed = true) :
    (live new.1 ++ live new.2).Perm (live tree1 ++ live tree2) := by
  cases h with
  | copy => rw [live_live, live_live]
  | exchange hnode1 hnode2 hl1 hl2 =>
    rw [live_live, live_live, ← live_append, ← live_append]
    exact (perm_exchange (Code.cut_at htree1 hnode1 hl1) (Code.cut_at htree2 hnode2 hl2)).filter _

/-- No placeholder is left in a pair of trees. -/
lemma CrossedAt.live_eq (h : CrossedAt nontrivial tree1 tree2 new) :
    live new.1 = new.1 ∧ live new.2 = new.2 := by
  cases h with
  | copy | exchange => exact ⟨live_live _, live_live _⟩

end

/-! ### Forests -/

/-- What becomes of two forests if their trees are crossed: as many trees as before, each with its
separator, no placeholders, and in each pair of trees the live instructions of the pair before. -/
structure Conserves (a b son daughter : Forest Float) : Prop where
  length1 : son.treeCodes.length = a.outputs
  length2 : daughter.treeCodes.length = b.outputs
  perm : ∀ k < a.outputs,
    (live (son.treeCodes.getD k []) ++ live (daughter.treeCodes.getD k [])).Perm
      (live (a.treeCodes.getD k []) ++ live (b.treeCodes.getD k []))
  closed1 : son.code = joined son.treeCodes
  closed2 : daughter.code = joined daughter.treeCodes
  notNoOp : ∀ i ∈ son.code ++ daughter.code, i.isNoOp = false

variable {nontrivial : Bool} {a b : Forest Float}

/-- No placeholder is in trees that are joined if there is none in the trees. -/
lemma isNoOp_of_mem_joined {trees : List (Code Float)} (h : ∀ tree ∈ trees, live tree = tree)
    {i : Instruction Float} (hi : i ∈ joined trees) : i.isNoOp = false := by
  rcases mem_joined hi with ⟨tree, htree, hi⟩ | rfl
  · rw [← h tree htree] at hi
    simpa using (List.mem_filter.mp hi).2
  · rfl

/-- Forests of the trees that are crossed pair by pair. -/
lemma CrossedPieces.conserves {r : Code Float × Code Float}
    (h : CrossedPieces nontrivial a.treeCodes b.treeCodes r) (houtputs : a.outputs = b.outputs)
    (ha : a.validate = .ok ()) (hb : b.validate = .ok ()) :
    Conserves a b { a with code := r.1, fitness? := none }
      { b with code := r.2, fitness? := none } := by
  obtain ⟨hlength1, htrees1⟩ := validate_eq_ok_iff.mp ha
  obtain ⟨hlength2, htrees2⟩ := validate_eq_ok_iff.mp hb
  obtain ⟨pairs, rfl, hson, hdaughter, hcrossed⟩ := h.exists_pairs htrees1 htrees2
  obtain ⟨hlength, hget⟩ := List.forall₂_iff_get.mp hcrossed
  rw [List.length_zip, hlength1, hlength2, ← houtputs, Nat.min_self] at hlength
  have hlive : ∀ new ∈ pairs, live new.1 = new.1 ∧ live new.2 = new.2 :=
    forall_right <| hcrossed.imp fun old new ⟨_, hnew⟩ => hnew.live_eq
  have hson : treeCodes { a with code := joined (pairs.map Prod.fst), fitness? := none }
      = pairs.map Prod.fst := (treeCodes_eq _).trans hson
  have hdaughter : treeCodes { b with code := joined (pairs.map Prod.snd), fitness? := none }
      = pairs.map Prod.snd := (treeCodes_eq _).trans hdaughter
  refine ⟨?_, ?_, fun k hk => ?_, ?_, ?_, fun i hi => ?_⟩
  · rw [hson, List.length_map, hlength]
  · rw [hdaughter, List.length_map, ← hlength, houtputs]
  · have hk1 : k < a.treeCodes.length := hlength1.symm ▸ hk
    have hk2 : k < b.treeCodes.length := hlength2.symm ▸ houtputs ▸ hk
    have hpair : k < pairs.length := hlength ▸ hk
    obtain ⟨⟨h1, h2⟩, hnew⟩ := hget k (by rw [List.length_zip]; exact Nat.lt_min.mpr ⟨hk1, hk2⟩) hpair
    rw [List.get_eq_getElem, List.getElem_zip] at h1 h2 hnew
    rw [hson, hdaughter, List.getD_eq_getElem _ _ hk1, List.getD_eq_getElem _ _ hk2,
      List.getD_eq_getElem _ _ (by rwa [List.length_map]),
      List.getD_eq_getElem _ _ (by rwa [List.length_map]), List.getElem_map, List.getElem_map]
    exact hnew.perm h1 h2
  · rw [hson]
  · rw [hdaughter]
  · rcases List.mem_append.mp hi with hi | hi
    · exact isNoOp_of_mem_joined (List.forall_mem_map.mpr fun new hnew => (hlive new hnew).1) hi
    · exact isNoOp_of_mem_joined (List.forall_mem_map.mpr fun new hnew => (hlive new hnew).2) hi

/-- **Crossing two valid forests leaves them as they are, or conserves the live instructions of each
pair of trees.  Where the numbers of trees differ, nothing is even drawn.** -/
theorem crossed_conserves (ctx : Context Float) (p : Float) (a b : Forest Float) (s : Session) :
    (a.validate = .ok () → b.validate = .ok () →
      match crossed ctx p a b s with
      | (.error e, _) => e = .stalled
      | (.ok (son, daughter), _) =>
        son.code = a.code ∧ daughter.code = b.code ∨ Conserves a b son daughter) ∧
    (a.outputs ≠ b.outputs →
      ∃ t, crossed ctx p a b s = (.ok (a, b), t) ∧ t.source = s.source) := by
  constructor
  · intro ha hb
    have hyields : Run.Yields (crossed ctx p a b) fun r =>
        r.1.code = a.code ∧ r.2.code = b.code ∨ Conserves a b r.1 r.2 := by
      by_cases houtputs : a.outputs = b.outputs
      · refine (yields_crossed ctx p houtputs ha hb).mono ?_
        rintro - (rfl | ⟨r, hr, rfl⟩)
        · exact .inl ⟨rfl, rfl⟩
        · exact .inr (hr.conserves houtputs ha hb)
      · rw [crossed, if_pos houtputs]
        exact (Run.Yields.note rfl).bind fun _ _ => .pure (.inl ⟨rfl, rfl⟩)
    have h := hyields s.journal.discards s rfl
    rcases hcrossed : crossed ctx p a b s with ⟨e | ⟨son, daughter⟩, t⟩ <;> rw [hcrossed] at h
    · exact h.1
    · exact h.1
  · intro houtputs
    rw [crossed, if_pos houtputs]
    exact ⟨_, rfl, rfl⟩

/-- An aggregate and an input change places; with a forest of no trees nothing is crossed. -/
theorem crossed_conserves_averaging :
    (∃ son daughter t, crossed (.fuzzy pairDataset {}) 1.0 averaging conjoining
        { source := rootAndLeaf } = (.ok (son, daughter), t) ∧ son.code ≠ averaging.code ∧
      Conserves averaging conjoining son daughter) ∧
    ∃ t, crossed (.fuzzy pairDataset {}) 1.0 averaging (ofCode 2 []) { source := rootAndLeaf }
      = (.ok (averaging, ofCode 2 []), t) ∧ t.source = rootAndLeaf := by
  constructor
  · have h := (crossed_conserves (.fuzzy pairDataset {}) 1.0 averaging conjoining
      { source := rootAndLeaf }).1 (by decide +kernel) (by decide +kernel)
    have hmoved : (crossed (.fuzzy pairDataset {}) 1.0 averaging conjoining
        { source := rootAndLeaf }).1.toOption.any
          (fun r => decide (r.1.code.map Instruction.opcode ≠ averaging.code.map Instruction.opcode))
        = true := by decide +kernel
    rcases hcrossed : crossed (.fuzzy pairDataset {}) 1.0 averaging conjoining
      { source := rootAndLeaf } with ⟨e | ⟨son, daughter⟩, t⟩ <;> rw [hcrossed] at h hmoved
    · cases hmoved
    · have hne : son.code ≠ averaging.code := fun heq => by
        simp [Except.toOption, heq] at hmoved
      exact ⟨son, daughter, t, rfl, hne, h.resolve_left fun h => hne h.1⟩
  · exact (crossed_conserves (.fuzzy pairDataset {}) 1.0 averaging (ofCode 2 [])
      { source := rootAndLeaf }).2 (by decide +kernel)

end FuzzyForest.Forest
