/-
When an exchange of subtrees keeps trees well formed.

The subtree of a node makes one value out of nothing.  Without aggregates it does so on top of any
stack, so that it may take the place of every other subtree.  An aggregate in it takes all values
that lie below, which is harmless only where the code behind the subtree does not need them.
-/
import FuzzyForest.Proofs.Crossing
import FuzzyForest.Proofs.ClosedSpecies

namespace FuzzyForest

namespace Code

variable {α : Type}

/-! ### Values that lie below -/

lemma depthAfter_add {i : Instruction α} (ha : i.isAggregate = false) {d e : Nat}
    (h : depthAfter d i = some e) (k : Nat) : depthAfter (d + k) i = some (e + k) := by
  by_cases hl : i.isLive = true
  · obtain ⟨below, rfl, rfl⟩ := (depthAfter_eq_some_iff hl ha).mp h
    rw [Nat.add_right_comm, depthAfter_add_arity hl ha, Nat.add_right_comm]
  · have hl : i.isLive = false := eq_false_of_ne_true hl
    rw [depthAfter_of_not_isLive hl, Option.some.injEq] at h
    rw [depthAfter_of_not_isLive hl, h]

/-- Code without aggregates leaves the values below as they are. -/
lemma depthFrom_add {code : Code α} (ha : ∀ i ∈ code, i.isAggregate = false) {d e : Nat}
    (h : depthFrom d code = some e) (k : Nat) : depthFrom (d + k) code = some (e + k) := by
  induction code generalizing d with
  | nil => simpa using h
  | cons i rest ih =>
    obtain ⟨hi, hrest⟩ := List.forall_mem_cons.mp ha
    obtain ⟨c, hc, h⟩ := Option.bind_eq_some_iff.mp h
    rw [depthFrom_cons, depthAfter_add hi hc, Option.bind_some, ih hrest h]

/-- Code with an aggregate takes the values below away. -/
lemma depthFrom_add_of_aggregate {code : Code α} (ha : ∃ i ∈ code, i.isAggregate = true) {d e : Nat}
    (h : depthFrom d code = some e) (k : Nat) : depthFrom (d + k) code = some e := by
  induction code generalizing d with
  | nil =>
    obtain ⟨i, hi, -⟩ := ha
    cases hi
  | cons i rest ih =>
    obtain ⟨c, hc, h⟩ := Option.bind_eq_some_iff.mp h
    rw [depthFrom_cons]
    by_cases hi : i.isAggregate = true
    · -- the aggregate leaves one value, whatever lies below
      rw [depthAfter_of_isAggregate hi, Option.ite_none_left_eq_some] at hc
      rw [depthAfter_of_isAggregate hi, if_neg (by omega), hc.2, Option.bind_some, h]
    · have hrest : ∃ i ∈ rest, i.isAggregate = true := by
        obtain ⟨j, hj, hja⟩ := ha
        rcases List.mem_cons.mp hj with rfl | hj
        · exact absurd hja hi
        · exact ⟨j, hj, hja⟩
      rw [depthAfter_add (eq_false_of_ne_true hi) hc, Option.bind_some, ih hrest h]

/-! ### Subtrees -/

lemma sinceSeparator_eq_length {before : Code α} (h : ∀ i ∈ before, i.isSeparator = false) :
    sinceSeparator before = before.length := by
  rw [sinceSeparator, List.takeWhile_eq_self_iff.mpr fun i hi => by simp [h i hi]]

/-- Inside a tree, what a walk over `k` operands passes makes `k` values out of nothing. -/
lemma Walk.depthFrom_reach {before : Code α} {k : Nat} (h : Walk k before) :
    depthFrom 0 (before.take (reach k before)).reverse = some k := by
  induction h with
  | done => simp [reach]
  | aggregate ha hseparators hd =>
    -- the walk passes the whole tree, which has made the only value
    rw [reach, if_pos ha, sinceSeparator_eq_length hseparators, ← List.length_cons,
      List.take_length, hd]
  | noOp hn _ ih =>
    rw [reach_cons_noOp hn, List.take_succ_cons, List.reverse_cons, depthFrom_concat, ih,
      Option.bind_some, depthAfter_of_isNoOp hn]
  | node hl ha _ ih =>
    rw [reach_cons (isNoOp_of_isLive hl) ha, List.take_succ_cons, List.reverse_cons,
      depthFrom_concat, ih, Option.bind_some, depthAfter_add_arity hl ha]

/-- **The subtree of a live node makes one value out of nothing.** -/
theorem depthFrom_spanAt {tree : Code α} (htree : tree.isWellFormed = true) {j : Nat}
    {node : Instruction α} (hnode : tree[j]? = some node) (hl : node.isLive = true) :
    depthFrom 0 (spanAt tree j) = some 1 := by
  obtain ⟨hseparators, -⟩ := isWellFormed_iff.mp htree
  obtain ⟨d, e, hd, he, -⟩ := exists_depth_at (isWellFormed_iff.mp htree).2 hnode
  have hinside : ∀ i ∈ (tree.take j).reverse, i.isSeparator = false := fun i hi =>
    hseparators i (List.mem_of_mem_take (List.mem_reverse.mp hi))
  rw [spanAt_eq hnode, reachOf, depthFrom_concat]
  by_cases ha : node.isAggregate = true
  · rw [if_pos ha, sinceSeparator_eq_length hinside, List.take_length, List.reverse_reverse, hd,
      Option.bind_some]
    rw [depthAfter_of_isAggregate ha, Option.ite_none_left_eq_some] at he
    rw [depthAfter_of_isAggregate ha, if_neg he.1]
  · have ha : node.isAggregate = false := eq_false_of_ne_true ha
    obtain ⟨below, rfl, rfl⟩ := (depthAfter_eq_some_iff hl ha).mp he
    have hwalk : Walk node.arity (tree.take j).reverse :=
      walk_of_depth hinside (by rwa [List.reverse_reverse]) (Nat.le_add_left _ _)
    rw [if_neg (by simp [ha]), hwalk.depthFrom_reach, Option.bind_some, ← Nat.zero_add node.arity,
      depthAfter_add_arity hl ha]

/-! ### Replacing a subtree -/

/-- Whether a subtree may stand in front of the rest of a tree: no aggregate in it takes values
that the rest needs. -/
def Fits (span back : Code α) : Prop :=
  (∀ i ∈ span, i.isAggregate = false) ∨ depthFrom 1 back = some 1

/-- **A tree with the subtree of another one in the place of one of its own is well formed exactly
if that subtree fits.** -/
theorem isWellFormed_replaceAt_iff {tree1 tree2 : Code α} (htree1 : tree1.isWellFormed = true)
    (htree2 : tree2.isWellFormed = true) {j1 j2 : Nat} {node1 node2 : Instruction α}
    (hnode1 : tree1[j1]? = some node1) (hnode2 : tree2[j2]? = some node2)
    (hl1 : node1.isLive = true) (hl2 : node2.isLive = true) :
    (tree1.replaceAt j1 (tree2.spanAt j2)).isWellFormed = true ↔
      Fits (tree2.spanAt j2) (tree1.drop (j1 + 1)) := by
  obtain ⟨hseparators1, -⟩ := isWellFormed_iff.mp htree1
  obtain ⟨hseparators2, -⟩ := isWellFormed_iff.mp htree2
  obtain ⟨d, hfront, -, hback⟩ := (cut_at htree1 hnode1 hl1).depth
  have hspan := depthFrom_spanAt htree2 hnode2 hl2
  have hseparators : ∀ i ∈ tree1.replaceAt j1 (tree2.spanAt j2), i.isSeparator = false := by
    intro i hi
    simp only [replaceAt, List.mem_append] at hi
    rcases hi with (hi | hi) | hi
    · exact hseparators1 i (List.mem_of_mem_take hi)
    · exact hseparators2 i (List.mem_of_mem_take (List.mem_of_mem_drop hi))
    · exact hseparators1 i (List.mem_of_mem_drop hi)
  rw [isWellFormed_iff, and_iff_right hseparators, residualDepth, replaceAt, depthFrom_append,
    depthFrom_append, hfront, Option.bind_some, ← Nat.zero_add d, Fits]
  by_cases ha : ∃ i ∈ tree2.spanAt j2, i.isAggregate = true
  · have hnot : ¬∀ i ∈ tree2.spanAt j2, i.isAggregate = false := fun h => by
      obtain ⟨i, hi, hia⟩ := ha
      simp [h i hi] at hia
    rw [depthFrom_add_of_aggregate ha hspan, Option.bind_some, or_iff_right hnot]
  · have ha : ∀ i ∈ tree2.spanAt j2, i.isAggregate = false := fun i hi =>
      eq_false_of_ne_true fun hia => ha ⟨i, hi, hia⟩
    rw [depthFrom_add ha hspan, Option.bind_some, Nat.add_comm 1 d, or_iff_left_of_imp fun _ => ha]
    exact iff_of_true hback ha

end Code

namespace Forest

/-! ### A pair of trees -/

/-- A tree with a subtree of another one in the place of one of its own, if positions are given. -/
def graftAt (tree other : Code Float) : Option (Nat × Nat) → Code Float
  | none => tree
  | some (j, k) => tree.replaceAt j (other.spanAt k)

/-- Whether the subtree fits that would take the place of another one. -/
def FitsAt (tree other : Code Float) : Option (Nat × Nat) → Prop
  | none => True
  | some (j, k) => Code.Fits (other.spanAt k) (tree.drop (j + 1))

/-- What becomes of a pair of well-formed trees: up to placeholders both stay as they are, or the
subtrees of two live nodes change places.  Each of them is well formed exactly if the subtree that
it gets fits. -/
structure Exchange (tree1 tree2 new1 new2 : Code Float) (nodes : Option (Nat × Nat)) : Prop where
  isLive : ∀ j ∈ nodes, (tree1[j.1]?).any Instruction.isLive = true ∧
    (tree2[j.2]?).any Instruction.isLive = true
  compact1 : new1.compact = (graftAt tree1 tree2 nodes).compact
  compact2 : new2.compact = (graftAt tree2 tree1 (nodes.map Prod.swap)).compact
  wellFormed1 : new1.isWellFormed = true ↔ FitsAt tree1 tree2 nodes
  wellFormed2 : new2.isWellFormed = true ↔ FitsAt tree2 tree1 (nodes.map Prod.swap)

lemma compact_live (tree : Code Float) : (live tree).compact = tree.compact :=
  Code.compact_compact tree

section

variable {nontrivial : Bool} {tree1 tree2 : Code Float}

lemma Exchange.kept (htree1 : tree1.isWellFormed = true) (htree2 : tree2.isWellFormed = true) :
    Exchange tree1 tree2 tree1 tree2 none :=
  ⟨nofun, rfl, rfl, iff_of_true htree1 trivial, iff_of_true htree2 trivial⟩

lemma CrossedAt.exists_exchange {new : Code Float × Code Float}
    (h : CrossedAt nontrivial tree1 tree2 new) (htree1 : tree1.isWellFormed = true)
    (htree2 : tree2.isWellFormed = true) :
    ∃ nodes, Exchange tree1 tree2 new.1 new.2 nodes := by
  cases h with
  | copy =>
    refine ⟨none, nofun, compact_live _, compact_live _, ?_, ?_⟩
    · exact iff_of_true ((Code.isWellFormed_compact tree1).trans htree1) trivial
    · exact iff_of_true ((Code.isWellFormed_compact tree2).trans htree2) trivial
  | @exchange j1 j2 node1 node2 hnode1 hnode2 hl1 hl2 =>
    refine ⟨some (j1, j2), ?_, compact_live _, compact_live _, ?_, ?_⟩
    · rintro - ⟨⟩
      exact ⟨by simpa [hnode1] using hl1, by simpa [hnode2] using hl2⟩
    · dsimp only
      rw [live, Code.isWellFormed_compact]
      exact Code.isWellFormed_replaceAt_iff htree1 htree2 hnode1 hnode2 hl1 hl2
    · dsimp only
      rw [live, Code.isWellFormed_compact]
      exact Code.isWellFormed_replaceAt_iff htree2 htree1 hnode2 hnode1 hl2 hl1

/-- An exchange brings nothing in. -/
lemma CrossedAt.mem {new : Code Float × Code Float} (h : CrossedAt nontrivial tree1 tree2 new)
    {i : Instruction Float} (hi : i ∈ new.1 ∨ i ∈ new.2) : i ∈ tree1 ∨ i ∈ tree2 := by
  have hreplace : ∀ {a b : Code Float} {j k : Nat}, i ∈ live (a.replaceAt j (b.spanAt k)) →
      i ∈ a ∨ i ∈ b := by
    intro a b j k hi
    have hi := (List.mem_filter.mp hi).1
    simp only [Code.replaceAt, List.mem_append] at hi
    rcases hi with (hi | hi) | hi
    · exact .inl (List.mem_of_mem_take hi)
    · exact .inr (List.mem_of_mem_take (List.mem_of_mem_drop hi))
    · exact .inl (List.mem_of_mem_drop hi)
  cases h with
  | copy => exact hi.imp (fun hi => (List.mem_filter.mp hi).1) fun hi => (List.mem_filter.mp hi).1
  | exchange => exact hi.elim hreplace fun hi => (hreplace hi).symm

/-- Without aggregates every subtree fits. -/
lemma fitsAt_of_notAggregate (h : ∀ i ∈ tree2, i.isAggregate = false) (nodes : Option (Nat × Nat)) :
    FitsAt tree1 tree2 nodes := by
  cases nodes with
  | none => trivial
  | some nodes => exact .inl fun i hi => h i (List.mem_of_mem_take (List.mem_of_mem_drop hi))

end

/-! ### Forests -/

/-- What becomes of two forests: as many trees as before, and each pair of trees exchanges two
subtrees at most. -/
structure Exchanges (a b son daughter : Forest Float) : Prop where
  outputs1 : son.outputs = a.outputs
  outputs2 : daughter.outputs = b.outputs
  length1 : son.treeCodes.length = a.outputs
  length2 : daughter.treeCodes.length = b.outputs
  trees : List.Forall₂ (fun old new => ∃ nodes, Exchange old.1 old.2 new.1 new.2 nodes)
    (a.treeCodes.zip b.treeCodes) (son.treeCodes.zip daughter.treeCodes)

/-- The check looks at the number of trees and at each tree. -/
lemma validate_eq_ok_iff {f : Forest Float} : f.validate = .ok () ↔
    f.treeCodes.length = f.outputs ∧ ∀ tree ∈ f.treeCodes, tree.isWellFormed = true := by
  have hnone : malformed? f.treeCodes = none ↔ ∀ tree ∈ f.treeCodes, tree.isWellFormed = true := by
    rw [malformed?, Option.map_eq_none_iff, List.find?_eq_none]
    constructor
    · intro h tree htree
      obtain ⟨i, hi, rfl⟩ := List.getElem_of_mem htree
      simpa using h (f.treeCodes[i], i) (List.mem_zipIdx_iff_getElem?.mpr (by simp [hi]))
    · rintro h ⟨tree, i⟩ hmem
      simp [h tree (List.fst_mem_of_mem_zipIdx hmem)]
  have hlength : f.trees.length = f.treeCodes.length := by rw [treeCodes, List.length_map]
  rw [Forest.validate, hlength]
  split
  · rename_i h
    exact iff_of_false (by simp) fun h' => h h'.1
  · rename_i h
    rw [not_ne_iff] at h
    rw [and_iff_right h, ← hnone]
    cases malformed? f.treeCodes with
    | none => simp
    | some t => simp

section

variable {nontrivial : Bool} {a b son daughter : Forest Float}

/-- What holds of all pairs and speaks of the new one only. -/
lemma forall_right {β γ : Type} {P : γ → Prop} {xs : List β} {ys : List γ}
    (h : List.Forall₂ (fun _ y => P y) xs ys) : ∀ y ∈ ys, P y := by
  induction h with
  | nil => exact nofun
  | cons hy _ ih => exact List.forall_mem_cons.mpr ⟨hy, ih⟩

/-- Forests that are given back as they are. -/
lemma Exchanges.kept (ha : a.validate = .ok ()) (hb : b.validate = .ok ()) :
    Exchanges a b a b := by
  obtain ⟨hlength1, htrees1⟩ := validate_eq_ok_iff.mp ha
  obtain ⟨hlength2, htrees2⟩ := validate_eq_ok_iff.mp hb
  refine ⟨rfl, rfl, hlength1, hlength2, List.forall₂_same.mpr ?_⟩
  rintro ⟨tree1, tree2⟩ hmem
  obtain ⟨h1, h2⟩ := List.of_mem_zip hmem
  exact ⟨none, .kept (htrees1 _ h1) (htrees2 _ h2)⟩

/-- The trees that are crossed pair by pair are the pieces of the new buffers. -/
lemma CrossedPieces.exists_pieces {trees1 trees2 : List (Code Float)} {r : Code Float × Code Float}
    (h : CrossedPieces nontrivial trees1 trees2 r)
    (h1 : ∀ tree ∈ trees1, ∀ i ∈ tree, i.isSeparator = false)
    (h2 : ∀ tree ∈ trees2, ∀ i ∈ tree, i.isSeparator = false) :
    ∃ pairs, r = (joined (pairs.map Prod.fst), joined (pairs.map Prod.snd)) ∧
      Code.pieces r.1 = pairs.map Prod.fst ∧ Code.pieces r.2 = pairs.map Prod.snd ∧
      List.Forall₂ (fun old new => CrossedAt nontrivial old.1 old.2 new) (trees1.zip trees2)
        pairs := by
  obtain ⟨pairs, hpairs, rfl⟩ := h
  have hold : ∀ old ∈ trees1.zip trees2,
      (∀ i ∈ old.1, i.isSeparator = false) ∧ ∀ i ∈ old.2, i.isSeparator = false := by
    rintro ⟨tree1, tree2⟩ hmem
    obtain ⟨hmem1, hmem2⟩ := List.of_mem_zip hmem
    exact ⟨h1 _ hmem1, h2 _ hmem2⟩
  -- no separator is left in the new trees, so that the new buffers fall into them
  have hclean : ∀ new ∈ pairs, ∀ i, i ∈ new.1 ∨ i ∈ new.2 → i.isSeparator = false :=
    forall_right <| ((List.forall₂_and_left ..).mpr ⟨hold, hpairs⟩).imp
      fun old new ⟨⟨h1, h2⟩, hnew⟩ i hi => (hnew.mem hi).elim (h1 i) (h2 i)
  exact ⟨pairs, rfl,
    pieces_joined (List.forall_mem_map.mpr fun new hnew i hi => hclean new hnew i (.inl hi)),
    pieces_joined (List.forall_mem_map.mpr fun new hnew i hi => hclean new hnew i (.inr hi)),
    hpairs⟩

/-- The same for well-formed trees. -/
lemma CrossedPieces.exists_pairs {trees1 trees2 : List (Code Float)} {r : Code Float × Code Float}
    (h : CrossedPieces nontrivial trees1 trees2 r) (h1 : ∀ tree ∈ trees1, tree.isWellFormed = true)
    (h2 : ∀ tree ∈ trees2, tree.isWellFormed = true) :
    ∃ pairs, r = (joined (pairs.map Prod.fst), joined (pairs.map Prod.snd)) ∧
      Code.pieces r.1 = pairs.map Prod.fst ∧ Code.pieces r.2 = pairs.map Prod.snd ∧
      List.Forall₂ (fun old new => (old.1.isWellFormed = true ∧ old.2.isWellFormed = true) ∧
        CrossedAt nontrivial old.1 old.2 new) (trees1.zip trees2) pairs := by
  obtain ⟨pairs, hr, hson, hdaughter, hpairs⟩ := h.exists_pieces
    (fun tree htree => (Code.isWellFormed_iff.mp (h1 tree htree)).1)
    fun tree htree => (Code.isWellFormed_iff.mp (h2 tree htree)).1
  refine ⟨pairs, hr, hson, hdaughter, (List.forall₂_and_left ..).mpr ⟨?_, hpairs⟩⟩
  rintro ⟨tree1, tree2⟩ hmem
  obtain ⟨hmem1, hmem2⟩ := List.of_mem_zip hmem
  exact ⟨h1 _ hmem1, h2 _ hmem2⟩

/-- Forests of the trees that are crossed pair by pair. -/
lemma CrossedPieces.exchanges {r : Code Float × Code Float}
    (h : CrossedPieces nontrivial a.treeCodes b.treeCodes r) (houtputs : a.outputs = b.outputs)
    (ha : a.validate = .ok ()) (hb : b.validate = .ok ()) :
    Exchanges a b { a with code := r.1, fitness? := none }
      { b with code := r.2, fitness? := none } := by
  obtain ⟨hlength1, htrees1⟩ := validate_eq_ok_iff.mp ha
  obtain ⟨hlength2, htrees2⟩ := validate_eq_ok_iff.mp hb
  obtain ⟨pairs, -, hson, hdaughter, hcrossed⟩ := h.exists_pairs htrees1 htrees2
  have hlength : pairs.length = b.outputs := by
    rw [← hcrossed.length_eq, List.length_zip, hlength1, hlength2, houtputs, Nat.min_self]
  refine ⟨rfl, rfl, ?_, ?_, ?_⟩
  · rw [treeCodes_eq, hson, List.length_map, hlength, houtputs]
  · rw [treeCodes_eq, hdaughter, List.length_map, hlength]
  · rw [treeCodes_eq { a with code := _, fitness? := none },
      treeCodes_eq { b with code := _, fitness? := none }, hson, hdaughter, ← List.unzip_fst,
      ← List.unzip_snd, List.zip_unzip]
    exact hcrossed.imp fun old new ⟨⟨h1, h2⟩, hnew⟩ => hnew.exists_exchange h1 h2

/-- Without aggregates both forests stay valid. -/
lemma Exchanges.validate (h : Exchanges a b son daughter) (houtputs : a.outputs = b.outputs)
    (hnone : ∀ tree ∈ a.treeCodes ++ b.treeCodes, ∀ i ∈ tree, i.isAggregate = false) :
    son.validate = .ok () ∧ daughter.validate = .ok () := by
  have hold : ∀ old ∈ a.treeCodes.zip b.treeCodes,
      (∀ i ∈ old.1, i.isAggregate = false) ∧ ∀ i ∈ old.2, i.isAggregate = false := by
    rintro ⟨tree1, tree2⟩ hmem
    obtain ⟨h1, h2⟩ := List.of_mem_zip hmem
    exact ⟨hnone _ (List.mem_append_left _ h1), hnone _ (List.mem_append_right _ h2)⟩
  have hnew : ∀ new ∈ son.treeCodes.zip daughter.treeCodes,
      new.1.isWellFormed = true ∧ new.2.isWellFormed = true :=
    forall_right <| ((List.forall₂_and_left ..).mpr ⟨hold, h.trees⟩).imp
      fun old new ⟨⟨h1, h2⟩, nodes, hexchange⟩ =>
        ⟨hexchange.wellFormed1.mpr (fitsAt_of_notAggregate h2 _),
          hexchange.wellFormed2.mpr (fitsAt_of_notAggregate h1 _)⟩
  have hlength : son.treeCodes.length = daughter.treeCodes.length := by
    rw [h.length1, h.length2, houtputs]
  rw [validate_eq_ok_iff, validate_eq_ok_iff, h.length1, h.outputs1, h.length2, h.outputs2]
  refine ⟨⟨rfl, fun tree htree => ?_⟩, rfl, fun tree htree => ?_⟩
  · rw [← List.map_fst_zip (Nat.le_of_eq hlength)] at htree
    obtain ⟨new, hmem, rfl⟩ := List.mem_map.mp htree
    exact (hnew new hmem).1
  · rw [← List.map_snd_zip (Nat.le_of_eq hlength.symm)] at htree
    obtain ⟨new, hmem, rfl⟩ := List.mem_map.mp htree
    exact (hnew new hmem).2

/-- Crossing two valid forests leaves them as they are, or gives them the trees that are crossed pair
by pair. -/
lemma yields_crossed (ctx : Context Float) (p : Float) (houtputs : a.outputs = b.outputs)
    (ha : a.validate = .ok ()) (hb : b.validate = .ok ()) :
    Run.Yields (crossed ctx p a b) fun new => new = (a, b) ∨
      ∃ r, CrossedPieces ctx.settings.nontrivial a.treeCodes b.treeCodes r ∧
        new = ({ a with code := r.1, fitness? := none }, { b with code := r.2, fitness? := none }) := by
  obtain ⟨hlength1, htrees1⟩ := validate_eq_ok_iff.mp ha
  obtain ⟨hlength2, htrees2⟩ := validate_eq_ok_iff.mp hb
  rw [treeCodes_eq] at hlength1 htrees1 hlength2 htrees2
  rw [treeCodes_eq, treeCodes_eq]
  have hpieces := returns_crossTrees_pieces ctx.settings.nontrivial p hlength1
    (hlength2.trans houtputs.symm) (Code.findsOperands_of_isWellFormed htrees1)
    (Code.findsOperands_of_isWellFormed htrees2)
  rw [crossed, if_neg (not_ne_iff.mpr houtputs)]
  refine (Run.Yields.draw hpieces).bind fun r hr => ?_
  obtain ⟨son, daughter⟩ := r
  dsimp only
  split
  · exact .pure (.inr ⟨_, hr, rfl⟩)
  · exact (Run.Yields.note rfl).bind fun _ _ => .pure (.inl rfl)

/-- **Crossing two valid forests keeps their numbers of trees.  Each pair of trees exchanges two
subtrees at most, and a new tree is well formed exactly if the subtree fits that it gets; without
aggregates every subtree does.** -/
theorem crossed_isWellFormed_iff (ctx : Context Float) (p : Float)
    (houtputs : a.outputs = b.outputs) (ha : a.validate = .ok ()) (hb : b.validate = .ok ())
    (s : Session) :
    match crossed ctx p a b s with
    | (.error e, _) => e = .stalled
    | (.ok (son, daughter), _) => Exchanges a b son daughter ∧
        ((∀ tree ∈ a.treeCodes ++ b.treeCodes, ∀ i ∈ tree, i.isAggregate = false) →
          son.validate = .ok () ∧ daughter.validate = .ok ()) := by
  have hyields : Run.Yields (crossed ctx p a b) fun r => Exchanges a b r.1 r.2 := by
    refine (yields_crossed ctx p houtputs ha hb).mono ?_
    rintro - (rfl | ⟨r, hr, rfl⟩)
    · exact .kept ha hb
    · exact hr.exchanges houtputs ha hb
  have h := hyields s.journal.discards s rfl
  rcases hcrossed : crossed ctx p a b s with ⟨e | ⟨son, daughter⟩, t⟩ <;> rw [hcrossed] at h
  · exact h.1
  · exact ⟨h.1, h.1.validate houtputs⟩

end

/-- An aggregate of two inputs. -/
def averaging : Forest Float :=
  ofCode 2 [.input 0 0.1, .input 1 0.2, .plain .processAll 0.3, .separator]

/-- A rule that needs both of its inputs. -/
def conjoining : Forest Float :=
  ofCode 2 [.input 0 0.5, .input 1 0.6, .plain .and 0.7, .separator]

/-- Two input columns and a target column. -/
def pairDataset : Dataset Float := ⟨#[0.5, 0.25, 1.0, 1.0, 0.0, 0.0], 2, 3, 1, none, rfl, by decide⟩

/-- The root of the first tree and the second input of the second one are drawn. -/
def rootAndLeaf : Source :=
  ⟨fun n => if n = 0 then 0 else if n = 1 then 12912720851596686131 else 6456360425798343065, 0, 4⟩

/-- The second input of a conjunction changes places with an aggregate that takes the first. -/
theorem crossed_isWellFormed_iff_averaging :
    ∃ son daughter t, crossed (.fuzzy pairDataset {}) 1.0 averaging conjoining
        { source := rootAndLeaf } = (.ok (son, daughter), t) ∧
      Exchanges averaging conjoining son daughter := by
  have h := crossed_isWellFormed_iff (a := averaging) (b := conjoining) (.fuzzy pairDataset {}) 1.0
    (by decide +kernel) (by decide +kernel) (by decide +kernel) { source := rootAndLeaf }
  have hok : (crossed (.fuzzy pairDataset {}) 1.0 averaging conjoining
      { source := rootAndLeaf }).1.isOk = true := by decide +kernel
  rcases hcrossed : crossed (.fuzzy pairDataset {}) 1.0 averaging conjoining
    { source := rootAndLeaf } with ⟨e | ⟨son, daughter⟩, t⟩ <;> rw [hcrossed] at h hok
  · cases hok
  · exact ⟨son, daughter, t, rfl, h.1⟩

/-- The conjunction is left without an operand. -/
theorem exists_crossed_malformed :
    ¬∀ (ctx : Context Float) (p : Float) (a b : Forest Float) (s : Session),
      a.outputs = b.outputs → a.validate = .ok () → b.validate = .ok () →
      ∀ son daughter t, crossed ctx p a b s = (.ok (son, daughter), t) →
        (∀ tree ∈ son.treeCodes ++ daughter.treeCodes, tree.isWellFormed = true) ∧
          son.treeCodes.length = son.outputs ∧ daughter.treeCodes.length = daughter.outputs := by
  intro h
  have hall := h (.fuzzy pairDataset {}) 1.0 averaging conjoining { source := rootAndLeaf }
    (by decide +kernel) (by decide +kernel) (by decide +kernel)
  have hok : (crossed (.fuzzy pairDataset {}) 1.0 averaging conjoining
      { source := rootAndLeaf }).1.toOption.any
        (fun r => r.2.treeCodes.any fun tree => !tree.isWellFormed) = true := by decide +kernel
  rcases hcrossed : crossed (.fuzzy pairDataset {}) 1.0 averaging conjoining
    { source := rootAndLeaf } with ⟨e | ⟨son, daughter⟩, t⟩ <;> rw [hcrossed] at hok
  · cases hok
  · obtain ⟨tree, hmem, hbad⟩ := List.any_eq_true.mp hok
    rw [(hall son daughter t hcrossed).1 tree (List.mem_append_right _ hmem)] at hbad
    cases hbad

end Forest

end FuzzyForest
