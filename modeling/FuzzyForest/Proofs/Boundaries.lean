/-
The trees of a forest.

A buffer is a forest if it consists of well-formed trees, each followed by one separator.  One scan
over the buffer tells: behind a tree there must be one value on the stack, the separator takes it
away, and the buffer ends with a separator.  `Code.pieces` cuts any buffer at its separators, as
`Code.trees` does in positions.
-/
import FuzzyForest.Forest.Basic
import FuzzyForest.Proofs.Subtree

namespace FuzzyForest

variable {α : Type}

namespace Code

/-! ### Pieces -/

/-- The trees of a buffer, without their separators. -/
def pieces (code : Code α) : List (Code α) :=
  match h : code with
  | [] => []
  | _ :: _ =>
    let tree := code.takeWhile fun i => !i.isSeparator
    tree :: pieces (code.drop (tree.length + 1))
termination_by code.length
decreasing_by
  subst h
  simp only [List.length_drop, List.length_cons]
  omega

lemma pieces_nil : pieces ([] : Code α) = [] := by
  rw [pieces]

lemma pieces_cons (i : Instruction α) (rest : Code α) :
    pieces (i :: rest) = ((i :: rest).takeWhile fun i => !i.isSeparator) ::
      pieces ((i :: rest).drop (((i :: rest).takeWhile fun i => !i.isSeparator).length + 1)) := by
  rw [pieces]

/-- The first piece ends at the first separator, or else with the buffer. -/
lemma eq_of_pieces_eq_cons {code tree : Code α} {trees : List (Code α)}
    (h : pieces code = tree :: trees) :
    code.takeWhile (fun i => !i.isSeparator) = tree ∧
      (code = tree ∧ trees = [] ∨ ∃ sep rest, code = tree ++ sep :: rest ∧
        sep.isSeparator = true ∧ pieces rest = trees) := by
  cases code with
  | nil => rw [pieces_nil] at h; cases h
  | cons i code =>
    rw [pieces_cons, List.cons.injEq] at h
    obtain ⟨htree, htrees⟩ := h
    have hparts := List.takeWhile_append_dropWhile (p := fun i => !i.isSeparator) (l := i :: code)
    rw [htree] at htrees hparts
    refine ⟨htree, ?_⟩
    rcases hbehind : (i :: code).dropWhile (fun i => !i.isSeparator) with _ | ⟨sep, rest⟩
    · rw [hbehind, List.append_nil] at hparts
      rw [← hparts, List.drop_of_length_le (Nat.le_succ _), pieces_nil] at htrees
      exact .inl ⟨hparts.symm, htrees.symm⟩
    · rw [hbehind] at hparts
      refine .inr ⟨sep, rest, hparts.symm, ?_, ?_⟩
      · have hhead := List.head?_dropWhile_not (fun j : Instruction α => !j.isSeparator) (i :: code)
        rw [hbehind] at hhead
        simpa using hhead
      · rw [← htrees, ← hparts]
        simp

/-- The ranges of the trees cut out the pieces. -/
lemma map_slice_treesFrom {whole code : Code α} {start : Nat} (h : whole.drop start = code) :
    (treesFrom start code).map whole.slice = pieces code := by
  fun_induction treesFrom start code with
  | case1 => rw [pieces_nil, List.map_nil]
  | case2 start i rest tree ih =>
    rw [pieces_cons, List.map_cons]
    congr 1
    · rw [slice, List.drop_take, h, Nat.add_sub_cancel_left]
      exact (List.prefix_iff_eq_take.mp (List.takeWhile_prefix _)).symm
    · refine ih ?_
      rw [← h, List.drop_drop, Nat.add_assoc]

/-- No piece holds a separator. -/
lemma isSeparator_of_mem_pieces {code tree : Code α} (h : tree ∈ pieces code) :
    ∀ i ∈ tree, i.isSeparator = false := by
  fun_induction pieces code with
  | case1 => cases h
  | case2 i rest piece ih =>
    rcases List.mem_cons.mp h with rfl | h
    · intro j hj
      simpa using List.all_eq_true.mp List.all_takeWhile j hj
    · exact ih h

/-- What is in a piece is in the buffer. -/
lemma mem_of_mem_pieces {code tree : Code α} (h : tree ∈ pieces code) : ∀ i ∈ tree, i ∈ code := by
  fun_induction pieces code with
  | case1 => cases h
  | case2 i rest piece ih =>
    rcases List.mem_cons.mp h with rfl | h
    · intro j hj
      exact (List.takeWhile_prefix _).subset hj
    · intro j hj
      exact List.mem_of_mem_drop (ih h j hj)

/-! ### Forests -/

/-- So many well-formed trees, each followed by a separator. -/
inductive IsForest : Nat → Code α → Prop
  | nil : IsForest 0 []
  | cons {n : Nat} {tree rest : Code α} {sep : Instruction α} (htree : tree.isWellFormed = true)
    (hsep : sep.isSeparator = true) (hrest : IsForest n rest) :
    IsForest (n + 1) (tree ++ sep :: rest)

lemma takeWhile_tree {tree rest : Code α} {sep : Instruction α}
    (htree : ∀ i ∈ tree, i.isSeparator = false) (hsep : sep.isSeparator = true) :
    (tree ++ sep :: rest).takeWhile (fun i => !i.isSeparator) = tree := by
  rw [List.takeWhile_append_of_pos fun i hi => by simp [htree i hi], List.takeWhile_cons, hsep]
  simp

/-- What stands behind a separator does not matter for the tree in front of it. -/
lemma takeWhile_append_tail {rest tail : Code α}
    (htail : ∀ i ∈ tail.head?, i.isSeparator = true) :
    (rest ++ tail).takeWhile (fun i => !i.isSeparator)
      = rest.takeWhile fun i => !i.isSeparator := by
  induction rest with
  | nil =>
    cases tail with
    | nil => rfl
    | cons i tail => simp [htail i rfl]
  | cons i rest ih => rw [List.cons_append, List.takeWhile_cons, List.takeWhile_cons, ih]

lemma pieces_append {tree rest : Code α} {sep : Instruction α}
    (htree : ∀ i ∈ tree, i.isSeparator = false) (hsep : sep.isSeparator = true) :
    pieces (tree ++ sep :: rest) = tree :: pieces rest := by
  obtain ⟨i, rest', h⟩ : ∃ i rest', tree ++ sep :: rest = i :: rest' := by
    cases tree <;> simp
  rw [h, pieces_cons, ← h, takeWhile_tree htree hsep]
  simp

/-- Whether a buffer is empty or ends with a separator. -/
def IsClosed (code : Code α) : Prop := ∀ i ∈ code.getLast?, i.isSeparator = true

lemma isClosed_nil : IsClosed ([] : Code α) := by simp [IsClosed]

lemma IsClosed.isUnclosed_eq [Scalar α] {code : Code α} (h : IsClosed code) :
    Forest.isUnclosed code = false := by
  rw [Forest.isUnclosed]
  cases hlast : code.getLast? with
  | none => rfl
  | some i => simp [h i hlast]

/-- What stands behind a buffer decides whether both are closed. -/
lemma isClosed_append {a b : Code α} (hb : b ≠ []) : IsClosed (a ++ b) ↔ IsClosed b := by
  rw [IsClosed, IsClosed, List.getLast?_append, List.getLast?_eq_some_getLast hb, Option.some_or]

namespace IsForest

variable {n : Nat} {code : Code α}

lemma exists_cons (h : IsForest (n + 1) code) : ∃ (tree : Code α) (sep : Instruction α)
    (rest : Code α), code = tree ++ sep :: rest ∧ tree.isWellFormed = true ∧
      sep.isSeparator = true ∧ IsForest n rest := by
  cases h with
  | cons htree hsep hrest => exact ⟨_, _, _, rfl, htree, hsep, hrest⟩

/-- The pieces of a forest are its trees. -/
lemma pieces_eq (h : IsForest n code) :
    (pieces code).length = n ∧ ∀ tree ∈ pieces code, tree.isWellFormed = true := by
  induction h with
  | nil => simp [pieces_nil]
  | @cons n tree rest sep htree hsep hrest ih =>
    rw [pieces_append (isWellFormed_iff.mp htree).1 hsep]
    exact ⟨by rw [List.length_cons, ih.1], List.forall_mem_cons.mpr ⟨htree, ih.2⟩⟩

lemma append {m : Nat} {rest : Code α} (h : IsForest n code) (hrest : IsForest m rest) :
    IsForest (n + m) (code ++ rest) := by
  induction h with
  | nil => simpa using hrest
  | @cons n tree rest' sep htree hsep _ ih =>
    rw [List.append_assoc, List.cons_append, Nat.add_right_comm]
    exact .cons htree hsep ih

/-- A forest ends with a separator. -/
lemma isClosed (h : IsForest n code) : IsClosed code := by
  induction h with
  | nil => exact isClosed_nil
  | @cons n tree rest sep htree hsep hrest ih =>
    intro i hi
    rw [List.getLast?_append, List.getLast?_cons, Option.some_or, Option.mem_some_iff] at hi
    cases hlast : rest.getLast? with
    | none =>
      rw [hlast, Option.getD_none] at hi
      exact hi ▸ hsep
    | some j =>
      rw [hlast, Option.getD_some] at hi
      exact hi ▸ ih j hlast

end IsForest

lemma eq_nil_of_pieces_eq_nil {code : Code α} (h : pieces code = []) : code = [] := by
  cases code with
  | nil => rfl
  | cons i code =>
    rw [pieces_cons] at h
    cases h

/-- A closed buffer is empty, or it is a tree, a separator and another closed buffer. -/
@[elab_as_elim]
theorem IsClosed.induction {motive : (code : Code α) → IsClosed code → Prop}
    (nil : motive [] isClosed_nil)
    (cons : ∀ (tree : Code α) (sep : Instruction α) (rest : Code α)
      (_ : ∀ i ∈ tree, i.isSeparator = false) (_ : sep.isSeparator = true) (hrest : IsClosed rest)
      (h : IsClosed (tree ++ sep :: rest)), motive rest hrest → motive (tree ++ sep :: rest) h)
    {code : Code α} (h : IsClosed code) : motive code h := by
  induction hlength : code.length using Nat.strongRecOn generalizing code with
  | ind n ih =>
    cases hpieces : pieces code with
    | nil => exact eq_nil_of_pieces_eq_nil hpieces ▸ nil
    | cons tree trees =>
      have htree : ∀ i ∈ tree, i.isSeparator = false :=
        isSeparator_of_mem_pieces (hpieces ▸ List.mem_cons_self)
      obtain ⟨-, ⟨rfl, rfl⟩ | ⟨sep, rest, rfl, hsep, -⟩⟩ := eq_of_pieces_eq_cons hpieces
      · -- a buffer of one piece only does not end with a separator
        rcases List.eq_nil_or_concat code with rfl | ⟨front, i, rfl⟩
        · exact nil
        · have hlast := h i (by simp)
          rw [htree i (by simp)] at hlast
          cases hlast
      · have hrest : IsClosed rest := by
          rcases rest with - | ⟨i, rest⟩
          · exact isClosed_nil
          · rw [List.append_cons] at h
            exact (isClosed_append (List.cons_ne_nil i rest)).mp h
        refine cons tree sep rest htree hsep hrest h (ih _ ?_ hrest rfl)
        rw [← hlength, List.length_append, List.length_cons]
        omega

/-- What stands behind a closed buffer falls into its own trees. -/
lemma IsClosed.pieces_append {code : Code α} (h : IsClosed code) (rest : Code α) :
    pieces (code ++ rest) = pieces code ++ pieces rest := by
  induction h using IsClosed.induction with
  | nil => rw [pieces_nil, List.nil_append, List.nil_append]
  | cons tree sep closed htree hsep _ _ ih =>
    rw [List.append_assoc, List.cons_append, Code.pieces_append htree hsep,
      Code.pieces_append htree hsep, ih, List.cons_append]

lemma separators_append (a b : Code α) : (a ++ b).separators = a.separators + b.separators :=
  List.countP_append

lemma separators_eq_zero {code : Code α} (h : ∀ i ∈ code, i.isSeparator = false) :
    code.separators = 0 :=
  List.countP_eq_zero.mpr fun i hi => by simp [h i hi]

/-- A closed buffer has as many trees as separators. -/
lemma IsClosed.length_pieces {code : Code α} (h : IsClosed code) :
    (pieces code).length = code.separators := by
  induction h using IsClosed.induction with
  | nil =>
    rw [pieces_nil]
    rfl
  | cons tree sep rest htree hsep _ _ ih =>
    rw [Code.pieces_append htree hsep, List.length_cons, ih, separators_append,
      separators_eq_zero htree, Nat.zero_add]
    exact (List.countP_cons_of_pos hsep).symm

lemma IsForest.separators_eq {n : Nat} {code : Code α} (h : IsForest n code) :
    code.separators = n := by
  rw [← h.isClosed.length_pieces, h.pieces_eq.1]

/-! ### Operands within a tree -/

/-- Every tree behind the first one has the operands of all its nodes in its own code. -/
def FindsOperands (code : Code α) : Prop := ∀ tree ∈ (pieces code).tail, residualDepth tree ≠ none

lemma findsOperands_of_isWellFormed {code : Code α}
    (h : ∀ tree ∈ pieces code, tree.isWellFormed = true) : FindsOperands code := by
  intro tree htree
  rw [(isWellFormed_iff.mp (h tree (List.mem_of_mem_tail htree))).2]
  exact Option.some_ne_none 1

lemma IsForest.findsOperands {n : Nat} {code : Code α} (h : IsForest n code) : FindsOperands code :=
  findsOperands_of_isWellFormed h.pieces_eq.2

/-- Only a tree at the start of the buffer need not find its operands. -/
lemma FindsOperands.tree {before rest tree : Code α} {trees : List (Code α)}
    (h : FindsOperands (before ++ rest)) (hbefore : IsClosed before)
    (hpieces : pieces rest = tree :: trees) : before = [] ∨ residualDepth tree ≠ none := by
  rcases before with - | ⟨i, before⟩
  · exact .inl rfl
  · refine .inr (h tree ?_)
    rw [hbefore.pieces_append, pieces_cons, List.cons_append, List.tail_cons, hpieces]
    exact List.mem_append_right _ List.mem_cons_self

/-- A closed buffer of well-formed pieces is a forest. -/
lemma isForest_of_pieces {code : Code α} (hclosed : IsClosed code)
    (htrees : ∀ tree ∈ pieces code, tree.isWellFormed = true) :
    IsForest (pieces code).length code := by
  induction hclosed using IsClosed.induction with
  | nil =>
    rw [pieces_nil]
    exact .nil
  | cons tree sep rest hseparators hsep _ _ ih =>
    rw [pieces_append hseparators hsep] at htrees ⊢
    obtain ⟨htree, htrees⟩ := List.forall_mem_cons.mp htrees
    exact .cons htree hsep (ih htrees)

/-- A separator behind the last tree makes no other tree. -/
lemma pieces_concat {code : Code α} {sep : Instruction α} (hsep : sep.isSeparator = true)
    (hcode : ¬IsClosed code) : pieces (code ++ [sep]) = pieces code := by
  induction hpieces : pieces code generalizing code with
  | nil =>
    obtain rfl := eq_nil_of_pieces_eq_nil hpieces
    exact absurd isClosed_nil hcode
  | cons tree trees ih =>
    have htree : ∀ i ∈ tree, i.isSeparator = false :=
      isSeparator_of_mem_pieces (hpieces ▸ List.mem_cons_self)
    obtain ⟨-, ⟨rfl, rfl⟩ | ⟨first, rest, rfl, hfirst, hrest⟩⟩ := eq_of_pieces_eq_cons hpieces
    · rw [pieces_append htree hsep, pieces_nil]
    · have hopen : ¬IsClosed rest := by
        intro hclosed
        refine hcode ?_
        cases rest with
        | nil => exact (isClosed_append (by simp)).mpr (by simpa [IsClosed] using hfirst)
        | cons i rest =>
          rw [List.append_cons]
          exact (isClosed_append (by simp)).mpr hclosed
      rw [List.append_assoc, List.cons_append, pieces_append htree hfirst, ih hopen hrest]

/-! ### One scan over all trees -/

/-- The depth of the stack behind an instruction of a forest.  A separator needs a stack of one
value and takes it away. -/
def depthBehind (d : Nat) (i : Instruction α) : Option Nat :=
  if i.isSeparator then if d = 1 then some 0 else none else depthAfter d i

/-- The depth of the stack behind a part of a forest. -/
def depthThrough (d : Nat) : Code α → Option Nat
  | [] => some d
  | i :: rest => (depthBehind d i).bind fun e => depthThrough e rest

@[simp]
lemma depthThrough_nil (d : Nat) : depthThrough d ([] : Code α) = some d := rfl

@[simp]
lemma depthThrough_cons (d : Nat) (i : Instruction α) (rest : Code α) :
    depthThrough d (i :: rest) = (depthBehind d i).bind fun e => depthThrough e rest := rfl

lemma depthThrough_append (d : Nat) (a b : Code α) :
    depthThrough d (a ++ b) = (depthThrough d a).bind fun e => depthThrough e b := by
  induction a generalizing d with
  | nil => rfl
  | cons i rest ih =>
    simp only [List.cons_append, depthThrough_cons, Option.bind_assoc]
    congr 1
    funext e
    exact ih e

lemma depthThrough_concat (d : Nat) (code : Code α) (i : Instruction α) :
    depthThrough d (code ++ [i]) = (depthThrough d code).bind fun e => depthBehind e i := by
  rw [depthThrough_append]
  congr 1
  funext e
  rw [depthThrough_cons]
  cases depthBehind e i <;> rfl

lemma depthBehind_of_not_isSeparator {i : Instruction α} (h : i.isSeparator = false) (d : Nat) :
    depthBehind d i = depthAfter d i := by
  simp [depthBehind, h]

/-- Inside a tree the scan follows the stack. -/
lemma depthThrough_eq {code : Code α} (h : ∀ i ∈ code, i.isSeparator = false) (d : Nat) :
    depthThrough d code = depthFrom d code := by
  induction code generalizing d with
  | nil => rfl
  | cons i rest ih =>
    obtain ⟨hi, hrest⟩ := List.forall_mem_cons.mp h
    simp only [depthThrough_cons, depthFrom_cons, depthBehind_of_not_isSeparator hi]
    congr 1
    funext e
    exact ih hrest e

lemma IsForest.depthThrough_eq {n : Nat} {code : Code α} (h : IsForest n code) :
    depthThrough 0 code = some 0 := by
  induction h with
  | nil => rfl
  | @cons n tree rest sep htree hsep hrest ih =>
    obtain ⟨hseparators, hdepth⟩ := isWellFormed_iff.mp htree
    have hsep' : depthBehind 1 sep = some 0 := by simp [depthBehind, hsep]
    rw [depthThrough_append, Code.depthThrough_eq hseparators]
    show (residualDepth tree).bind _ = _
    rw [hdepth, Option.bind_some, depthThrough_cons, hsep', Option.bind_some, ih]

/-- The front of a tree and the rest of a buffer that the scan finds to be closed. -/
lemma isForest_of_depthThrough {front code : Code α} {d : Nat}
    (hfront : ∀ i ∈ front, i.isSeparator = false) (hd : depthFrom 0 front = some d)
    (hcode : depthThrough d code = some 0) (hclosed : IsClosed (front ++ code)) :
    IsForest code.separators (front ++ code) := by
  induction code generalizing front d with
  | nil =>
    rw [List.append_nil] at hclosed ⊢
    rcases List.eq_nil_or_concat front with rfl | ⟨front, i, rfl⟩
    · exact .nil
    · have := hclosed i (by simp)
      rw [hfront i (by simp)] at this
      cases this
  | cons i rest ih =>
    obtain ⟨e, he, hrest⟩ := Option.bind_eq_some_iff.mp hcode
    have hnone : ∀ i ∈ ([] : Code α), i.isSeparator = false := nofun
    by_cases hi : i.isSeparator = true
    · -- the separator ends the tree in front, and the next one starts with an empty stack
      have hd' : d = 1 ∧ e = 0 := by
        simp only [depthBehind, hi, if_true] at he
        split at he
        · cases he
          exact ⟨‹_›, rfl⟩
        · cases he
      obtain ⟨rfl, rfl⟩ := hd'
      have hrestClosed : IsClosed rest := by
        cases rest with
        | nil => exact isClosed_nil
        | cons j rest =>
          rw [isClosed_append (by simp), ← List.singleton_append, isClosed_append (by simp)]
            at hclosed
          exact hclosed
      have htail := ih hnone rfl hrest hrestClosed
      rw [separators, List.countP_cons_of_pos hi]
      exact .cons (isWellFormed_iff.mpr ⟨hfront, hd⟩) hi htail
    · -- any other instruction belongs to the tree in front
      have hi : i.isSeparator = false := eq_false_of_ne_true hi
      rw [separators, List.countP_cons_of_neg (by simp [hi]), List.append_cons]
      refine ih ?_ ?_ hrest (by rwa [← List.append_cons])
      · intro j hj
        rcases List.mem_append.mp hj with hj | hj
        · exact hfront j hj
        · rwa [List.mem_singleton.mp hj]
      · rw [depthFrom_concat, hd, Option.bind_some, ← depthBehind_of_not_isSeparator hi, he]

/-- **A buffer is a forest exactly if one scan finds one value behind each tree and the buffer ends
with a separator.** -/
theorem isForest_iff {n : Nat} {code : Code α} :
    IsForest n code ↔ depthThrough 0 code = some 0 ∧ IsClosed code ∧ code.separators = n := by
  constructor
  · intro h
    exact ⟨h.depthThrough_eq, h.isClosed, h.separators_eq⟩
  · rintro ⟨hdepth, hclosed, rfl⟩
    have hnone : ∀ i ∈ ([] : Code α), i.isSeparator = false := nofun
    exact isForest_of_depthThrough hnone rfl hdepth hclosed

/-! ### A last tree that is not closed -/

/-- Trees that are well formed are a forest once the last of them is closed. -/
lemma exists_closing {code : Code Float} (h : ∀ tree ∈ pieces code, tree.isWellFormed = true) :
    ∃ tail, (tail = [] ∨ tail = [Instruction.separator]) ∧
      IsForest (pieces code).length (code ++ tail) := by
  by_cases hclosed : IsClosed code
  · exact ⟨[], .inl rfl, by rw [List.append_nil]; exact isForest_of_pieces hclosed h⟩
  · have hpieces := pieces_concat Instruction.isSeparator_separator hclosed
    have hend : IsClosed (code ++ [Instruction.separator]) :=
      (isClosed_append (by simp)).mpr (by simp [IsClosed])
    refine ⟨_, .inr rfl, ?_⟩
    rw [← hpieces] at h ⊢
    exact isForest_of_pieces hend h

/-- In front of the last separator of a forest the last tree is not closed. -/
lemma IsForest.not_isClosed {n : Nat} {code : Code α} {sep : Instruction α}
    (h : IsForest n (code ++ [sep])) (hsep : sep.isSeparator = true) : ¬IsClosed code := by
  -- one value is on the stack there, but none behind a separator
  have hdepth : ∀ {code : Code α} {i : Instruction α} {e : Nat}, i.isSeparator = true →
      depthThrough 0 (code ++ [i]) = some e → depthThrough 0 code = some 1 ∧ e = 0 := by
    intro code i e hi h
    rw [depthThrough_concat] at h
    obtain ⟨d, hd, h⟩ := Option.bind_eq_some_iff.mp h
    rw [depthBehind, if_pos hi, Option.ite_none_right_eq_some, Option.some.injEq] at h
    exact ⟨h.1 ▸ hd, h.2.symm⟩
  obtain ⟨hone, -⟩ := hdepth hsep h.depthThrough_eq
  intro hclosed
  rcases List.eq_nil_or_concat code with rfl | ⟨code, i, rfl⟩
  · cases hone
  · rw [List.concat_eq_append] at hone hclosed
    exact absurd (hdepth (hclosed i (by simp)) hone).2 Nat.one_ne_zero

/-- Whether its last tree is closed does not matter for the trees of a forest. -/
lemma IsForest.pieces_of_closing {n : Nat} {code tail : Code Float}
    (htail : tail = [] ∨ tail = [Instruction.separator]) (h : IsForest n (code ++ tail)) :
    (pieces code).length = n ∧ ∀ tree ∈ pieces code, tree.isWellFormed = true := by
  rcases htail with rfl | rfl
  · rw [List.append_nil] at h
    exact h.pieces_eq
  · have hsep : (Instruction.separator : Instruction Float).isSeparator = true :=
      Instruction.isSeparator_separator
    rw [← pieces_concat hsep (h.not_isClosed hsep)]
    exact h.pieces_eq

end Code

namespace Forest

/-- The trees of a forest are the pieces of its buffer. -/
lemma treeCodes_eq (f : Forest α) : f.treeCodes = f.code.pieces := Code.map_slice_treesFrom rfl

lemma length_trees (f : Forest α) : f.trees.length = f.code.pieces.length := by
  rw [← treeCodes_eq, treeCodes, List.length_map]

/-- What holds of the whole buffer holds of the trees of a forest. -/
lemma forall_mem_treeCodes {f : Forest α} {P : Instruction α → Prop}
    (h : ∀ i ∈ f.code, P i) : ∀ tree ∈ f.treeCodes, ∀ i ∈ tree, P i := by
  intro tree htree i hi
  rw [treeCodes_eq] at htree
  exact h i (Code.mem_of_mem_pieces htree i hi)

variable [Scalar α]

/-- Closing a buffer closes it. -/
lemma isClosed_closed (code : Code α) : Code.IsClosed (closed code) := by
  rw [closed]
  split
  · exact (Code.isClosed_append (by simp)).mpr (by simp [Code.IsClosed])
  · rename_i h
    intro i hi
    rw [isUnclosed, Option.mem_def.mp hi] at h
    simpa using h

/-- A forest whose last tree is closed is built of its own instructions. -/
lemma ofCode_of_isForest {n : Nat} {code : Code α} (h : Code.IsForest n code) (records : Nat) :
    (ofCode records code).code = code ∧ (ofCode records code).outputs = n := by
  have hclosed : closed code = code := by
    rw [closed, h.isClosed.isUnclosed_eq, if_neg Bool.false_ne_true]
  exact ⟨hclosed, (congrArg Code.separators hclosed).trans h.separators_eq⟩

end Forest

end FuzzyForest
