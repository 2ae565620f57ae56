/-
Drawings of trees.

A drawing is made with a stack of positions of its own.  On a well-formed tree without aggregates
this stack holds the roots of the subtrees that end before the present position, so that the
children of a node are the roots of its operands, as the search for subtrees delimits them.  The
edges of a drawing and what is left on the stack make up all positions of nodes, each once: a single
position is left, so that the drawing is a tree.
-/
import FuzzyForest.Proofs.DotTexts
import FuzzyForest.Proofs.NestedSpans

namespace FuzzyForest

/-! ### Operands -/

namespace Code

/-- The roots of operands in front of a position, nearest first, and where the last operand starts.
Each operand ends at the nearest live instruction in front of the start of the one before. -/
inductive Operands {α : Type} (code : Code α) : (stop : ℕ) → (roots : List ℕ) → (start : ℕ) → Prop
  /-- There are no operands. -/
  | nil (stop : ℕ) : Operands code stop [] stop
  /-- The nearest operand, and others in front of its start. -/
  | cons {stop root left start : ℕ} {node : Instruction α} {roots : List ℕ}
      (hroot : liveBefore? code stop = some root) (hnode : code[root]? = some node)
      (hleft : subtreeStart? code root node.arity = some left)
      (hrest : Operands code left roots start) : Operands code stop (root :: roots) start

section

variable {α : Type} {code : Code α} {stop start : ℕ} {roots below : List ℕ}

lemma isLive_of_liveBefore? {n i : ℕ} {node : Instruction α} (h : liveBefore? code n = some i)
    (hnode : code[i]? = some node) : node.isLive = true := by
  induction n with
  | zero => cases h
  | succ n ih =>
    rw [liveBefore?] at h
    split at h
    · rename_i hlive
      cases h
      rwa [hnode] at hlive
    · exact ih h

lemma subtreeStart?_le {right arity : ℕ} (h : subtreeStart? code right arity = some start) :
    start ≤ right := by
  simp only [subtreeStart?] at h
  split at h
  · cases h
    exact Nat.sub_le _ _
  · split at h
    · cases h
      exact Nat.le_refl _
    · split at h
      · cases h
      · split at h <;> cases h <;> exact Nat.sub_le _ _

namespace Operands

/-- Operands stand in front of the position. -/
lemma lt (h : Operands code stop roots start) : ∀ root ∈ roots, root < stop := by
  induction h with
  | nil => exact List.forall_mem_nil _
  | cons hroot _ hleft _ ih =>
    have hlt := liveBefore?_lt hroot
    have hle := subtreeStart?_le hleft
    exact List.forall_mem_cons.mpr ⟨hlt, fun i hi => by have := ih i hi; omega⟩

/-- The first operands end where the others begin. -/
lemma split (h : Operands code stop (roots ++ below) start) :
    ∃ middle, Operands code stop roots middle ∧ Operands code middle below start := by
  induction roots generalizing stop with
  | nil => exact ⟨stop, .nil stop, h⟩
  | cons root roots ih =>
    cases h with
    | cons hroot hnode hleft hrest =>
      obtain ⟨middle, hfirst, hothers⟩ := ih hrest
      exact ⟨middle, .cons hroot hnode hleft hfirst, hothers⟩

/-- An instruction that takes no part in a rule leaves the operands alone. -/
lemma skip {n : ℕ} {node : Instruction α} (hnode : code[n]? = some node)
    (hl : node.isLive = false) (h : Operands code n roots start) :
    ∃ start, Operands code (n + 1) roots start := by
  have hnext := liveBefore?_succ hnode
  rw [hl, if_neg Bool.false_ne_true] at hnext
  cases h with
  | nil => exact ⟨_, .nil _⟩
  | cons hroot hnode hleft hrest => exact ⟨_, .cons (hnext.trans hroot) hnode hleft hrest⟩

end Operands

end

/-! ### Operands in a tree -/

section Tree

variable {code : Code Float} (htree : code.isWellFormed = true)
  (ha : ∀ i ∈ code, i.isAggregate = false) (hwords : code.length < UInt64.size)

include htree hwords

lemma subtreeStart?_tree {i : ℕ} {node : Instruction Float} (hnode : code[i]? = some node)
    (hl : node.isLive = true) : code.subtreeStart? i node.arity = some (leftOf code i) := by
  have hstands : Forest.StandsIn code code 0 code.length :=
    ⟨⟨[], [], by simp, isClosed_nil, rfl⟩, (Nat.zero_add _).symm⟩
  simpa only [Nat.zero_add] using hstands.subtreeStart?_eq htree hwords hnode hl

include ha

/-- So many operands reach back as far as a walk over them does. -/
lemma Operands.start_eq {stop start : ℕ} {roots : List ℕ} (h : Operands code stop roots start)
    (hstop : stop ≤ code.length) : start = leftFrom code stop roots.length := by
  have hplain := isPlain_of_isWellFormed htree ha
  induction h with
  | nil stop => exact (leftFrom_zero code stop).symm
  | @cons stop root left start node roots hroot hnode hleft hrest ih =>
    have hl : node.isLive = true := isLive_of_liveBefore? hroot hnode
    rw [subtreeStart?_tree htree hwords hnode hl, Option.some.injEq] at hleft
    have hle : left ≤ code.length := by
      have := liveBefore?_lt hroot
      have := leftOf_le code root
      omega
    rw [ih hle, ← hleft, List.length_cons, leftFrom_succ hplain hstop hroot]

/-- A node takes the nearest operands and is one itself from then on. -/
lemma Operands.push {n start : ℕ} {node : Instruction Float} {roots below : List ℕ}
    (h : Operands code n (roots ++ below) start) (hnode : code[n]? = some node)
    (hl : node.isLive = true) (hroots : roots.length = node.arity) :
    ∃ left, code.subtreeStart? n node.arity = some left ∧ Operands code n roots left ∧
      Operands code (n + 1) (n :: below) start := by
  obtain ⟨hlt, -⟩ := List.getElem?_eq_some_iff.mp hnode
  obtain ⟨left, hoperands, hbelow⟩ := h.split
  -- the subtree of the node starts where its last operand does
  have hleft : code.subtreeStart? n node.arity = some left := by
    rw [subtreeStart?_tree htree hwords hnode hl,
      leftOf_eq hnode (ha node (List.mem_of_getElem? hnode)), ← hroots,
      ← hoperands.start_eq htree ha hwords (Nat.le_of_lt hlt)]
  have hroot : liveBefore? code (n + 1) = some n := by rw [liveBefore?_succ hnode, if_pos hl]
  exact ⟨left, hleft, hoperands, .cons hroot hnode hleft hbelow⟩

end Tree

end Code

/-! ### Nodes and edges -/

namespace Graph

open Code (Operands depthAfter depthFrom)

section

variable {α : Type}

/-- The edges of a drawing, from parents to children. -/
def edges (g : Graph α) : List (ℕ × ℕ) :=
  g.flatMap fun node => node.children.map fun child => (node.index, child)

/-- What is left on the stack of positions. -/
def stackFrom (index : ℕ) (stack : List ℕ) : Code α → List ℕ
  | [] => stack
  | i :: rest =>
    if i.isLive then stackFrom (index + 1) (index :: stack.drop i.arity) rest
    else stackFrom (index + 1) stack rest

/-- A node stands for an instruction of the code, and its children are the roots of the operands. -/
structure IsDrawn (code : Code α) (node : GraphNode α) : Prop where
  count : node.children.length = node.label.arity
  operands : ∃ start, code.subtreeStart? node.index node.label.arity = some start ∧
    Operands code node.index node.children start

/-- A drawing is a tree with its root at the last node: no edge leads to the root, one edge leads to
each other node, and all nodes can be reached from the root. -/
structure IsTree (g : Graph α) (root : GraphNode α) : Prop where
  last : g.getLast? = some root
  nodup : (g.map GraphNode.index).Nodup
  inside : ∀ edge ∈ g.edges, edge.1 ∈ g.map GraphNode.index ∧ edge.2 ∈ g.map GraphNode.index
  root_not_target : root.index ∉ g.edges.map Prod.snd
  target_once : ∀ node ∈ g, node.index ≠ root.index →
    (g.edges.map Prod.snd).count node.index = 1
  reachable : ∀ node ∈ g,
    Relation.ReflTransGen (fun i j => (i, j) ∈ g.edges) root.index node.index

variable {code : Code α} {index : ℕ} {stack : List ℕ} {i : Instruction α}

lemma nodesFrom_live (hl : i.isLive = true) (rest : Code α) :
    nodesFrom index stack (i :: rest) = ⟨index, i, stack.take i.arity⟩ ::
      nodesFrom (index + 1) (index :: stack.drop i.arity) rest :=
  if_pos hl

lemma nodesFrom_skip (hl : i.isLive = false) (rest : Code α) :
    nodesFrom index stack (i :: rest) = nodesFrom (index + 1) stack rest :=
  if_neg (by simp [hl])

lemma stackFrom_live (hl : i.isLive = true) (rest : Code α) :
    stackFrom index stack (i :: rest) = stackFrom (index + 1) (index :: stack.drop i.arity) rest :=
  if_pos hl

lemma stackFrom_skip (hl : i.isLive = false) (rest : Code α) :
    stackFrom index stack (i :: rest) = stackFrom (index + 1) stack rest :=
  if_neg (by simp [hl])

lemma snd_edges (g : Graph α) : g.edges.map Prod.snd = g.flatMap GraphNode.children := by
  simp [edges, List.map_flatMap, Function.comp_def]

lemma mem_edges {g : Graph α} {parent child : ℕ} :
    (parent, child) ∈ g.edges ↔ ∃ node ∈ g, node.index = parent ∧ child ∈ node.children := by
  simp only [edges, List.mem_flatMap, List.mem_map, Prod.mk.injEq]
  constructor
  · rintro ⟨node, hnode, _, hchild, hparent, rfl⟩
    exact ⟨node, hnode, hparent, hchild⟩
  · rintro ⟨node, hnode, hparent, hchild⟩
    exact ⟨node, hnode, child, hchild, hparent, rfl⟩

/-- **The nodes are the live instructions at their positions.** -/
theorem nodesFrom_eq (index : ℕ) (stack : List ℕ) (code : Code α) :
    (nodesFrom index stack code).map (fun node => (node.label, node.index))
      = (code.zipIdx index).filter fun p => p.1.isLive := by
  induction code generalizing index stack with
  | nil => rfl
  | cons i rest ih =>
    cases hl : i.isLive with
    | true => rw [nodesFrom_live hl, List.map_cons, ih, List.zipIdx_cons,
        List.filter_cons_of_pos (by simpa using hl)]
    | false => rw [nodesFrom_skip hl, ih, List.zipIdx_cons,
        List.filter_cons_of_neg (by simp [hl])]

/-- Different nodes stand at different positions. -/
lemma nodup_index (code : Code α) : ((ofCode code).map GraphNode.index).Nodup := by
  have hpositions : (ofCode code).map GraphNode.index
      = (code.zipIdx.filter fun p => p.1.isLive).map Prod.snd := by
    rw [← nodesFrom_eq 0 [] code, List.map_map]
    rfl
  have hall : (code.zipIdx.map Prod.snd).Nodup := by
    rw [List.zipIdx_map_snd]
    exact List.nodup_range'
  rw [hpositions]
  exact hall.sublist (List.filter_sublist.map _)

lemma index_lt {node : GraphNode α} (h : node ∈ ofCode code) : node.index < code.length := by
  have hmem := List.mem_map_of_mem (f := fun node => (node.label, node.index)) h
  rw [ofCode, nodesFrom_eq] at hmem
  exact List.snd_lt_of_mem_zipIdx (List.mem_of_mem_filter hmem)

/-- **Every position is a child once or is left on the stack.** -/
theorem children_append_stackFrom (index : ℕ) (stack : List ℕ) (code : Code α) :
    ((nodesFrom index stack code).flatMap GraphNode.children ++ stackFrom index stack code).Perm
      (stack ++ (nodesFrom index stack code).map GraphNode.index) := by
  induction code generalizing index stack with
  | nil => simp [nodesFrom, stackFrom]
  | cons i rest ih =>
    cases hl : i.isLive with
    | false =>
      rw [nodesFrom_skip hl, stackFrom_skip hl]
      exact ih (index + 1) stack
    | true =>
      rw [nodesFrom_live hl, stackFrom_live hl, List.flatMap_cons, List.map_cons, List.append_assoc]
      refine ((ih (index + 1) (index :: stack.drop i.arity)).append_left _).trans ?_
      -- the children go back to where the stack had them
      generalize (nodesFrom (index + 1) (index :: stack.drop i.arity) rest).map GraphNode.index
        = more
      have hparts : stack ++ index :: more
          = stack.take i.arity ++ (stack.drop i.arity ++ index :: more) := by
        rw [← List.append_assoc, List.take_append_drop]
      rw [hparts]
      exact List.perm_middle.symm.append_left _

/-- The last node is on top of the stack. -/
lemma head?_stackFrom (index : ℕ) (stack : List ℕ) (code : Code α) :
    (stackFrom index stack code).head?
      = ((nodesFrom index stack code).getLast?.map GraphNode.index).or stack.head? := by
  induction code generalizing index stack with
  | nil => rfl
  | cons i rest ih =>
    cases hl : i.isLive with
    | false => rw [nodesFrom_skip hl, stackFrom_skip hl, ih]
    | true =>
      rw [nodesFrom_live hl, stackFrom_live hl, ih, List.getLast?_cons]
      cases (nodesFrom (index + 1) (index :: stack.drop i.arity) rest).getLast? <;> rfl

/-- The stack of positions is as high as the stack of values. -/
lemma length_stackFrom (ha : ∀ i ∈ code, i.isAggregate = false) {d : ℕ}
    (h : depthFrom stack.length code = some d) (index : ℕ) :
    (stackFrom index stack code).length = d := by
  induction code generalizing index stack with
  | nil => exact Option.some.inj h
  | cons i rest ih =>
    obtain ⟨hi, hrest⟩ := List.forall_mem_cons.mp ha
    obtain ⟨e, he, h⟩ := Option.bind_eq_some_iff.mp (Code.depthFrom_cons _ i rest ▸ h)
    cases hl : i.isLive with
    | false =>
      rw [Code.depthAfter_of_not_isLive hl, Option.some.injEq] at he
      rw [stackFrom_skip hl]
      exact ih hrest (he ▸ h) _
    | true =>
      obtain ⟨below, hbelow, rfl⟩ := (Code.depthAfter_eq_some_iff hl hi).mp he
      rw [stackFrom_live hl]
      refine ih hrest ?_ _
      rwa [List.length_cons, List.length_drop, hbelow, Nat.add_sub_cancel]

end

/-! ### Trees -/

section Tree

variable {code : Code Float} (htree : code.isWellFormed = true)
  (ha : ∀ i ∈ code, i.isAggregate = false) (hwords : code.length < UInt64.size)

include htree ha hwords

/-- On a tree the stack of positions holds the roots of operands, and every node takes its own. -/
lemma isDrawn_nodesFrom {n d : ℕ} {rest : Code Float} {stack : List ℕ} (hrest : code.drop n = rest)
    (hstack : ∃ start, Operands code n stack start)
    (hdepth : depthFrom stack.length rest = some d) :
    ∀ node ∈ nodesFrom n stack rest, IsDrawn code node := by
  induction rest generalizing n stack with
  | nil => exact List.forall_mem_nil _
  | cons i rest ih =>
    obtain ⟨start, hoperands⟩ := hstack
    have hnode : code[n]? = some i := by
      rw [← Nat.add_zero n, ← List.getElem?_drop, hrest, List.getElem?_cons_zero]
    have hnext : code.drop (n + 1) = rest := by
      rw [← List.drop_drop, hrest, List.drop_one, List.tail_cons]
    obtain ⟨e, he, hdepth⟩ := Option.bind_eq_some_iff.mp (Code.depthFrom_cons _ i rest ▸ hdepth)
    cases hl : i.isLive with
    | false =>
      rw [Code.depthAfter_of_not_isLive hl, Option.some.injEq] at he
      rw [nodesFrom_skip hl]
      exact ih hnext (hoperands.skip hnode hl) (he ▸ hdepth)
    | true =>
      obtain ⟨below, hbelow, rfl⟩ :=
        (Code.depthAfter_eq_some_iff hl (ha i (List.mem_of_getElem? hnode))).mp he
      have hcount : (stack.take i.arity).length = i.arity := by
        rw [List.length_take]
        omega
      rw [← List.take_append_drop i.arity stack] at hoperands
      obtain ⟨left, hleft, hchildren, hpushed⟩ :=
        hoperands.push htree ha hwords hnode hl hcount
      rw [nodesFrom_live hl]
      refine List.forall_mem_cons.mpr ⟨⟨hcount, left, hleft, hchildren⟩,
        ih hnext ⟨start, hpushed⟩ ?_⟩
      rwa [List.length_cons, List.length_drop, hbelow, Nat.add_sub_cancel]

lemma isDrawn_ofCode : ∀ node ∈ ofCode code, IsDrawn code node :=
  isDrawn_nodesFrom htree ha hwords List.drop_zero ⟨0, .nil 0⟩ (Code.isWellFormed_iff.mp htree).2

omit hwords in
/-- The root of a tree is left on the stack, and all other nodes are children. -/
lemma exists_root : ∃ front root, ofCode code = front ++ [root] ∧
    ((ofCode code).flatMap GraphNode.children).Perm (front.map GraphNode.index) := by
  have hdepth : depthFrom ([] : List ℕ).length code = some 1 := (Code.isWellFormed_iff.mp htree).2
  obtain ⟨top, htop⟩ := List.length_eq_one_iff.mp (length_stackFrom ha hdepth 0)
  have hhead := head?_stackFrom 0 [] code
  rw [htop, List.head?_cons, List.head?_nil, Option.or_none, eq_comm,
    Option.map_eq_some_iff] at hhead
  obtain ⟨root, hlast, rfl⟩ := hhead
  obtain ⟨front, hfront⟩ := List.getLast?_eq_some_iff.mp hlast
  have hperm := children_append_stackFrom 0 [] code
  rw [htop] at hperm
  refine ⟨front, root, hfront, ?_⟩
  have hmap : (nodesFrom 0 [] code).map GraphNode.index
      = front.map GraphNode.index ++ [root.index] := by rw [hfront, List.map_append]; rfl
  rw [List.nil_append, hmap] at hperm
  exact (List.perm_append_right_iff [root.index]).mp hperm

/-- All nodes can be reached from the root: the way back leads from a child to its parent, which
stands behind it. -/
lemma reachable_ofCode {front : Graph Float} {root : GraphNode Float}
    (hfront : ofCode code = front ++ [root])
    (hperm : ((ofCode code).flatMap GraphNode.children).Perm (front.map GraphNode.index))
    {node : GraphNode Float} (hnode : node ∈ ofCode code) :
    Relation.ReflTransGen (fun i j => (i, j) ∈ (ofCode code).edges) root.index node.index := by
  induction h : code.length - node.index using Nat.strongRecOn generalizing node with
  | ind n ih =>
    have hmem := hnode
    rw [hfront, List.mem_append, List.mem_singleton] at hmem
    rcases hmem with hmem | rfl
    · have htarget := hperm.mem_iff.mpr (List.mem_map_of_mem (f := GraphNode.index) hmem)
      obtain ⟨parent, hparent, hchild⟩ := List.mem_flatMap.mp htarget
      have hedge : (parent.index, node.index) ∈ (ofCode code).edges :=
        mem_edges.mpr ⟨parent, hparent, rfl, hchild⟩
      obtain ⟨start, -, hoperands⟩ := (isDrawn_ofCode htree ha hwords parent hparent).operands
      have hlt := hoperands.lt node.index hchild
      have hinside := index_lt hparent
      exact (ih _ (by omega) hparent rfl).tail hedge
    · exact .refl

/-- **The drawing of a tree is a tree.** -/
theorem exists_isTree : ∃ root, IsTree (ofCode code) root := by
  obtain ⟨front, root, hfront, hperm⟩ := exists_root htree ha
  have hnodup := nodup_index code
  have hmap : (ofCode code).map GraphNode.index = front.map GraphNode.index ++ [root.index] := by
    rw [hfront, List.map_append]
    rfl
  rw [hmap] at hnodup
  obtain ⟨hfrontNodup, -, hdisjoint⟩ := List.nodup_append.mp hnodup
  refine ⟨root, ?_, nodup_index code, ?_, ?_, ?_, fun node hnode => ?_⟩
  · rw [hfront, List.getLast?_concat]
  · rintro ⟨parent, child⟩ hedge
    obtain ⟨node, hnode, rfl, hchild⟩ := mem_edges.mp hedge
    have htarget := hperm.mem_iff.mp (List.mem_flatMap.mpr ⟨node, hnode, hchild⟩)
    exact ⟨List.mem_map_of_mem hnode, hmap ▸ List.mem_append_left _ htarget⟩
  · rw [snd_edges, hperm.mem_iff]
    exact fun hmem => hdisjoint _ hmem _ (List.mem_singleton_self _) rfl
  · intro node hnode hne
    rw [snd_edges, hperm.count_eq]
    refine List.count_eq_one_of_mem hfrontNodup ?_
    have hmem := List.mem_map_of_mem (f := GraphNode.index) hnode
    rw [hmap, List.mem_append, List.mem_singleton] at hmem
    exact hmem.resolve_right hne
  · exact reachable_ofCode htree ha hwords hfront hperm hnode

/-- No node of a tree lacks an operand. -/
lemma unbalanced_ofCode : (ofCode code).unbalanced = [] := by
  rw [unbalanced, List.flatMap_eq_nil_iff]
  intro node hnode
  rw [(isDrawn_ofCode htree ha hwords node hnode).count, Nat.sub_self, List.replicate_zero]

end Tree

/-- **A tree is drawn as the expression that it is.**  The nodes of the drawing are the live
instructions with their positions.  Every node has as many children as operands, and these are the
roots of its operands as the search for subtrees delimits them, the nearest one first; where the
last of them starts its own subtree does.  The drawing is a tree with its root at the last node, and
nothing in it is found to be unbalanced.  What is written is a statement for every node with its
label, each followed by one for every edge from the node to a child; no drawing of other nodes or
edges has the same text. -/
theorem ofCode_draws_expression {code : Code Float} (htree : code.isWellFormed = true)
    (ha : ∀ i ∈ code, i.isAggregate = false) (hwords : code.length < UInt64.size) :
    let g := ofCode code
    g.map (fun node => (node.label, node.index)) = code.zipIdx.filter (fun p => p.1.isLive) ∧
      (∀ node ∈ g, IsDrawn code node) ∧ (∃ root, IsTree g root) ∧ g.unbalanced = [] ∧
      g.dot.toList = "digraph query \x7b ".toList ++ ((g.flatMap fun node =>
        .node node.index (node.label.tokenFixed 3).toList ::
          node.children.map (Statement.edge node.index)).flatMap Statement.text ++ ['\x7d']) ∧
      ∀ h : Graph Float, h.dot = g.dot → h.map shown = g.map shown :=
  ⟨nodesFrom_eq 0 [] code, isDrawn_ofCode htree ha hwords, exists_isTree htree ha hwords,
    unbalanced_ofCode htree ha hwords, toList_dot _, fun _ heq => dot_inj heq⟩

/-- The disjunction finds the conjunction, which passes over a placeholder, and the complement, and
so it is written. -/
theorem ofCode_draws_expression_disjunction :
    let code : Code Float := [.input 0 0.5, .plain .not 0.25, .input 1 0.5, .noOp,
      .pastInput 0 1 0.75, .plain .and 0.5, .plain .or 0.5]
    (ofCode code).map GraphNode.index = [0, 1, 2, 4, 5, 6] ∧
      (ofCode code).edges = [(1, 0), (5, 4), (5, 2), (6, 5), (6, 1)] ∧
      (∀ node ∈ ofCode code, IsDrawn code node) ∧ (∃ root, IsTree (ofCode code) root) ∧
      (ofCode code).unbalanced = [] ∧
      (ofCode code).dot = "digraph query \x7b 0 [ label = \"t0:0.500\" ]; "
        ++ "1 [ label = \"not:0.250\" ]; 1 -> 0; 2 [ label = \"t1:0.500\" ]; "
        ++ "4 [ label = \"t0[1]:0.750\" ]; 5 [ label = \"and:0.500\" ]; 5 -> 4; 5 -> 2; "
        ++ "6 [ label = \"or:0.500\" ]; 6 -> 5; 6 -> 1; \x7d" := by
  intro code
  have hformed : code.isWellFormed = true := by decide +kernel
  obtain ⟨-, hdrawn, htree, hbalanced, hwritten, -⟩ :=
    ofCode_draws_expression hformed (by decide +kernel) (by decide)
  refine ⟨rfl, rfl, hdrawn, htree, hbalanced, String.toList_inj.mp (hwritten.trans ?_)⟩
  decide +kernel

end Graph

end FuzzyForest
