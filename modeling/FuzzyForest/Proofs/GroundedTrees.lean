/-
Buffers whose walks stay in their trees.

A tree that finds its operands need not leave exactly one value.  The scan over such a buffer starts
every tree with an empty stack, whatever the one before has left; the first tree, which has nothing
in front of it to reach, starts with a stack that is high enough.  Without aggregates more values on
the stack do no harm, so that a subtree may give way to a tree even where it ends with the buffer.
-/
import FuzzyForest.Proofs.ArisingForests
import FuzzyForest.Proofs.KeptAggregates

namespace FuzzyForest

open Code (IsClosed)

namespace Code

variable {α : Type}

/-! ### The scan -/

/-- The depth of the stack behind an instruction of a buffer.  A separator takes away whatever is
left of its tree. -/
def groundBehind (d : Nat) (i : Instruction α) : Option Nat :=
  if i.isSeparator then some 0 else depthAfter d i

/-- The depth of the stack behind a part of a buffer. -/
def groundFrom (d : Nat) (code : Code α) : Option Nat := code.foldlM groundBehind d

@[simp]
lemma groundFrom_nil (d : Nat) : groundFrom d ([] : Code α) = some d := rfl

@[simp]
lemma groundFrom_cons (d : Nat) (i : Instruction α) (rest : Code α) :
    groundFrom d (i :: rest) = (groundBehind d i).bind fun e => groundFrom e rest := List.foldlM_cons

lemma groundFrom_append (d : Nat) (a b : Code α) :
    groundFrom d (a ++ b) = (groundFrom d a).bind fun e => groundFrom e b := List.foldlM_append

lemma groundFrom_concat (d : Nat) (code : Code α) (i : Instruction α) :
    groundFrom d (code ++ [i]) = (groundFrom d code).bind fun e => groundBehind e i := by
  rw [groundFrom_append]
  congr 1
  funext e
  rw [groundFrom_cons]
  cases groundBehind e i <;> rfl

/-- Inside a tree the scan follows the stack. -/
lemma groundFrom_eq {code : Code α} (h : ∀ i ∈ code, i.isSeparator = false) (d : Nat) :
    groundFrom d code = depthFrom d code := by
  induction code generalizing d with
  | nil => rfl
  | cons i rest ih =>
    obtain ⟨hi, hrest⟩ := List.forall_mem_cons.mp h
    have hbehind : groundBehind d i = depthAfter d i := by simp [groundBehind, hi]
    rw [groundFrom_cons, depthFrom_cons, hbehind]
    congr 1
    funext e
    exact ih hrest e

/-! ### More values on the stack -/

lemma groundBehind_mono {i : Instruction α} (ha : i.isAggregate = false) {d d' e : Nat}
    (hle : d ≤ d') (h : groundBehind d i = some e) :
    ∃ e', groundBehind d' i = some e' ∧ e ≤ e' := by
  rw [groundBehind] at h ⊢
  split at h
  · rename_i hs
    cases h
    exact ⟨0, if_pos hs, Nat.le_refl 0⟩
  · rename_i hs
    rw [if_neg hs]
    by_cases hl : i.isLive = true
    · obtain ⟨below, rfl, rfl⟩ := (depthAfter_eq_some_iff hl ha).mp h
      obtain ⟨more, rfl⟩ := Nat.exists_eq_add_of_le hle
      refine ⟨below + more + 1, ?_, by omega⟩
      rw [Nat.add_right_comm, depthAfter_add_arity hl ha]
    · rw [depthAfter_of_not_isLive (eq_false_of_ne_true hl)] at h ⊢
      cases h
      exact ⟨d', rfl, hle⟩

/-- Without aggregates, more values at the start leave no less at the end. -/
lemma groundFrom_mono {code : Code α} (ha : ∀ i ∈ code, i.isAggregate = false) {d d' e : Nat}
    (hle : d ≤ d') (h : groundFrom d code = some e) :
    ∃ e', groundFrom d' code = some e' ∧ e ≤ e' := by
  induction code generalizing d d' with
  | nil =>
    cases h
    exact ⟨d', rfl, hle⟩
  | cons i rest ih =>
    obtain ⟨hi, hrest⟩ := List.forall_mem_cons.mp ha
    rw [groundFrom_cons] at h
    obtain ⟨c, hc, h⟩ := Option.bind_eq_some_iff.mp h
    obtain ⟨c', hc', hle'⟩ := groundBehind_mono hi hle hc
    rw [groundFrom_cons, hc', Option.bind_some]
    exact ih hrest hle' h

/-- Some values are enough for all operands of a tree. -/
lemma exists_depthFrom {tree : Code α} (ha : ∀ i ∈ tree, i.isAggregate = false) {d : Nat}
    (hd : 2 * tree.length ≤ d) : ∃ e, depthFrom d tree = some e := by
  induction tree generalizing d with
  | nil => exact ⟨d, rfl⟩
  | cons i rest ih =>
    obtain ⟨hi, hrest⟩ := List.forall_mem_cons.mp ha
    rw [List.length_cons] at hd
    rw [depthFrom_cons]
    by_cases hl : i.isLive = true
    · have harity : i.arity ≤ 2 := i.opcode.arity_le_two
      rw [depthAfter_of_isLive hl hi, if_pos (by omega), Option.bind_some]
      exact ih hrest (by omega)
    · rw [depthAfter_of_not_isLive (eq_false_of_ne_true hl), Option.bind_some]
      exact ih hrest (by omega)

/-! ### Grounded buffers -/

/-- No aggregates, and the scan that starts with a stack of some depth finds all operands. -/
structure Grounded (depth : Nat) (code : Code α) : Prop where
  notAggregate : ∀ i ∈ code, i.isAggregate = false
  scan : ∃ e, groundFrom depth code = some e

/-- The scan over trees that find their operands, the first of them on a stack of some depth. -/
lemma exists_groundFrom {code : Code α} {d : Nat}
    (hfirst : ∀ tree ∈ (pieces code).head?, depthFrom d tree ≠ none) (h : FindsOperands code) :
    ∃ e, groundFrom d code = some e := by
  induction hpieces : pieces code generalizing code d with
  | nil => exact ⟨d, by rw [eq_nil_of_pieces_eq_nil hpieces, groundFrom_nil]⟩
  | cons tree trees ih =>
    have hseparators := isSeparator_of_mem_pieces (hpieces ▸ List.mem_cons_self)
    obtain ⟨n, hn⟩ := Option.ne_none_iff_exists'.mp (hfirst tree (by rw [hpieces]; rfl))
    rw [← groundFrom_eq hseparators] at hn
    obtain ⟨-, ⟨rfl, -⟩ | ⟨sep, rest, rfl, hsep, hrest⟩⟩ := eq_of_pieces_eq_cons hpieces
    · exact ⟨n, hn⟩
    · rw [FindsOperands, hpieces, List.tail_cons, ← hrest] at h
      -- the next tree starts with an empty stack
      obtain ⟨e, he⟩ := ih (d := 0) (fun next hnext => h next (List.mem_of_mem_head? hnext))
        (fun later hlater => h later (List.mem_of_mem_tail hlater)) hrest
      refine ⟨e, ?_⟩
      rw [groundFrom_append, hn, Option.bind_some, groundFrom_cons, groundBehind, if_pos hsep,
        Option.bind_some, he]

/-- **Where the trees behind the first one find their operands, the buffer is grounded.** -/
theorem FindsOperands.exists_grounded {code : Code α} (h : FindsOperands code)
    (ha : ∀ i ∈ code, i.isAggregate = false) : ∃ depth, Grounded depth code := by
  refine ⟨2 * code.length, ha, exists_groundFrom (fun tree htree => ?_) h⟩
  obtain ⟨trees, hpieces⟩ := List.head?_eq_some_iff.mp htree
  have hstart : tree <+: code := (eq_of_pieces_eq_cons hpieces).1 ▸ List.takeWhile_prefix _
  obtain ⟨n, hn⟩ := exists_depthFrom (fun i hi => ha i (hstart.subset hi))
    (Nat.mul_le_mul_left 2 hstart.length_le)
  rw [hn]
  exact Option.some_ne_none n

/-- A walk over operands that the scan finds stays in its tree, and so many less are found where it
stops, at least. -/
lemma reach_in_grounded {before : Code α} (ha : ∀ i ∈ before, i.isAggregate = false)
    {depth d k : Nat} (hd : groundFrom depth before.reverse = some d) (hk : k ≤ d) :
    (∀ i ∈ before.take (reach k before), i.isSeparator = false) ∧
      ∃ e, groundFrom depth (before.drop (reach k before)).reverse = some e ∧ d ≤ e + k := by
  induction before generalizing d k with
  | nil =>
    cases hd
    rw [reach_nil]
    exact ⟨nofun, depth, rfl, Nat.le_add_right _ _⟩
  | cons i before ih =>
    cases k with
    | zero => exact ⟨nofun, d, hd, Nat.le_refl _⟩
    | succ k =>
      obtain ⟨hi, hrest⟩ := List.forall_mem_cons.mp ha
      rw [List.reverse_cons, groundFrom_concat] at hd
      obtain ⟨c, hc, hd⟩ := Option.bind_eq_some_iff.mp hd
      -- behind a separator the stack is empty, so that no operand is looked for there
      have hs : i.isSeparator = false := by
        by_contra hs
        rw [groundBehind, if_pos (eq_true_of_ne_false hs), Option.some.injEq] at hd
        omega
      rw [groundBehind, if_neg (by simp [hs])] at hd
      by_cases hn : i.isNoOp = true
      · rw [depthAfter_of_isNoOp hn] at hd
        cases hd
        obtain ⟨hspan, hdrop⟩ := ih hrest hc hk
        rw [reach_cons_noOp hn, List.take_succ_cons, List.drop_succ_cons]
        exact ⟨List.forall_mem_cons.mpr ⟨hs, hspan⟩, hdrop⟩
      · have hn : i.isNoOp = false := eq_false_of_ne_true hn
        obtain ⟨below, rfl, rfl⟩ := (depthAfter_eq_some_iff (isLive_of_not hn hs) hi).mp hd
        obtain ⟨hspan, e, he, hle⟩ := ih hrest hc (show k + i.arity ≤ below + i.arity by omega)
        rw [reach_cons hn hi, List.take_succ_cons, List.drop_succ_cons]
        exact ⟨List.forall_mem_cons.mpr ⟨hs, hspan⟩, e, he, by omega⟩

namespace Grounded

variable {depth : Nat}

/-- Other code may stand in a grounded buffer if it leaves no less on the stack. -/
lemma replace {front old new back : Code α} (h : Grounded depth (front ++ old ++ back))
    (ha : ∀ i ∈ new, i.isAggregate = false)
    (hdepth : ∀ d e, groundFrom depth front = some d → groundFrom d old = some e →
      ∃ e', groundFrom d new = some e' ∧ e ≤ e') : Grounded depth (front ++ new ++ back) := by
  obtain ⟨e, he⟩ := h.scan
  rw [List.append_assoc, groundFrom_append] at he
  obtain ⟨d, hd, he⟩ := Option.bind_eq_some_iff.mp he
  rw [groundFrom_append] at he
  obtain ⟨c, hc, he⟩ := Option.bind_eq_some_iff.mp he
  obtain ⟨c', hc', hle⟩ := hdepth d c hd hc
  have hnone := h.notAggregate
  simp only [List.mem_append] at hnone
  obtain ⟨e', he', -⟩ := groundFrom_mono (fun i hi => hnone i (.inr hi)) hle he
  refine ⟨fun i hi => ?_, e', ?_⟩
  · simp only [List.mem_append] at hi
    rcases hi with (hi | hi) | hi
    · exact hnone i (.inl (.inl hi))
    · exact ha i hi
    · exact hnone i (.inr hi)
  · rw [List.append_assoc, groundFrom_append, hd, Option.bind_some, groundFrom_append, hc',
      Option.bind_some, he']

lemma replaces {front old new back : Code α} (h : Grounded depth (front ++ old ++ back))
    (ha : ∀ i ∈ new, i.isAggregate = false) (hreplaces : Replaces new old) :
    Grounded depth (front ++ new ++ back) := by
  refine h.replace ha fun d e _ he => ⟨e, ?_, Nat.le_refl e⟩
  rw [groundFrom_eq hreplaces.oldInTree, ← depthThrough_eq hreplaces.oldInTree] at he
  rw [groundFrom_eq hreplaces.newInTree, ← depthThrough_eq hreplaces.newInTree]
  exact hreplaces.depth d e he

end Grounded

end Code

namespace Forest

variable {s : ModelSettings} {shape : Shape} {p : Float} {depth : Nat} {y z : Place}

/-! ### Edits -/

/-- The subtree that ends with a live instruction stays in its tree, and with its value no less is on
the stack than before. -/
lemma grounded_span {before rest : Code Float} {i : Instruction Float} (hi : i.isLive = true)
    (h : Code.Grounded depth (Place.code (before, i :: rest))) :
    (∀ j ∈ (before.take (Code.reachOf i before)).reverse ++ [i], j.isSeparator = false) ∧
      ∀ d e, Code.groundFrom depth (before.drop (Code.reachOf i before)).reverse = some d →
        Code.groundFrom d ((before.take (Code.reachOf i before)).reverse ++ [i]) = some e →
        e ≤ d + 1 := by
  obtain ⟨f, hf⟩ := h.scan
  have ha : i.isAggregate = false := h.notAggregate i (by simp [Place.code])
  have hbefore : ∀ j ∈ before, j.isAggregate = false := fun j hj =>
    h.notAggregate j (by simp [Place.code, hj])
  have hbehind : ∀ d, Code.groundBehind d i = Code.depthAfter d i := fun d => by
    simp [Code.groundBehind, Code.isSeparator_of_isLive hi]
  rw [Place.code, Code.groundFrom_append, Option.bind_eq_some_iff] at hf
  obtain ⟨c, hc, hf⟩ := hf
  rw [Code.groundFrom_cons, hbehind, Option.bind_eq_some_iff] at hf
  obtain ⟨e, he, -⟩ := hf
  obtain ⟨below, rfl, rfl⟩ := (Code.depthAfter_eq_some_iff hi ha).mp he
  obtain ⟨hspan, d, hd, hle⟩ :=
    Code.reach_in_grounded hbefore hc (Nat.le_add_left i.arity below)
  rw [Code.reachOf, if_neg (by simp [ha])]
  refine ⟨fun j hj => ?_, fun d' e' hd' he' => ?_⟩
  · rcases List.mem_append.mp hj with hj | hj
    · exact hspan j (List.mem_reverse.mp hj)
    · rw [List.mem_singleton.mp hj]
      exact Code.isSeparator_of_isLive hi
  · -- the whole scan up to the instruction is the scan up to the subtree and then through it
    rw [hd, Option.some.injEq] at hd'
    subst hd'
    have hwhole : Code.groundFrom depth before.reverse
        = Code.groundFrom d (before.take (Code.reach i.arity before)).reverse := by
      conv_lhs => rw [← List.take_append_drop (Code.reach i.arity before) before]
      rw [List.reverse_append, Code.groundFrom_append, hd, Option.bind_some]
    rw [Code.groundFrom_concat, ← hwhole, hc, Option.bind_some, hbehind, he,
      Option.some.injEq] at he'
    omega

/-- **An edit of a grounded buffer leaves it grounded and keeps its separators.** -/
theorem Edit.grounded (h : Edit s shape y z) (hy : Code.Grounded depth y.code) :
    Code.Grounded depth z.code ∧ z.code.separators = y.code.separators := by
  have hnone : ∀ j ∈ z.code, j.isAggregate = false :=
    h.forall_mem heritable_notAggregate hy.notAggregate
  obtain hcode | ⟨front, old, new, back, hcode, hnew, hreplaces⟩ |
    ⟨before, i, rest, tree, rfl, hi, htree, rfl⟩ := h.replaces
  · rw [hcode]
    exact ⟨hy, rfl⟩
  · rw [hcode] at hy ⊢
    rw [hnew] at hnone ⊢
    refine ⟨hy.replaces (fun j hj => hnone j (by simp [hj])) hreplaces, ?_⟩
    simp only [Code.separators_append, hreplaces.separators_eq]
  · obtain ⟨hspan, hless⟩ := grounded_span hi hy
    have hsep := (Code.isWellFormed_iff.mp htree.isWellFormed).1
    have hparts : Place.code (tree.reverse ++ before.drop (Code.reachOf i before), rest)
        = (before.drop (Code.reachOf i before)).reverse ++ tree ++ rest := by simp [Place.code]
    rw [Place.code_split before rest i (Code.reachOf i before)] at hy ⊢
    rw [hparts] at hnone ⊢
    refine ⟨hy.replace (fun j hj => hnone j (by simp [hj])) fun d e hd he => ?_, ?_⟩
    · refine ⟨d + 1, ?_, hless d e hd he⟩
      rw [Code.groundFrom_eq hsep, htree.pushes d]
    · rw [Code.separators_append, Code.separators_append, Code.separators_append _ rest,
        Code.separators_append _ ((before.take _).reverse ++ [i]), Code.separators_eq_zero hsep,
        Code.separators_eq_zero hspan]

/-! ### Turns -/

/-- Only the subtree of a live instruction is replaced. -/
lemma isLive_of_turn {before rest : Code Float} {i : Instruction Float} {z : Place}
    {source source' : Source}
    (h : turn s shape p before i rest source = (.ok (.subtree, z), source')) : i.isLive = true := by
  by_contra hi
  rw [turn, if_pos (by simpa using hi)] at h
  cases h

/-- **In a pass over a grounded buffer no turn cuts out a separator.** -/
theorem Passes.grounded {turns : List Turn} {code : Code Float} {source source' : Source}
    (h : Passes s shape p y source turns code source') (hy : Code.Grounded depth y.code) :
    code.separators = y.code.separators ∧ ∀ t ∈ turns, t.cut.separators = 0 := by
  induction h with
  | done before source => exact ⟨by simp [Place.code], nofun⟩
  | @turn before rest code i change z turns source middle source' hturn _ ih =>
    obtain ⟨hz, hcount⟩ := ((returns_turn p).ok hturn).edit.grounded hy
    obtain ⟨hrest, hturns⟩ := ih hz
    refine ⟨hrest.trans hcount, List.forall_mem_cons.mpr ⟨?_, hturns⟩⟩
    rw [Turn.cut]
    split
    · rename_i hchange
      dsimp only at hchange
      subst hchange
      exact Code.separators_eq_zero (grounded_span (isLive_of_turn hturn) hy).1
    · rfl

end Forest

end FuzzyForest
