/-
The value of a rule.

`Code.valueAt?` gives the value of the node at a position by recursion on the tree that the code
stands for: the operands of a node are the subtree that ends at the nearest live instruction before
it and, for a second one, the subtree that ends at the nearest live instruction before the first.
Running the code from left to right computes the same values: what stands on the stack behind a
position is the values of the subtrees that end there.
-/
import FuzzyForest.Proofs.Subtree
import FuzzyForest.Proofs.TreeExecution

namespace FuzzyForest

variable {α : Type} [Scalar α]

namespace Code

/-- The value of the node at a position. -/
def valueAt? (f : Frame α) (code : Code α) (i : Nat) : Option α :=
  match code[i]? with
  | none => none
  | some node =>
    match node.opcode with
    | .noOp | .separator | .processAll => none
    | .input | .pastInput | .pastOutput =>
      (f.read node).toOption.map fun x => fuzzyThreshold x node.weight
    | .not =>
      match _hj : liveBefore? code i with
      | none => none
      | some j => (valueAt? f code j).map fun a =>
        fuzzyThreshold (Scalar.ofNat 1 - a) node.weight
    | .and | .or | .sum | .prod =>
      match _hj : liveBefore? code i with
      | none => none
      | some j =>
        match _hk : liveBefore? code (leftOf code j) with
        | none => none
        | some k =>
          match valueAt? f code j, valueAt? f code k with
          | some a, some b => some (fuzzyThreshold (node.opcode.combine a b) node.weight)
          | _, _ => none
termination_by i
decreasing_by
  · exact liveBefore?_lt _hj
  · exact liveBefore?_lt _hj
  · have := liveBefore?_lt _hj
    have := liveBefore?_lt _hk
    have := leftOf_le code j
    omega

/-- The value of a tree is that of its last live instruction. -/
def value? (f : Frame α) (code : Code α) : Option α :=
  (liveBefore? code code.length).bind (valueAt? f code)

section

variable {f : Frame α} {code : Code α} {i : Nat} {node : Instruction α}

lemma valueAt?_terminal (hi : code[i]? = some node) (hop : node.opcode.isTerminal = true) :
    valueAt? f code i = (f.read node).toOption.map fun x => fuzzyThreshold x node.weight := by
  rw [valueAt?, hi]
  rcases node with ⟨op, v, l, w⟩
  cases op with
  | input | pastInput | pastOutput => rfl
  | _ => cases hop

lemma valueAt?_unary (hi : code[i]? = some node) (hop : node.opcode = .not) :
    valueAt? f code i = (liveBefore? code i).bind fun j => (valueAt? f code j).map fun a =>
      fuzzyThreshold (Scalar.ofNat 1 - a) node.weight := by
  rw [valueAt?, hi]
  rcases node with ⟨op, v, l, w⟩
  cases hop
  dsimp only
  split
  · rename_i hj
    rw [hj, Option.bind_none]
  · rename_i j hj
    rw [hj, Option.bind_some]

lemma valueAt?_binary (hi : code[i]? = some node) (hop : node.arity = 2) :
    valueAt? f code i = (liveBefore? code i).bind fun j =>
      (liveBefore? code (leftOf code j)).bind fun k =>
        (valueAt? f code j).bind fun a => (valueAt? f code k).map fun b =>
          fuzzyThreshold (node.opcode.combine a b) node.weight := by
  rw [valueAt?, hi]
  rcases node with ⟨op, v, l, w⟩
  cases op with
  | and | or | sum | prod =>
    dsimp only
    split
    · rename_i hj
      rw [hj, Option.bind_none]
    · rename_i j hj
      rw [hj, Option.bind_some]
      split
      · rename_i hk
        rw [hk, Option.bind_none]
      · rename_i k hk
        rw [hk, Option.bind_some]
        cases valueAt? f code j <;> cases valueAt? f code k <;> rfl
  | _ => cases hop

/-- Placeholders, separators and aggregates have no value. -/
lemma valueAt?_eq_none (hi : code[i]? = some node)
    (hop : node.isLive = false ∨ node.isAggregate = true) : valueAt? f code i = none := by
  rw [valueAt?, hi]
  rcases node with ⟨op, v, l, w⟩
  cases op with
  | noOp | separator | processAll => rfl
  | _ => rcases hop with hop | hop <;> cases hop

/-- The value of a node depends on the data and estimates only through what terminals read. -/
lemma valueAt?_congr {g : Frame α} (h : ∀ node ∈ code, f.read node = g.read node) (i : Nat) :
    valueAt? f code i = valueAt? g code i := by
  induction i using Nat.strongRecOn with
  | ind i ih =>
    cases hi : code[i]? with
    | none => rw [valueAt?, valueAt?, hi]
    | some node =>
      by_cases ha : node.isAggregate = true
      · rw [valueAt?_eq_none hi (.inr ha), valueAt?_eq_none hi (.inr ha)]
      rcases Instruction.kind_cases (eq_false_of_ne_true ha) with hop | hop | hop | hop
      · rw [valueAt?_eq_none hi (.inl hop), valueAt?_eq_none hi (.inl hop)]
      · rw [valueAt?_terminal hi hop, valueAt?_terminal hi hop, h node (List.mem_of_getElem? hi)]
      · rw [valueAt?_unary hi hop, valueAt?_unary hi hop]
        cases hj : liveBefore? code i with
        | none => rfl
        | some j => rw [Option.bind_some, Option.bind_some, ih j (liveBefore?_lt hj)]
      · rw [valueAt?_binary hi hop, valueAt?_binary hi hop]
        cases hj : liveBefore? code i with
        | none => rfl
        | some j =>
          rw [Option.bind_some, Option.bind_some]
          cases hk : liveBefore? code (leftOf code j) with
          | none => rfl
          | some k =>
            have hji := liveBefore?_lt hj
            have hki : k < i := Nat.lt_of_lt_of_le (liveBefore?_lt hk)
              (Nat.le_trans (leftOf_le code j) (Nat.le_of_lt hji))
            rw [Option.bind_some, Option.bind_some, ih j hji, ih k hki]

lemma value?_congr {g : Frame α} (h : ∀ node ∈ code, f.read node = g.read node) :
    value? f code = value? g code := by
  rw [value?, value?]
  congr 1
  exact funext (valueAt?_congr h)

end

/-! ### The stack behind a position -/

/-- A stack that holds the values of the subtrees that end before a position, the nearest one
first. -/
inductive Standing (f : Frame α) (code : Code α) : (n : Nat) → List α → Prop
  /-- Nothing ends before the position. -/
  | nil {n : Nat} (hn : liveBefore? code n = none) : Standing f code n []
  /-- A subtree ends there, and others end before its start. -/
  | cons {n j : Nat} {a : α} {stack : List α} (hj : liveBefore? code n = some j)
      (ha : valueAt? f code j = some a) (hrest : Standing f code (leftOf code j) stack) :
    Standing f code n (a :: stack)

/-- One instruction goes on from the stack behind its position to the stack behind the next. -/
lemma Standing.step {f : Frame α} {code : Code α} (hplain : code.IsPlain) {n : Nat}
    {node : Instruction α} (hn : code[n]? = some node) {stack stack' : List α}
    (h : Standing f code n stack) (hstep : Stepped f node stack stack') :
    Standing f code (n + 1) stack' := by
  have hlt : n < code.length := (List.getElem?_eq_some_iff.mp hn).1
  have hnext := liveBefore?_succ hn
  have hleft := leftOf_eq hn hstep.notAggregate
  cases hstep with
  | skip hi =>
    rw [hi] at hnext
    cases h with
    | nil hnone => exact .nil (hnext.trans hnone)
    | cons hj ha hrest => exact .cons (hnext.trans hj) ha hrest
  | terminal hi hx =>
    -- a terminal starts where it ends, so that all others stay on the stack
    rw [Instruction.isLive_of_isTerminal hi] at hnext
    have harity : node.arity = 0 := Opcode.arity_of_isTerminal hi
    rw [harity, leftFrom_zero] at hleft
    exact .cons hnext (by rw [valueAt?_terminal hn hi, hx]; rfl) (hleft.symm ▸ h)
  | unary hi a stack =>
    have harity : node.arity = 1 := by rw [Instruction.arity, hi]; rfl
    rw [Instruction.isLive_of_arity (by omega)] at hnext
    cases h with
    | cons hj ha hrest =>
      rw [harity, leftFrom_succ hplain (Nat.le_of_lt hlt) hj, leftFrom_zero] at hleft
      exact .cons hnext (by rw [valueAt?_unary hn hi, hj, Option.bind_some, ha]; rfl)
        (hleft.symm ▸ hrest)
  | binary hi a b stack =>
    rw [Instruction.isLive_of_arity (by omega)] at hnext
    cases h with
    | cons hj ha hrest =>
      cases hrest with
      | cons hk hb hrest =>
        -- the second operand ends before the first one starts
        have hle : leftOf code _ ≤ code.length :=
          Nat.le_trans (leftOf_le code _) (Nat.le_of_lt (Nat.lt_trans (liveBefore?_lt hj) hlt))
        rw [hi, leftFrom_succ hplain (Nat.le_of_lt hlt) hj, leftFrom_succ hplain hle hk,
          leftFrom_zero] at hleft
        refine .cons hnext ?_ (hleft.symm ▸ hrest)
        rw [valueAt?_binary hn hi, hj, Option.bind_some, hk, Option.bind_some, ha, hb]
        rfl

/-- Running a front part of the code leaves the values of the subtrees that end in it. -/
lemma standing_of_fuzzyRun {f : Frame α} {code : Code α} (hplain : code.IsPlain) {n : Nat}
    (hn : n ≤ code.length) {stack : List α} (h : fuzzyRun f (code.take n) [] = .ok stack) :
    Standing f code n stack := by
  induction n generalizing stack with
  | zero =>
    cases h
    exact .nil rfl
  | succ n ih =>
    have hnode : code[n]? = some code[n] := List.getElem?_eq_getElem hn
    rw [List.take_add_one, hnode, Option.toList_some, fuzzyRun_append] at h
    cases hfront : fuzzyRun f (code.take n) [] with
    | error e =>
      rw [hfront] at h
      cases h
    | ok middle =>
      rw [hfront] at h
      have hstep : fuzzyStep f code[n] middle = .ok stack := by
        rwa [← fuzzyRun_singleton]
      exact (ih (Nat.le_of_lt hn) hfront).step hplain hnode (fuzzyStep_eq_ok_iff.mp hstep)

/-- The one value that code leaves is the value of its tree. -/
theorem value?_of_fuzzyRun {f : Frame α} {code : Code α} (hplain : code.IsPlain) {x : α}
    (h : fuzzyRun f code [] = .ok [x]) : value? f code = some x := by
  rw [← List.take_length (l := code)] at h
  cases standing_of_fuzzyRun hplain (Nat.le_refl _) h with
  | cons hj ha _ => rw [value?, hj, Option.bind_some, ha]

end Code

/-! ### Running a tree -/

/-- A well-formed tree without aggregates leaves its value. -/
lemma Code.exists_value? {tree : Code α} (htree : tree.isWellFormed = true)
    (ha : ∀ i ∈ tree, i.isAggregate = false) {f : Frame α} (hreads : f.Reads tree) :
    ∃ x, value? f tree = some x ∧ fuzzyRun f tree [] = .ok [x] := by
  have hdepth : depthFrom ([] : List α).length tree = some 1 := (isWellFormed_iff.mp htree).2
  obtain ⟨stack, hrun, hlength⟩ := exists_fuzzyRun ha hreads hdepth
  obtain ⟨x, rfl⟩ := List.length_eq_one_iff.mp hlength
  exact ⟨x, value?_of_fuzzyRun (isPlain_of_isWellFormed htree ha) hrun, hrun⟩

/-- Where every terminal is found, a well-formed tree without aggregates fails in no row. -/
lemma Ended.eq_none_or {tree : Code α} (htree : tree.isWellFormed = true)
    (ha : ∀ i ∈ tree, i.isAggregate = false) {ds : Dataset α} {outputIdx outputs row : Nat}
    {estimates : Array α}
    (hreads : row < ds.records → Frame.Reads ⟨ds, row, estimates, outputs⟩ tree)
    {failure? : Option (ExecutionError α)}
    (h : Ended tree ds outputIdx outputs ds.records row estimates failure?) :
    failure? = none ∧ row = ds.records ∨ failure? = some .outOfBounds ∧ row < ds.records ∧
      estimates.size ≤ placeOf estimates outputIdx outputs row := by
  cases h with
  | done hrow => exact .inl ⟨rfl, hrow⟩
  | failed hrow e hrun =>
    obtain ⟨x, -, hx⟩ := Code.exists_value? htree ha (hreads hrow)
    exact absurd hx (hrun x)
  | outside hrow hplace => exact .inr ⟨rfl, hrow, hplace⟩

/-- **Running a tree computes its value.**  On any stack machine state the run of a well-formed tree
without aggregates leaves exactly the value of the tree; executing the tree stores this value in
each row in turn, where the tree reads the estimates stored so far, and changes nothing else.  Only
a buffer without room for a row ends it early. -/
theorem execute_stores_value {tree : Code α} (htree : tree.isWellFormed = true)
    (ha : ∀ i ∈ tree, i.isAggregate = false) :
    (∀ (f : Frame α) (count : Nat), f.Reads tree → ∃ x, Code.value? f tree = some x ∧
      runCode fuzzySteps f count tree [] = (.ok [x], count + tree.length)) ∧
    ∀ (ds : Dataset α) (estimates : Array α) (outputIdx outputs count : Nat),
      (∀ row < ds.records, Frame.Reads ⟨ds, row, estimates, outputs⟩ tree) →
      let run := execute fuzzySteps tree ds estimates outputIdx outputs count
      ((∀ row < ds.records, row * outputs + outputIdx < estimates.size) →
        ∃ buffer : Nat → Array α, buffer 0 = estimates ∧ run.estimates = buffer ds.records ∧
          run.failure? = none ∧
          (∀ row < ds.records, ∃ x, Code.value? ⟨ds, row, buffer row, outputs⟩ tree = some x ∧
            buffer (row + 1) = (buffer row).setIfInBounds (row * outputs + outputIdx) x ∧
            (0 < outputs → run.estimates[row * outputs + outputIdx]? = some x)) ∧
          ∀ k, (∀ row < ds.records, row * outputs + outputIdx ≠ k) →
            run.estimates[k]? = estimates[k]?) ∧
      ((∃ row < ds.records, estimates.size ≤ placeOf estimates outputIdx outputs row) →
        run.failure? = some .outOfBounds) := by
  constructor
  · intro f count hreads
    obtain ⟨x, hvalue, hrun⟩ := Code.exists_value? htree ha hreads
    exact ⟨x, hvalue, runCode_eq_ok hrun count⟩
  · intro ds estimates outputIdx outputs count hreads
    obtain ⟨stop, buffer, value, rfl, hstored, hrun, hended⟩ :=
      exists_stored tree ds estimates outputIdx outputs count
    have hend := hended.eq_none_or htree ha fun h =>
      (hreads stop h).of_size (hstored.size_eq (Nat.le_refl _))
    constructor
    · intro hroom
      obtain ⟨hnone, rfl⟩ | ⟨-, hlt, houtside⟩ := hend
      · refine ⟨buffer, rfl, hrun, hnone, ?_, ?_⟩
        · intro row hrow
          refine ⟨value row, ?_, hstored.next_entry hroom hrow, ?_⟩
          · exact Code.value?_of_fuzzyRun (Code.isPlain_of_isWellFormed htree ha)
              (hstored.run row (Nat.zero_le _) hrow)
          · intro hpos
            rw [hrun]
            exact hstored.getElem?_entry hroom hpos hrow
        · intro k hk
          rw [hrun]
          exact hstored.getElem?_of_ne hroom hk
      · -- a row that has room does not end the execution
        rw [hstored.placeOf_eq (Nat.le_refl _), placeOf_of_lt (hroom stop hlt),
          hstored.size_eq (Nat.le_refl _)] at houtside
        exact absurd (hroom stop hlt) (Nat.not_lt_of_le houtside)
    · rintro ⟨row, hrow, houtside⟩
      obtain ⟨-, rfl⟩ | ⟨hfailure, -⟩ := hend
      · have hinside := hstored.inside row (Nat.zero_le _) hrow
        rw [hstored.placeOf_eq (Nat.le_of_lt hrow), hstored.size_eq (Nat.le_of_lt hrow)] at hinside
        exact absurd hinside (Nat.not_lt_of_le houtside)
      · exact hfailure

/-- A tree with a placeholder that reads its own estimate of the row before. -/
theorem execute_stores_value_lagged :
    let tree : Code Float := [.input 0 0.5, .noOp, .pastOutput 0 1 0.25, .plain .not 0.5,
      .plain .and 0.75]
    let ds : Dataset Float := ⟨#[0.25, 1.0, 0.5, 0.0, 0.75, 1.0], 3, 2, 1, none, rfl, by decide⟩
    let run := execute fuzzySteps tree ds #[0.0, 0.0, 0.0] 0 1 0
    run.failure? = none ∧ ∃ buffer : Nat → Array Float, buffer 0 = #[0.0, 0.0, 0.0] ∧
      ∀ row < 3, ∃ x, Code.value? ⟨ds, row, buffer row, 1⟩ tree = some x ∧
        run.estimates[row * 1 + 0]? = some x := by
  intro tree ds run
  have hrows : ∀ row < ds.records, Frame.Reads ⟨ds, row, #[0.0, 0.0, 0.0], 1⟩ tree := by
    decide +kernel
  have hroom : ∀ row < ds.records, row * 1 + 0 < #[0.0, 0.0, 0.0].size := by decide
  obtain ⟨buffer, hstart, -, hnone, hvalue, -⟩ :=
    ((execute_stores_value (by decide +kernel) (by decide +kernel)).2 ds _ 0 1 0 hrows).1 hroom
  refine ⟨hnone, buffer, hstart, ?_⟩
  intro row hrow
  obtain ⟨x, hx, -, hentry⟩ := hvalue row hrow
  exact ⟨x, hx, hentry Nat.one_pos⟩

end FuzzyForest
