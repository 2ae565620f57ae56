/-
Running fuzzy rules.

`Stepped` says what one instruction does to the stack, `fuzzyRun` runs code without counting.  A run
follows the stack depth of the code, so that code without aggregates runs to its end where the
depth never underflows and every terminal finds what it reads.
-/
import FuzzyForest.Proofs.Depth
import FuzzyForest.Rule.Machine

namespace FuzzyForest

variable {α : Type}

/-- The kinds of instructions that the fuzzy rule model runs. -/
lemma Instruction.kind_cases {i : Instruction α} (ha : i.isAggregate = false) :
    i.isLive = false ∨ i.opcode.isTerminal = true ∨ i.opcode = .not ∨ i.arity = 2 := by
  rcases i with ⟨op, v, l, w⟩
  cases op with
  | noOp | separator => exact .inl rfl
  | input | pastInput | pastOutput => exact .inr (.inl rfl)
  | not => exact .inr (.inr (.inl rfl))
  | processAll => cases ha
  | and | or | sum | prod => exact .inr (.inr (.inr rfl))

lemma Instruction.isLive_of_isTerminal {i : Instruction α} (h : i.opcode.isTerminal = true) :
    i.isLive = true := by
  rcases i with ⟨op, v, l, w⟩
  cases op with
  | input | pastInput | pastOutput => rfl
  | _ => cases h

lemma Instruction.isLive_of_arity {i : Instruction α} (h : 0 < i.arity) : i.isLive = true := by
  rcases i with ⟨op, v, l, w⟩
  cases op with
  | noOp | separator => cases h
  | _ => rfl

/-- An estimate is found if the row is complete and the operand is an output. -/
lemma Frame.exists_readEstimate_iff {f : Frame α} {row operand : Nat} :
    (∃ x, f.readEstimate row operand = .ok x) ↔
      Address.of f.estimates.size (row * f.outputs) + f.outputs ≤ f.estimates.size ∧
        operand < f.outputs := by
  simp only [readEstimate]
  constructor
  · rintro ⟨x, hx⟩
    split at hx
    · rename_i hrow
      split at hx
      · exact ⟨hrow, ‹_›⟩
      · cases hx
    · cases hx
  · rintro ⟨hrow, hoperand⟩
    rw [if_pos hrow, if_pos hoperand, Array.getElem?_eq_getElem (by omega)]
    exact ⟨_, rfl⟩

variable [Scalar α]

/-! ### One instruction -/

/-- What an instruction does to the stack if it does not fail. -/
inductive Stepped (f : Frame α) (i : Instruction α) : List α → List α → Prop
  /-- Placeholders and separators do nothing. -/
  | skip (hi : i.isLive = false) (stack : List α) : Stepped f i stack stack
  /-- A terminal pushes the threshold of what it reads. -/
  | terminal (hi : i.opcode.isTerminal = true) {x : α} (hx : f.read i = .ok x) (stack : List α) :
    Stepped f i stack (fuzzyThreshold x i.weight :: stack)
  /-- The complement replaces the last value. -/
  | unary (hi : i.opcode = .not) (a : α) (stack : List α) :
    Stepped f i (a :: stack) (fuzzyThreshold (Scalar.ofNat 1 - a) i.weight :: stack)
  /-- A binary operator replaces the last two values. -/
  | binary (hi : i.arity = 2) (a b : α) (stack : List α) :
    Stepped f i (a :: b :: stack) (fuzzyThreshold (i.opcode.combine a b) i.weight :: stack)

theorem fuzzyStep_eq_ok_iff {f : Frame α} {i : Instruction α} {stack stack' : List α} :
    fuzzyStep f i stack = .ok stack' ↔ Stepped f i stack stack' := by
  constructor
  · intro h
    rcases i with ⟨op, v, l, w⟩
    cases op <;> simp only [fuzzyStep] at h
    case noOp | separator =>
      cases h
      exact .skip rfl _
    case input | pastInput | pastOutput =>
      split at h
      · rename_i x hx
        cases h
        exact .terminal rfl hx _
      · cases h
    case not =>
      split at h
      · cases h
        exact .unary rfl _ _
      · cases h
    case processAll => cases h
    all_goals
      split at h
      · cases h
        exact .binary rfl _ _ _
      · cases h
  · intro h
    rcases i with ⟨op, v, l, w⟩
    cases h with
    | skip hi =>
      cases op with
      | noOp | separator => rfl
      | _ => cases hi
    | terminal hi hx =>
      cases op with
      | input | pastInput | pastOutput => simp only [fuzzyStep, hx]
      | _ => cases hi
    | unary hi =>
      cases hi
      rfl
    | binary hi =>
      cases op with
      | and | or | sum | prod => rfl
      | _ => cases hi

namespace Stepped

variable {f : Frame α} {i : Instruction α} {stack stack' : List α}

/-- What steps is no aggregate. -/
lemma notAggregate (h : Stepped f i stack stack') : i.isAggregate = false := by
  rcases i with ⟨op, v, l, w⟩
  cases h with
  | skip hi => cases op <;> first | rfl | cases hi
  | terminal hi => cases op <;> first | rfl | cases hi
  | unary hi =>
    cases hi
    rfl
  | binary hi => cases op <;> first | rfl | cases hi

/-- A step changes the depth of the stack as the instruction says. -/
lemma depthAfter (h : Stepped f i stack stack') :
    Code.depthAfter stack.length i = some stack'.length := by
  have ha := h.notAggregate
  cases h with
  | skip hi => exact Code.depthAfter_of_not_isLive hi _
  | terminal hi hx =>
    have harity : i.arity = 0 := Opcode.arity_of_isTerminal hi
    exact (Code.depthAfter_eq_some_iff (Instruction.isLive_of_isTerminal hi) ha).mpr
      ⟨_, by rw [harity, Nat.add_zero], List.length_cons⟩
  | unary hi a stack =>
    have harity : i.arity = 1 := by rw [Instruction.arity, hi]; rfl
    exact (Code.depthAfter_eq_some_iff (Instruction.isLive_of_arity (by omega)) ha).mpr
      ⟨stack.length, by rw [harity, List.length_cons], List.length_cons⟩
  | binary hi a b stack =>
    exact (Code.depthAfter_eq_some_iff (Instruction.isLive_of_arity (by omega)) ha).mpr
      ⟨stack.length, by rw [hi, List.length_cons, List.length_cons], List.length_cons⟩

end Stepped

/-- Every terminal of a buffer finds what it reads. -/
def Frame.Reads (f : Frame α) (code : Code α) : Prop :=
  ∀ i ∈ code, i.opcode.isTerminal = true → ∃ x, f.read i = .ok x

instance (f : Frame α) (code : Code α) : Decidable (f.Reads code) :=
  decidable_of_iff (∀ i ∈ code, i.opcode.isTerminal = true → (f.read i).isOk = true) <| by
    have hok : ∀ r : Except (ExecutionError α) α, r.isOk = true ↔ ∃ x, r = .ok x := fun r => by
      cases r <;> simp [Except.isOk, Except.toBool]
    simp only [hok, Frame.Reads]

/-- A step depends on a frame only in what a terminal reads. -/
lemma fuzzyStep_congr {f g : Frame α} {i : Instruction α}
    (h : i.opcode.isTerminal = true → g.read i = f.read i) (stack : List α) :
    fuzzyStep g i stack = fuzzyStep f i stack := by
  rcases i with ⟨op, v, l, w⟩
  cases op with
  | input | pastInput | pastOutput => simp only [fuzzyStep, h rfl]
  | _ => rfl

lemma runCode_congr {f g : Frame α} {code : Code α}
    (h : ∀ i ∈ code, i.opcode.isTerminal = true → g.read i = f.read i) (count : Nat)
    (stack : List α) :
    runCode fuzzySteps g count code stack = runCode fuzzySteps f count code stack := by
  induction code generalizing count stack with
  | nil => rfl
  | cons i rest ih =>
    obtain ⟨hi, hrest⟩ := List.forall_mem_cons.mp h
    simp only [runCode, fuzzySteps, fuzzyStep_congr hi]
    cases fuzzyStep f i stack with
    | error e => rfl
    | ok stack => exact ih hrest (count + 1) stack

/-- Whether terminals find what they read depends on the number of the estimates only. -/
lemma Frame.Reads.of_size {ds : Dataset α} {row outputs : Nat} {estimates estimates' : Array α}
    {code : Code α} (hsize : estimates'.size = estimates.size)
    (h : Frame.Reads ⟨ds, row, estimates, outputs⟩ code) :
    Frame.Reads ⟨ds, row, estimates', outputs⟩ code := by
  intro i hi hop
  have hestimate : ∀ r, (∃ x, Frame.readEstimate ⟨ds, r, estimates, outputs⟩ r i.operand = .ok x) ↔
      ∃ x, Frame.readEstimate ⟨ds, r, estimates', outputs⟩ r i.operand = .ok x := fun r => by
    rw [exists_readEstimate_iff, exists_readEstimate_iff]
    simp only [hsize]
  obtain ⟨x, hx⟩ := h i hi hop
  simp only [Frame.read] at hx ⊢
  split at hx
  · exact ⟨x, hx⟩
  · split at hx
    · rename_i hlag
      rw [if_pos hlag]
      exact (hestimate _).mp ⟨x, hx⟩
    · rename_i hlag
      rw [if_neg hlag]
      exact ⟨x, hx⟩
  · exact ⟨x, hx⟩

/-- An instruction with enough operands steps. -/
lemma exists_stepped {f : Frame α} {i : Instruction α} (ha : i.isAggregate = false)
    (hread : i.opcode.isTerminal = true → ∃ x, f.read i = .ok x) {stack : List α} {e : Nat}
    (hdepth : Code.depthAfter stack.length i = some e) : ∃ stack', Stepped f i stack stack' := by
  rcases Instruction.kind_cases ha with hi | hi | hi | hi
  · exact ⟨stack, .skip hi stack⟩
  · obtain ⟨x, hx⟩ := hread hi
    exact ⟨_, .terminal hi hx stack⟩
  · have harity : i.arity = 1 := by rw [Instruction.arity, hi]; rfl
    obtain ⟨below, hlength, -⟩ :=
      (Code.depthAfter_eq_some_iff (Instruction.isLive_of_arity (by omega)) ha).mp hdepth
    -- the depth leaves no stack but one with enough operands
    match stack with
    | a :: rest => exact ⟨_, .unary hi a rest⟩
    | [] =>
      rw [harity, List.length_nil] at hlength
      omega
  · obtain ⟨below, hlength, -⟩ :=
      (Code.depthAfter_eq_some_iff (Instruction.isLive_of_arity (by omega)) ha).mp hdepth
    match stack with
    | a :: b :: rest => exact ⟨_, .binary hi a b rest⟩
    | [_] =>
      rw [hi, List.length_singleton] at hlength
      omega
    | [] =>
      rw [hi, List.length_nil] at hlength
      omega

/-! ### Code -/

/-- The stack that code leaves. -/
def fuzzyRun (f : Frame α) : Code α → List α → Except (ExecutionError α) (List α)
  | [], stack => .ok stack
  | i :: rest, stack => fuzzyStep f i stack >>= fuzzyRun f rest

/-- Counting does not change a run. -/
lemma runCode_fst (f : Frame α) (count : Nat) (code : Code α) (stack : List α) :
    (runCode fuzzySteps f count code stack).1 = fuzzyRun f code stack := by
  induction code generalizing count stack with
  | nil => rfl
  | cons i rest ih =>
    simp only [runCode, fuzzyRun, fuzzySteps]
    cases fuzzyStep f i stack with
    | error e => rfl
    | ok stack => exact ih _ _

/-- A run to the end counts every instruction. -/
lemma runCode_eq_ok {f : Frame α} {code : Code α} {stack stack' : List α}
    (h : fuzzyRun f code stack = .ok stack') (count : Nat) :
    runCode fuzzySteps f count code stack = (.ok stack', count + code.length) := by
  induction code generalizing count stack with
  | nil =>
    cases h
    rfl
  | cons i rest ih =>
    simp only [runCode, fuzzyRun, fuzzySteps] at h ⊢
    cases hstep : fuzzyStep f i stack with
    | error e =>
      rw [hstep] at h
      cases h
    | ok stack =>
      rw [hstep] at h
      refine (ih h (count + 1)).trans ?_
      rw [List.length_cons, Nat.add_right_comm, Nat.add_assoc]

lemma fuzzyRun_append (f : Frame α) (a b : Code α) (stack : List α) :
    fuzzyRun f (a ++ b) stack = fuzzyRun f a stack >>= fuzzyRun f b := by
  induction a generalizing stack with
  | nil => rfl
  | cons i rest ih =>
    simp only [List.cons_append, fuzzyRun]
    cases fuzzyStep f i stack with
    | error e => rfl
    | ok stack => exact ih stack

lemma fuzzyRun_singleton (f : Frame α) (i : Instruction α) (stack : List α) :
    fuzzyRun f [i] stack = fuzzyStep f i stack := by
  rw [fuzzyRun]
  cases fuzzyStep f i stack <;> rfl

/-- A run changes the depth of the stack as the code says. -/
lemma depthFrom_of_fuzzyRun {f : Frame α} {code : Code α} {stack stack' : List α}
    (h : fuzzyRun f code stack = .ok stack') :
    Code.depthFrom stack.length code = some stack'.length := by
  induction code generalizing stack with
  | nil =>
    cases h
    rfl
  | cons i rest ih =>
    rw [fuzzyRun] at h
    cases hstep : fuzzyStep f i stack with
    | error e =>
      rw [hstep] at h
      cases h
    | ok middle =>
      rw [hstep] at h
      rw [Code.depthFrom_cons, (fuzzyStep_eq_ok_iff.mp hstep).depthAfter, Option.bind_some]
      exact ih h

/-- Code that runs to its end holds no aggregate. -/
lemma notAggregate_of_fuzzyRun {f : Frame α} {code : Code α} {stack stack' : List α}
    (h : fuzzyRun f code stack = .ok stack') : ∀ i ∈ code, i.isAggregate = false := by
  induction code generalizing stack with
  | nil => exact nofun
  | cons i rest ih =>
    rw [fuzzyRun] at h
    cases hstep : fuzzyStep f i stack with
    | error e =>
      rw [hstep] at h
      cases h
    | ok middle =>
      rw [hstep] at h
      exact List.forall_mem_cons.mpr ⟨(fuzzyStep_eq_ok_iff.mp hstep).notAggregate, ih h⟩

/-- **Code runs to its end where its terminals find what they read and the stack suffices.** -/
theorem exists_fuzzyRun {f : Frame α} {code : Code α} (ha : ∀ i ∈ code, i.isAggregate = false)
    (hreads : f.Reads code) {stack : List α} {e : Nat}
    (hdepth : Code.depthFrom stack.length code = some e) :
    ∃ stack', fuzzyRun f code stack = .ok stack' ∧ stack'.length = e := by
  induction code generalizing stack with
  | nil =>
    cases hdepth
    exact ⟨stack, rfl, rfl⟩
  | cons i rest ih =>
    obtain ⟨hi, hrest⟩ := List.forall_mem_cons.mp ha
    obtain ⟨hread, hreads⟩ := List.forall_mem_cons.mp hreads
    obtain ⟨c, hc, hdepth⟩ := Option.bind_eq_some_iff.mp hdepth
    obtain ⟨middle, hstep⟩ := exists_stepped hi hread hc
    rw [hstep.depthAfter] at hc
    cases hc
    obtain ⟨stack', hrun, hlength⟩ := ih hrest hreads hdepth
    refine ⟨stack', ?_, hlength⟩
    rw [fuzzyRun, fuzzyStep_eq_ok_iff.mpr hstep]
    exact hrun

end FuzzyForest
