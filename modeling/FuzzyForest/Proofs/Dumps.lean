/-
Forests are read back from their dumps.

A dump shows every field of every instruction, those that no token shows included, and the last
tree of a forest is closed.  Reading the dump of a forest whose weights are numbers therefore gives
all of its instructions.  The number of outputs is counted anew: it is that of the forest as long as
this had one output for each of its trees, and then there is room for as many estimates.  The main
results are

* `Instruction.exists_reads_dump`: the dump of an instruction is read wherever it stands;
* `Code.ofDump_dump`: a buffer is read back unless one of its weights was no number;
* `Arises.size_estimates`: there is always room for the estimates of all rows and outputs;
* `restored_eq`: what comes back of a forest.
-/
import FuzzyForest.Proofs.JsonTexts
import FuzzyForest.Proofs.ReadBack

namespace FuzzyForest

open Code (IsClosed)

/-! ### Instructions -/

namespace Instruction

open Decimal (digitsOf)
open Json (IsNumber IsPlain Reads ReadsMember objectText quoted)

/-- The text of a weight in a dump stands for that weight. -/
def DumpReadsBack (x : Float) : Prop := (Json.read (dumpedWeight x)).bind Dump.weight? = some x

instance : DecidablePred DumpReadsBack :=
  fun x => inferInstanceAs (Decidable ((Json.read (dumpedWeight x)).bind Dump.weight? = some x))

/-- The texts of the fields. -/
def fieldTexts (i : Instruction Float) : List (String × List Char) :=
  [("opcode", quoted i.opcode.name), ("value", digitsOf i.operand), ("lag", digitsOf i.lag),
    ("weight", (dumpedWeight i.weight).toList)]

/-- A dump is an object of the fields. -/
lemma toList_dump (i : Instruction Float) : i.dump.toList = objectText i.fieldTexts := by
  unfold dump
  simp [objectText, fieldTexts, quoted, Json.memberText, digitsOf]

lemma isPlain_of_all {s : String}
    (h : (s.toList.all fun c => decide (c ≠ '"' ∧ c ≠ '\\' ∧ 32 ≤ c.toNat)) = true) : IsPlain s :=
  fun c hc => of_decide_eq_true (List.all_eq_true.mp h c hc)

lemma isPlain_name (op : Opcode) : IsPlain op.name := by
  cases op <;> exact isPlain_of_all (by decide +kernel)

lemma isPlain_field : ∀ name ∈ Dump.fields, IsPlain name := by
  simp only [Dump.fields, List.forall_mem_cons, List.not_mem_nil, false_imp_iff, implies_true,
    and_true]
  refine ⟨?_, ?_, ?_, ?_⟩ <;> exact isPlain_of_all (by decide +kernel)

/-! ### Reading -/

instance (i : Instruction Float) : Decidable i.FitsWords :=
  decidable_of_iff (i.operand ≤ Decimal.maxWord ∧ i.lag ≤ Decimal.maxWord)
    ⟨fun h => ⟨h.1, h.2⟩, fun h => ⟨h.operand, h.lag⟩⟩

/-- Numbers are weights, and nothing else is. -/
lemma isNumber_of_weight? {v : Json} {x : Float} (h : Dump.weight? v = some x) : v.IsNumber := by
  cases v with
  | integer n => trivial
  | number y => trivial
  | _ => cases h

lemma reads_null : Reads "null".toList .null := by
  intro fuel hfuel tail htail
  obtain ⟨fuel, rfl⟩ := Nat.exists_eq_add_one.mpr (Nat.zero_lt_of_lt hfuel)
  refine ⟨[], rfl, ?_⟩
  have hskip : Json.skip ("null".toList ++ tail) = 'n' :: 'u' :: 'l' :: 'l' :: tail :=
    Json.skip_cons (by decide) _
  rw [Json.value, hskip]
  rfl

/-- The weight of a dump is read unless it was no number. -/
lemma exists_reads_weight {x : Float} (h : x.isFinite = true → DumpReadsBack x) :
    ∃ v, Reads (dumpedWeight x).toList v ∧
      Dump.weight? v = if x.isFinite then some x else none := by
  cases hx : x.isFinite with
  | true =>
    obtain ⟨v, hread, hweight⟩ := Option.bind_eq_some_iff.mp (h hx)
    exact ⟨v, Json.reads_of_read hread (isNumber_of_weight? hweight), hweight⟩
  | false =>
    refine ⟨.null, ?_, rfl⟩
    rw [dumpedWeight, hx, if_neg Bool.false_ne_true]
    exact reads_null

lemma word?_of_le {n : ℕ} (h : n ≤ Decimal.maxWord) : Dump.word? (.integer n) = some n := by
  rw [Dump.word?, if_pos ⟨Int.natCast_nonneg n, Int.ofNat_le.mpr h⟩, Int.toNat_natCast]

/-- The dump of an instruction is read, and stands for it unless its weight was no number. -/
lemma exists_reads_dump {i : Instruction Float} (hfits : i.FitsWords)
    (hweight : i.weight.isFinite = true → DumpReadsBack i.weight) :
    ∃ v, Reads i.dump.toList v ∧
      Dump.instruction? v = if i.weight.isFinite then some i else none := by
  obtain ⟨v, hreads, hv⟩ := exists_reads_weight hweight
  have hfields : List.Forall₂ ReadsMember i.fieldTexts
      [(some "opcode", .string i.opcode.name), (some "value", .integer i.operand),
        (some "lag", .integer i.lag), (some "weight", v)] :=
    .cons ⟨isPlain_field "opcode" (by simp [Dump.fields]), rfl,
        Json.reads_quoted (isPlain_name _)⟩ <|
      .cons ⟨isPlain_field "value" (by simp [Dump.fields]), rfl,
        Json.reads_digitsOf hfits.operand⟩ <|
      .cons ⟨isPlain_field "lag" (by simp [Dump.fields]), rfl, Json.reads_digitsOf hfits.lag⟩ <|
      .cons ⟨isPlain_field "weight" (by simp [Dump.fields]), rfl, hreads⟩ .nil
  refine ⟨_, i.toList_dump ▸ Json.reads_objectText hfields, ?_⟩
  have hbuild : Dump.instruction? (.object
      [(some "opcode", .string i.opcode.name), (some "value", .integer i.operand),
        (some "lag", .integer i.lag), (some "weight", v)])
      = Dump.instruction?.build (.string i.opcode.name) (.integer i.operand) (.integer i.lag)
        v := by
    simp [Dump.instruction?, Dump.member?]
  rw [hbuild, Dump.instruction?.build, word?_of_le hfits.operand, word?_of_le hfits.lag, hv]
  simp only [Dump.opcode?, Opcode.ofName?_name]
  cases i.weight.isFinite <;> rfl

end Instruction

/-! ### Buffers -/

namespace Code

open Instruction (DumpReadsBack)

/-- A dump of a buffer is a list of the dumps of its instructions. -/
lemma toList_dump (code : Code Float) :
    (dump code).toList = Json.arrayText (code.map fun i => i.dump.toList) := by
  rw [dump, Json.arrayText]
  simp [String.toList_intercalate, Function.comp_def]

/-- The dumps of instructions are read one by one. -/
lemma exists_reads_items {code : Code Float} (h : ∀ i ∈ code, i.FitsWords ∧
    (i.weight.isFinite = true → DumpReadsBack i.weight)) :
    ∃ vs, List.Forall₂ Json.Reads (code.map fun i => i.dump.toList) vs ∧
      vs.mapM Dump.instruction?
        = if ∀ i ∈ code, i.weight.isFinite = true then some code else none := by
  induction code with
  | nil => exact ⟨[], .nil, rfl⟩
  | cons i rest ih =>
    obtain ⟨⟨hfits, hweight⟩, hrest⟩ := List.forall_mem_cons.mp h
    obtain ⟨v, hreads, hv⟩ := Instruction.exists_reads_dump hfits hweight
    obtain ⟨vs, hitems, hvs⟩ := ih hrest
    refine ⟨v :: vs, .cons hreads hitems, ?_⟩
    have hcons : (∀ j ∈ i :: rest, j.weight.isFinite = true) ↔
        i.weight.isFinite = true ∧ ∀ j ∈ rest, j.weight.isFinite = true := List.forall_mem_cons
    rw [List.mapM_cons, hv, hvs]
    simp only [hcons]
    by_cases hi : i.weight.isFinite = true
    · by_cases hall : ∀ j ∈ rest, j.weight.isFinite = true
      · rw [if_pos hi, if_pos hall, if_pos ⟨hi, hall⟩]
        rfl
      · rw [if_pos hi, if_neg hall, if_neg (not_and_of_not_right _ hall)]
        rfl
    · rw [if_neg hi, if_neg (not_and_of_not_left _ hi)]
      rfl

/-- **A buffer is read back from its dump**, unless one of its weights was no number. -/
theorem ofDump_dump {code : Code Float} (h : ∀ i ∈ code, i.FitsWords ∧
    (i.weight.isFinite = true → DumpReadsBack i.weight)) :
    ofDump (dump code)
      = if ∀ i ∈ code, i.weight.isFinite = true then .ok code else .error .badDump := by
  obtain ⟨vs, hitems, hvs⟩ := exists_reads_items h
  have hread : Json.read (dump code) = some (.array vs) :=
    Json.Reads.read (toList_dump code ▸ Json.reads_arrayText hitems)
  rw [ofDump, hread]
  by_cases hall : ∀ i ∈ code, i.weight.isFinite = true
  · rw [if_pos hall] at hvs ⊢
    simp only [hvs]
  · rw [if_neg hall] at hvs ⊢
    simp only [hvs]

end Code

/-! ### Estimates -/

section Estimates

variable {α : Type}

/-- Running a tree writes into the estimates and does not change their number. -/
lemma size_executeRows (step : Step α) (code : Code α) (ds : Dataset α) (outputIdx outputs : ℕ)
    (remaining row : ℕ) (estimates : Array α) (count : ℕ) :
    (executeRows step code ds outputIdx outputs remaining row estimates count).estimates.size
      = estimates.size := by
  induction remaining generalizing row estimates count with
  | zero => rfl
  | succ remaining ih =>
    rw [executeRows]
    split
    · dsimp only
      split
      · rw [ih, Array.size_setIfInBounds]
      · rfl
    · rfl
    · rfl

lemma size_runTrees (step : Step α) (ds : Dataset α) (outputs : ℕ) (trees : List (Code α))
    (outputIdx : ℕ) (estimates : Array α) (count : ℕ) :
    (runTrees step ds outputs trees outputIdx estimates count).execution.estimates.size
      = estimates.size := by
  induction trees generalizing outputIdx estimates count with
  | nil => rfl
  | cons tree rest ih =>
    have htree : (execute step tree ds estimates outputIdx outputs count).estimates.size
        = estimates.size := size_executeRows ..
    rw [runTrees]
    dsimp only
    split
    · exact htree
    · exact (ih _ _ _).trans htree

end Estimates

namespace Forest

variable {ctx : Context Float} {f g : Forest Float}

lemma size_evaluate (ctx : Context Float) (f : Forest Float) (count : ℕ) :
    (f.evaluate ctx count).forest.estimates.size = ctx.dataset.records * f.outputs := by
  have hruns := size_runTrees ctx.step ctx.dataset f.outputs f.treeCodes 0
    (Array.replicate (ctx.dataset.records * f.outputs) (Scalar.ofNat 0)) count
  rw [Array.size_replicate] at hruns
  rw [evaluate]
  dsimp only
  split
  · exact hruns
  · split <;> exact hruns

lemma size_computeFitness {r : Except Error Float} {s t : Session}
    (h : computeFitness ctx (f, s) = (r, g, t)) :
    g.estimates.size = ctx.dataset.records * g.outputs := by
  rw [(computeFitness_code h).2]
  have hsize := size_evaluate ctx { f with fitness? := none } s.executed
  cases hfailure : (evaluate ctx { f with fitness? := none } s.executed).failure? <;>
    simp only [computeFitness, refresh, hfailure] at h <;> cases h <;> exact hsize

/-- **There is room for an estimate for every row and output**, however the forest arose. -/
theorem Arises.size_estimates (h : Arises ctx f) :
    f.estimates.size = ctx.dataset.records * f.outputs := by
  induction h with
  | built h =>
    obtain ⟨code, rfl⟩ := h.exists_code
    exact Array.size_replicate
  | computed _ h _ => exact size_computeFitness h
  | @refreshed f g r s t _ h _ =>
    obtain rfl := forest_of_refresh h
    rw [(evaluate_code ctx f s.executed).2]
    exact size_evaluate ctx f s.executed
  | mutated _ h ih =>
    obtain ⟨code, _, -, h⟩ := Act.bind_eq_ok.mp h
    cases h
    exact ih
  | son _ _ h iha _ =>
    rcases crossed_cases h with ⟨rfl, -⟩ | ⟨son, _, _, -, -, -, rfl, -⟩
    · exact iha
    · exact iha
  | daughter _ _ h _ ihb =>
    rcases crossed_cases h with ⟨-, rfl⟩ | ⟨_, daughter, _, -, -, -, -, rfl⟩
    · exact ihb
    · exact ihb
  | compact _ ih => exact ih
  | setWeights _ h ih =>
    obtain rfl := eq_of_setWeights h
    exact ih

/-! ### The round trip -/

/-- The forest that is read from the dump of a forest. -/
def restored (records : ℕ) (f : Forest Float) : Except Error (Forest Float) :=
  (Code.ofDump f.code.dump).map (ofCode records)

/-- The numbers in a forest are words, and its finite weights are read back from their dumps. -/
def IsDumpable (f : Forest Float) : Prop := ∀ i ∈ f.code, i.FitsWords ∧
  (i.weight.isFinite = true → Instruction.DumpReadsBack i.weight)

instance (f : Forest Float) : Decidable f.IsDumpable :=
  inferInstanceAs (Decidable (∀ i ∈ f.code, i.FitsWords ∧
    (i.weight.isFinite = true → Instruction.DumpReadsBack i.weight)))

/-- A forest whose weights are numbers is built anew from its instructions. -/
lemma restored_of_isFinite (h : f.IsDumpable) (hfinite : ∀ i ∈ f.code, i.weight.isFinite = true)
    (records : ℕ) : restored records f = .ok (ofCode records f.code) := by
  rw [restored, Code.ofDump_dump h, if_pos hfinite]
  rfl

/-- A closed buffer needs no further separator. -/
lemma code_ofCode_of_isClosed (h : IsClosed f.code) (records : ℕ) :
    (ofCode records f.code).code = f.code ∧
      (ofCode records f.code).outputs = f.code.separators := by
  have hclosed : closed f.code = f.code := by
    rw [closed, h.isUnclosed_eq, if_neg Bool.false_ne_true]
  exact ⟨hclosed, congrArg Code.separators hclosed⟩

/-- A forest that passes the check has an output for each of its trees. -/
lemma outputs_of_validate (h : IsClosed f.code) (hvalid : f.validate = .ok ()) :
    f.outputs = f.code.separators := by
  rw [← h.length_pieces, ← treeCodes_eq]
  exact (validate_eq_ok_iff.mp hvalid).1.symm

/-- The check looks at nothing but the instructions and the number of outputs. -/
lemma validate_congr (hcode : g.code = f.code) (houtputs : g.outputs = f.outputs) :
    g.validate = f.validate := by
  have htrees : g.trees = f.trees := by rw [trees, trees, hcode]
  rw [validate, validate, treeCodes, treeCodes, htrees, hcode, houtputs]

/-- **Forests are read back from their dumps.**  A forest whose weights are numbers comes back with
all of its instructions, and with one output for each tree; if it had as many, then it comes back
with room for as many estimates and passes the same check.  That is so for every forest that was
built of a buffer or a text, for every forest that passes the check, and for all descendants of
random forests.  A weight that is no number cannot be read back. -/
theorem restored_eq (ctx : Context Float) :
    (∀ f, Arises ctx f → f.IsDumpable → (∀ i ∈ f.code, i.weight.isFinite = true) →
      ∃ g, restored ctx.dataset.records f = .ok g ∧ g.code = f.code ∧
        (g.outputs = f.outputs ↔ f.outputs = f.code.separators) ∧
        (g.outputs = f.outputs →
          g.estimates.size = f.estimates.size ∧ g.validate = f.validate)) ∧
    (∀ f, IsDumpable f → (∃ i ∈ f.code, i.weight.isFinite = false) →
      restored ctx.dataset.records f = .error .badDump) ∧
    (∀ f, Built ctx f → f.outputs = f.code.separators) ∧
    (∀ f, Arises ctx f → f.validate = .ok () → f.outputs = f.code.separators) ∧
    ∀ (ds : Dataset Float) (settings : ModelSettings) (f : Forest Float),
      Reachable (.fuzzy ds settings) f → f.outputs = f.code.separators := by
  refine ⟨?_, ?_, ?_, ?_, ?_⟩
  · intro f hf hdump hfinite
    obtain ⟨hcode, houtputs⟩ := code_ofCode_of_isClosed hf.isClosed ctx.dataset.records
    refine ⟨ofCode ctx.dataset.records f.code, restored_of_isFinite hdump hfinite _, hcode, ?_,
      fun hsame => ⟨?_, ?_⟩⟩
    · rw [houtputs, eq_comm]
    · have hbuilt : Arises ctx (ofCode ctx.dataset.records f.code) := .built (.ofCode _)
      rw [hbuilt.size_estimates, hsame, hf.size_estimates]
    · exact validate_congr hcode hsame
  · rintro f hdump ⟨i, hi, hinfinite⟩
    rw [restored, Code.ofDump_dump hdump, if_neg fun hfinite => ?_]
    · rfl
    · rw [hfinite i hi] at hinfinite
      cases hinfinite
  · intro f hf
    obtain ⟨code, rfl⟩ := hf.exists_code
    rfl
  · exact fun f hf hvalid => outputs_of_validate hf.isClosed hvalid
  · intro ds settings f hf
    have hsound := hf.isSound
    exact hsound.outputs.trans hsound.isForest.separators_eq.symm

/-- Aggregates, the largest lag, and weights of placeholders and separators, none of which a token
shows. -/
def unshown : Code Float :=
  [⟨.pastInput, 1, 18446744073709551615, 0.1⟩, ⟨.noOp, 7, 3, -0.0⟩, ⟨.pastOutput, 0, 0, 1e-7⟩,
    ⟨.processAll, 5, 1, 1e22⟩, ⟨.and, 0, 10, 0.30000000000000004⟩, ⟨.separator, 2, 2, -2.5⟩]

/-- All of that comes back, and an infinite weight does not. -/
theorem restored_eq_unshown :
    let f : Forest Float := ofCode 3 unshown
    let h : Forest Float := ofCode 3 [.input 0 (1.0 / 0.0)]
    (∃ g, restored 3 f = .ok g ∧ g.code = unshown ∧ g.outputs = f.outputs ∧
      g.estimates.size = f.estimates.size ∧ g.validate = f.validate) ∧
      restored 3 h = .error .badDump := by
  intro f h
  obtain ⟨hrestored, hinfinite, hbuilt, -, -⟩ :=
    restored_eq (.fuzzy crossDataset {})
  have hf : Built (.fuzzy crossDataset {}) f := .ofCode unshown
  obtain ⟨g, hg, hcode, houtputs, hsame⟩ :=
    hrestored f (.built hf) (by decide +kernel) (by decide +kernel)
  have hcount : g.outputs = f.outputs := houtputs.mpr (hbuilt f hf)
  exact ⟨⟨g, hg, hcode, hcount, hsame hcount⟩, hinfinite h (by decide +kernel) (by decide +kernel)⟩

/-- **An output too many is not read back from a dump.**  The forest has lost a separator in a
mutation and has kept its number of outputs. -/
theorem exists_outputs_not_restored :
    ∃ (ctx : Context Float) (f g : Forest Float), Arises ctx f ∧ f.IsDumpable ∧
      (∀ i ∈ f.code, i.weight.isFinite = true) ∧ restored ctx.dataset.records f = .ok g ∧
      g.outputs ≠ f.outputs ∧ g.estimates.size ≠ f.estimates.size ∧ g.validate ≠ f.validate := by
  let ctx : Context Float := .fuzzy crossDataset {}
  let owing : Forest Float := parse 3 "t0:0.5 ; and:0.5 ;"
  have hrun : (match (mutated ctx 0.5 owing splicing).1 with
      | .ok f => decide (f.code = [.input 0 0.5, .separator] ∧ f.outputs = 2 ∧
          f.estimates.size = 6)
      | .error _ => false) = true := by decide +kernel
  rcases hf : mutated ctx 0.5 owing splicing with ⟨e | f, source⟩ <;> rw [hf] at hrun
  · cases hrun
  obtain ⟨hcode, houtputs, hsize⟩ := of_decide_eq_true hrun
  have harises : Arises ctx f := .mutated (.built (.parse _)) hf
  have hdump : f.IsDumpable := by
    rw [IsDumpable, hcode]
    decide +kernel
  have hfinite : ∀ i ∈ f.code, i.weight.isFinite = true := by
    rw [hcode]
    decide +kernel
  refine ⟨ctx, f, ofCode 3 f.code, harises, hdump, hfinite, restored_of_isFinite hdump hfinite 3,
    ?_, ?_, fun hsame => ?_⟩
  · rw [houtputs, hcode]
    decide +kernel
  · rw [hsize, hcode]
    decide +kernel
  · have hvalid : (ofCode 3 f.code).validate = .ok () := by
      rw [hcode]
      decide +kernel
    have hcount := outputs_of_validate harises.isClosed (hsame ▸ hvalid)
    rw [houtputs, hcode] at hcount
    exact absurd hcount (by decide)

end Forest

end FuzzyForest
