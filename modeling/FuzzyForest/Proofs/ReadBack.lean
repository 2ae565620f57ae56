/-
Forests are read back from their texts.

The text of a forest shows everything but the weights of placeholders and separators, and no rule
looks at these.  Reading the text of a forest therefore gives its instructions without them, and a
forest that is evaluated alike.  The number of outputs is counted anew: it is that of the forest as
long as this had one output for each of its trees.
-/
import FuzzyForest.Proofs.ShownForests

namespace FuzzyForest

open Code (IsClosed)
open Decimal (ReadsBack)
open Instruction (bare)

/-! ### Weights that do not count -/

lemma fuzzyStep_bare (f : Frame Float) (i : Instruction Float) (stack : List Float) :
    fuzzyStep f i.bare stack = fuzzyStep f i stack := by
  cases hi : i.isLive with
  | true => rw [Instruction.bare_of_isLive hi]
  | false =>
    rcases i with ⟨op, v, l, w⟩
    cases op with
    | noOp | separator => rfl
    | _ => cases hi

lemma fuzzyRun_bare (f : Frame Float) (code : Code Float) (stack : List Float) :
    fuzzyRun f (code.map bare) stack = fuzzyRun f code stack := by
  induction code generalizing stack with
  | nil => rfl
  | cons i rest ih =>
    simp only [List.map_cons, fuzzyRun, fuzzyStep_bare]
    exact congrArg _ (funext ih)

lemma runsAlike_bare (code : Code Float) : RunsAlike code (code.map bare) :=
  fun f => fuzzyRun_bare f code []

namespace Code

/-- Bare code falls apart into the bare trees. -/
lemma pieces_bare (code : Code Float) :
    pieces (code.map bare) = (pieces code).map (List.map bare) := by
  induction hlength : code.length using Nat.strong_induction_on generalizing code with
  | _ n ih =>
    cases code with
    | nil => rw [List.map_nil, pieces_nil, List.map_nil]
    | cons i rest =>
      have htake : ((i :: rest).map bare).takeWhile (fun j => !j.isSeparator)
          = ((i :: rest).takeWhile fun j => !j.isSeparator).map bare := by
        rw [List.takeWhile_map]
        simp [Function.comp_def]
      rw [List.map_cons] at htake ⊢
      rw [pieces_cons, pieces_cons, htake, List.length_map, List.map_cons, ← List.map_cons,
        ← List.map_drop, ih _ ?_ _ rfl]
      rw [← hlength, List.length_drop, List.length_cons]
      omega

end Code

namespace Forest

variable {f g : Forest Float}

/-! ### Forests that are evaluated alike -/

/-- Whatever the data, the settings and the error rates are, two forests are given the same fitness,
or none for the same reason, and so are their estimates and, with a fitness, their error rates. -/
def EvaluatesAlike (f g : Forest Float) : Prop :=
  ∀ (ds : Dataset Float) (settings : ModelSettings)
    (rates : Dataset Float → Array Float → ℕ → Option (Float × Float)) (s : Session),
    let r := computeFitness ⟨ds, settings, fuzzySteps, rates⟩ (f, s)
    let r' := computeFitness ⟨ds, settings, fuzzySteps, rates⟩ (g, s)
    r'.1 = r.1 ∧ r'.2.1.estimates = r.2.1.estimates ∧
      (r.1.isOk = true → r'.2.1.p1 = r.2.1.p1 ∧ r'.2.1.p2 = r.2.1.p2)

lemma evaluate_bare {ds : Dataset Float} {settings : ModelSettings}
    {rates : Dataset Float → Array Float → ℕ → Option (Float × Float)}
    (hcode : g.code = f.code.map bare) (houtputs : g.outputs = f.outputs) (count : ℕ) :
    let e := f.evaluate ⟨ds, settings, fuzzySteps, rates⟩ count
    let e' := g.evaluate ⟨ds, settings, fuzzySteps, rates⟩ count
    e'.failure? = e.failure? ∧ e'.forest.estimates = e.forest.estimates ∧
      (e.failure? = none → e'.forest.p1 = e.forest.p1 ∧ e'.forest.p2 = e.forest.p2) := by
  have htrees : g.treeCodes = f.treeCodes.map (List.map bare) := by
    rw [treeCodes_eq, treeCodes_eq, hcode, Code.pieces_bare]
  refine evaluate_alike ?_ houtputs count count
  rw [htrees]
  exact List.forall₂_map_right_iff.mpr (List.forall₂_same.mpr fun tree _ => runsAlike_bare tree)

lemma computeFitness_of_failure {ctx : Context Float} {e : Evaluation Float} {s : Session}
    {cause : ExecutionError Float} (he : evaluate ctx { f with fitness? := none } s.executed = e)
    (h : e.failure? = some cause) :
    ∃ t, computeFitness ctx (f, s) = (.error (.execution cause), e.forest, t) := by
  simp only [computeFitness, refresh, he, h]
  exact ⟨_, rfl⟩

/-- The weights of placeholders and separators do not matter in an evaluation. -/
theorem evaluatesAlike_bare (hcode : g.code = f.code.map bare) (houtputs : g.outputs = f.outputs) :
    EvaluatesAlike f g := by
  intro ds settings rates s
  let ctx : Context Float := ⟨ds, settings, fuzzySteps, rates⟩
  let e := evaluate ctx { f with fitness? := none } s.executed
  let e' := evaluate ctx { g with fitness? := none } s.executed
  obtain ⟨hfailure, hestimates, hrates⟩ :
      e'.failure? = e.failure? ∧ e'.forest.estimates = e.forest.estimates ∧
        (e.failure? = none → e'.forest.p1 = e.forest.p1 ∧ e'.forest.p2 = e.forest.p2) :=
    evaluate_bare (f := { f with fitness? := none }) (g := { g with fitness? := none }) hcode
      houtputs s.executed
  cases h : e.failure? with
  | some cause =>
    obtain ⟨t, hf⟩ := computeFitness_of_failure (f := f) (s := s) rfl h
    obtain ⟨t', hg⟩ := computeFitness_of_failure (f := g) (s := s) rfl (hfailure.trans h)
    dsimp only
    rw [hf, hg]
    exact ⟨rfl, hestimates, nofun⟩
  | none =>
    obtain ⟨t, hf⟩ := computeFitness_of_success (f := f) (s := s) rfl h
    obtain ⟨t', hg⟩ := computeFitness_of_success (f := g) (s := s) rfl (hfailure.trans h)
    obtain ⟨hp1, hp2⟩ := hrates h
    have hlength : e'.forest.code.length = e.forest.code.length := by
      rw [(evaluate_code ctx _ s.executed).1, (evaluate_code ctx _ s.executed).1]
      show g.code.length = f.code.length
      rw [hcode, List.length_map]
    have hfitness : e'.fitness ctx = e.fitness ctx := by
      rw [Evaluation.fitness, Evaluation.fitness, hp1, hp2, hlength]
    dsimp only
    rw [hf, hg]
    exact ⟨congrArg Except.ok hfitness, hestimates, fun _ => ⟨hp1, hp2⟩⟩

/-! ### Texts of forests -/

/-- Tokens show all instructions but for some weights, and the numbers in them are words. -/
def IsPrintable (f : Forest Float) : Prop := ∀ i ∈ f.code, i.IsWritable ∧ i.FitsWords

/-- The finite weights that the text of a forest shows are read back from their shortest decimals. -/
def WeightsReadBack (f : Forest Float) : Prop :=
  ∀ i ∈ f.code, i.isLive = true → i.weight.isFinite = true → ReadsBack i.weight

instance (f : Forest Float) : Decidable f.WeightsReadBack :=
  inferInstanceAs
    (Decidable (∀ i ∈ f.code, i.isLive = true → i.weight.isFinite = true → ReadsBack i.weight))

/-- The weights that are not finite are read back anyway. -/
lemma WeightsReadBack.weight (h : WeightsReadBack f) {i : Instruction Float} (hi : i ∈ f.code) :
    i.WeightReadsBack := by
  intro hlive
  cases hfinite : i.weight.isFinite with
  | true => exact h i hi hlive hfinite
  | false => exact Decimal.readsBack_of_not_isFinite hfinite

lemma isClosed_bare {code : Code Float} (h : IsClosed code) : IsClosed (code.map bare) :=
  h.congr (by simp [Function.comp_def])

lemma separators_bare (code : Code Float) :
    Code.separators (code.map bare) = Code.separators code := by
  rw [Code.separators, List.countP_map]
  simp [Function.comp_def, Code.separators]

/-- **The text of a forest stands for its bare instructions**, with one output for each tree. -/
theorem parse_text_eq (hclosed : IsClosed f.code) (hprintable : f.IsPrintable)
    (hweights : f.WeightsReadBack) (records : ℕ) :
    (parse records f.text).code = f.code.map bare ∧
      (parse records f.text).outputs = f.code.separators := by
  -- tokens are words, so that the text falls apart into them
  have hwords : Text.words f.text = f.code.map Instruction.token := by
    refine Text.words_intercalate fun w hw => ?_
    obtain ⟨i, -, rfl⟩ := List.mem_map.mp hw
    exact i.token_isWord
  have hread : (Text.words f.text).map Instruction.ofTokenOrNoOp = f.code.map bare := by
    rw [hwords, List.map_map]
    refine List.map_congr_left fun i hi => ?_
    obtain ⟨hwritable, hfits⟩ := hprintable i hi
    exact Instruction.ofTokenOrNoOp_token hwritable hfits (hweights.weight hi)
  -- nothing is missing at the end
  have hwhole : closed (f.code.map bare) = f.code.map bare := by
    rw [closed, (isClosed_bare hclosed).isUnclosed_eq, if_neg Bool.false_ne_true]
  rw [parse, hread, ofCode]
  refine ⟨hwhole, ?_⟩
  show (closed (f.code.map bare)).separators = _
  rw [hwhole, separators_bare]

/-- A bare forest has the same text. -/
lemma text_of_bare (hcode : g.code = f.code.map bare) : g.text = f.text := by
  rw [text, text, Code.text, Code.text, hcode, List.map_map]
  simp [Function.comp_def]

/-- Whatever its text is, a forest that was read can be printed. -/
lemma isPrintable_parse (records : ℕ) (text : String) : (parse records text).IsPrintable := by
  intro i hi
  rcases mem_closed hi with hi | rfl
  · obtain ⟨word, -, rfl⟩ := List.mem_map.mp hi
    exact Instruction.isWritable_ofTokenOrNoOp word
  · exact ⟨isShown_separator.toIsWritable, Instruction.fitsWords_plain _ _⟩

/-- A forest that its text shows is printable if its numbers are words. -/
lemma IsShown.isPrintable (h : f.IsShown) (hfits : ∀ i ∈ f.code, i.FitsWords) : f.IsPrintable :=
  fun i hi => ⟨(h i hi).toIsWritable, hfits i hi⟩

lemma IsShown.map_bare (h : f.IsShown) : f.code.map bare = f.code := by
  have hsame : f.code.map bare = f.code.map id :=
    List.map_congr_left fun i hi => (h i hi).bare_eq
  rw [hsame, List.map_id]

/-! ### The round trip -/

/-- **Forests are read back from their texts.**  A forest comes back with its bare instructions, so
with all of them if its text shows everything, and with one output for each tree; it is evaluated as
before if it had as many.  Any text at all is read as a forest whose own text is read as a forest of
that text, evaluated alike.  Forests that were read from tokens alone and descendants of random
forests are shown by their texts and have one output for each tree. -/
theorem parse_text (ctx : Context Float) (records : ℕ) :
    (∀ f, Arises ctx f → f.IsPrintable → f.WeightsReadBack →
      let g := parse records f.text
      g.code = f.code.map bare ∧ (f.IsShown → g.code = f.code) ∧
        (g.outputs = f.outputs ↔ f.outputs = f.code.separators) ∧
        (g.outputs = f.outputs → EvaluatesAlike f g)) ∧
    (∀ (records' : ℕ) (text : String),
      let f := parse records' text
      f.WeightsReadBack →
      let g := parse records f.text
      g.text = f.text ∧ EvaluatesAlike f g) ∧
    (∀ text,
      let f := parse records text
      f.IsPrintable ∧ f.outputs = f.code.separators ∧
        ((∀ word ∈ Text.words text, Instruction.tokenError? word = none) → f.IsShown)) ∧
    ∀ (ds : Dataset Float) (settings : ModelSettings) (f : Forest Float),
      Reachable (.fuzzy ds settings) f → f.IsShown ∧ f.outputs = f.code.separators := by
  refine ⟨?_, ?_, ?_, ?_⟩
  · intro f hf hprintable hweights g
    obtain ⟨hcode, houtputs⟩ := parse_text_eq hf.isClosed hprintable hweights records
    refine ⟨hcode, fun hshown => hcode.trans hshown.map_bare, ?_, evaluatesAlike_bare hcode⟩
    rw [show g.outputs = f.code.separators from houtputs, eq_comm]
  · intro records' text f hweights g
    obtain ⟨hcode, houtputs⟩ :=
      parse_text_eq (isClosed_closed _) (isPrintable_parse records' text) hweights records
    exact ⟨text_of_bare hcode, evaluatesAlike_bare hcode houtputs⟩
  · intro text f
    exact ⟨isPrintable_parse records text, rfl, isShown_parse⟩
  · intro ds settings f hf
    have hsound := hf.isSound
    exact ⟨hf.isShown, hsound.outputs.trans hsound.isForest.separators_eq.symm⟩

/-- A forest of two trees with every kind of terminal, and a text with words that are no tokens. -/
theorem parse_text_twoTrees :
    let f : Forest Float := parse 3 "t0:0.5 t1[2]:0.25 and:0.1 ; o0[1]:0.3 not:1"
    let g := parse 3 f.text
    let h : Forest Float := parse 3 "t0:0.5 all:0.75 or ; ;"
    g.code = f.code ∧ g.outputs = f.outputs ∧ EvaluatesAlike f g ∧ h.text = "t0:0.5 x x ; ;" ∧
      (parse 3 h.text).text = h.text ∧ EvaluatesAlike h (parse 3 h.text) := by
  intro f g h
  obtain ⟨hread, hnormal, hparsed, -⟩ := parse_text (.fuzzy crossDataset {}) 3
  obtain ⟨hprintable, houtputs, htokens⟩ :=
    hparsed "t0:0.5 t1[2]:0.25 and:0.1 ; o0[1]:0.3 not:1"
  have hshown : f.IsShown := htokens (by decide +kernel)
  obtain ⟨-, hcode, hnew, hevaluates⟩ :=
    hread f (.built (.parse _)) hprintable (by decide +kernel)
  have hsame : g.outputs = f.outputs := hnew.mpr houtputs
  obtain ⟨htext, halike⟩ := hnormal 3 "t0:0.5 all:0.75 or ; ;" (by decide +kernel)
  exact ⟨hcode hshown, hsame, hevaluates hsame, by decide +kernel, htext, halike⟩

/-- Words by which a mutation pass leaves the first tree alone and puts a terminal in the place of
the first instruction of the second one. -/
def splicing : Source where
  words n := ([12, 0, 12, 15, 0, 0, 8].getD n 0 * 2 ^ 60).toUInt64
  position := 0
  patience := 4

/-- **One output too many is not read back.**  The subtree of an operator without operands reaches
over the separator in front of it; with another subtree in its place there is one tree less, but the
number of outputs stays. -/
theorem exists_outputs_not_read_back :
    ∃ (ctx : Context Float) (f : Forest Float), Arises ctx f ∧ f.IsShown ∧ f.IsPrintable ∧
      f.WeightsReadBack ∧ (parse ctx.dataset.records f.text).outputs ≠ f.outputs := by
  let ctx : Context Float := .fuzzy crossDataset {}
  let owing : Forest Float := parse 3 "t0:0.5 ; and:0.5 ;"
  have hrun : (match (mutated ctx 0.5 owing splicing).1 with
      | .ok f => decide (f.code = [.input 0 0.5, .separator] ∧ f.outputs = 2)
      | .error _ => false) = true := by decide +kernel
  rcases hf : mutated ctx 0.5 owing splicing with ⟨e | f, source⟩ <;> rw [hf] at hrun
  · cases hrun
  obtain ⟨hcode, houtputs⟩ := of_decide_eq_true hrun
  have howing : owing.IsShown := isShown_parse (by decide +kernel)
  have hfits : ∀ i ∈ f.code, i.FitsWords := by
    rw [hcode]
    exact List.forall_mem_cons.mpr ⟨⟨Nat.zero_le _, Nat.zero_le _⟩,
      List.forall_mem_singleton.mpr (Instruction.fitsWords_plain _ _)⟩
  have hshown : f.IsShown := howing.mutated hf
  refine ⟨ctx, f, .mutated (.built (.parse _)) hf, hshown, hshown.isPrintable hfits, ?_, ?_⟩
  · rw [WeightsReadBack, hcode]
    decide +kernel
  · rw [text, hcode, houtputs]
    decide +kernel

end Forest

end FuzzyForest
