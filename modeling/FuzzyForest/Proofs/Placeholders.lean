/-
Placeholders do not matter.

A placeholder neither reads nor writes the stack, so that a buffer runs, to its end or to the same
failure, as it does without its placeholders.  It ends no tree either, and a forest whose last tree
is closed falls apart into the same trees without them.  Compacting a forest therefore changes
nothing that a check or an evaluation can tell.
-/
import FuzzyForest.Proofs.ArisingForests

namespace FuzzyForest

open Code (IsClosed)

variable {α : Type}

section Runs

variable [Scalar α]

lemma fuzzyStep_of_isNoOp {i : Instruction α} (hi : i.isNoOp = true) (f : Frame α)
    (stack : List α) : fuzzyStep f i stack = .ok stack := by
  simp only [Instruction.isNoOp, decide_eq_true_eq] at hi
  simp only [fuzzyStep, hi]

/-- A run passes over placeholders. -/
lemma fuzzyRun_compact (f : Frame α) (code : Code α) (stack : List α) :
    fuzzyRun f code.compact stack = fuzzyRun f code stack := by
  induction code generalizing stack with
  | nil => rfl
  | cons i rest ih =>
    cases hi : i.isNoOp with
    | true =>
      rw [Code.compact_cons_of_isNoOp hi, fuzzyRun, fuzzyStep_of_isNoOp hi, ih]
      rfl
    | false =>
      rw [Code.compact_cons hi, fuzzyRun, fuzzyRun]
      exact congrArg _ (funext ih)

lemma runsAlike_compact (code : Code α) : RunsAlike code code.compact :=
  fun f => fuzzyRun_compact f code []

end Runs

namespace Code

/-- Without its placeholders a closed buffer falls apart into the trees without theirs. -/
lemma pieces_compact {code : Code α} (h : IsClosed code) :
    pieces code.compact = (pieces code).map compact := by
  induction h using IsClosed.induction with
  | nil => rw [show compact ([] : Code α) = [] from rfl, pieces_nil, List.map_nil]
  | cons tree sep rest htree hsep _ _ ih =>
    rw [compact_tree hsep, pieces_append htree hsep, List.map_cons, ← ih]
    exact pieces_append (fun i hi => htree i (List.mem_filter.mp hi).1) hsep

end Code

namespace Forest

variable {f : Forest Float}

lemma compact_compact (f : Forest Float) : f.compact.compact = f.compact := by
  rw [compact, compact, Code.compact_compact]

section Closed

variable (h : IsClosed f.code)

include h

lemma treeCodes_compact : f.compact.treeCodes = f.treeCodes.map Code.compact := by
  rw [treeCodes_eq, treeCodes_eq]
  exact Code.pieces_compact h

lemma length_trees_compact : f.compact.trees.length = f.trees.length := by
  rw [length_trees, length_trees, show f.compact.code = f.code.compact from rfl,
    Code.pieces_compact h, List.length_map]

/-- A forest passes its check as it does without its placeholders. -/
lemma validate_compact : f.compact.validate = .ok () ↔ f.validate = .ok () := by
  rw [validate_eq_ok_iff, validate_eq_ok_iff, treeCodes_compact h, List.length_map,
    List.forall_mem_map]
  simp only [Code.isWellFormed_compact]
  exact Iff.rfl

variable (ds : Dataset Float) (settings : ModelSettings)
  (rates : Dataset Float → Array Float → ℕ → Option (Float × Float))

lemma evaluate_compact (count count' : ℕ) :
    let e := f.evaluate ⟨ds, settings, fuzzySteps, rates⟩ count
    let e' := f.compact.evaluate ⟨ds, settings, fuzzySteps, rates⟩ count'
    e'.failure? = e.failure? ∧ e'.forest.estimates = e.forest.estimates ∧
      (e.failure? = none → e'.forest.p1 = e.forest.p1 ∧ e'.forest.p2 = e.forest.p2) := by
  refine evaluate_alike (f := f) (g := f.compact) ?_ rfl count count'
  rw [treeCodes_compact h]
  exact List.forall₂_map_right_iff.mpr
    (List.forall₂_same.mpr fun tree _ => runsAlike_compact tree)

/-- A forest is evaluated as it is without its placeholders. -/
lemma refresh_compact (s s' : Session) :
    let run := refresh ⟨ds, settings, fuzzySteps, rates⟩ (f, s)
    let run' := refresh ⟨ds, settings, fuzzySteps, rates⟩ (f.compact, s')
    run'.1 = run.1 ∧ run'.2.1.estimates = run.2.1.estimates ∧ run'.2.1.p1 = run.2.1.p1 ∧
      run'.2.1.p2 = run.2.1.p2 := by
  obtain ⟨hfailure, hestimates, hrates⟩ :=
    evaluate_compact h ds settings rates s.executed s'.executed
  cases he : (f.evaluate ⟨ds, settings, fuzzySteps, rates⟩ s.executed).failure? with
  | none =>
    have hold := hrates he
    rw [he] at hfailure
    simp only [refresh, he, hfailure]
    exact ⟨trivial, hestimates, hold⟩
  | some cause =>
    -- the error rates are those from before, which compacting keeps
    rw [he] at hfailure
    obtain ⟨hp1, hp2⟩ := rates_of_failure he
    obtain ⟨hp1', hp2'⟩ := rates_of_failure hfailure
    simp only [refresh, he, hfailure]
    exact ⟨trivial, hestimates, hp1'.trans hp1.symm, hp2'.trans hp2.symm⟩

end Closed

/-- **Placeholders do not matter anywhere.**  Any buffer runs on any data, from any estimates and
for any output, as it does without its placeholders, to the same estimates and to its end or the
same failure, and leaves the same depth.  A forest that arises from a text, a dump or a random draw,
by whatever can be done to it, is compacted once and for all; it keeps its outputs and its number of
trees, passes its check or not as before, and an evaluation ends alike, with the same estimates and
error rates. -/
theorem compact_transparent :
    (∀ (code : Code Float) (ds : Dataset Float) (estimates : Array Float)
        (outputIdx outputs count count' : ℕ),
      let run := execute fuzzySteps code ds estimates outputIdx outputs count
      let run' := execute fuzzySteps code.compact ds estimates outputIdx outputs count'
      run'.failure? = run.failure? ∧ run'.estimates = run.estimates ∧
        code.compact.residualDepth = code.residualDepth) ∧
    ∀ (ctx : Context Float) (f : Forest Float), Arises ctx f →
      f.compact.compact = f.compact ∧ f.compact.outputs = f.outputs ∧
      f.compact.trees.length = f.trees.length ∧
      (f.compact.validate = .ok () ↔ f.validate = .ok ()) ∧
      ∀ (ds : Dataset Float) (settings : ModelSettings)
        (rates : Dataset Float → Array Float → ℕ → Option (Float × Float)) (s s' : Session),
      let run := refresh ⟨ds, settings, fuzzySteps, rates⟩ (f, s)
      let run' := refresh ⟨ds, settings, fuzzySteps, rates⟩ (f.compact, s')
      run'.1 = run.1 ∧ run'.2.1.estimates = run.2.1.estimates ∧ run'.2.1.p1 = run.2.1.p1 ∧
        run'.2.1.p2 = run.2.1.p2 := by
  constructor
  · intro code ds estimates outputIdx outputs count count'
    obtain ⟨hestimates, hfailure⟩ := executeRows_alike (runsAlike_compact code) ds outputIdx outputs
      ds.records 0 estimates count count'
    exact ⟨hfailure, hestimates, Code.depthFrom_compact 0 code⟩
  · intro ctx f hf
    have hclosed := hf.isClosed
    exact ⟨compact_compact f, rfl, length_trees_compact hclosed, validate_compact hclosed,
      refresh_compact hclosed⟩

/-- The second tree lacks an operand, with its placeholders and without them. -/
theorem compact_transparent_owing :
    let f : Forest Float := parse 3 "t0:0.5 x ; x t0:0.25 x and:1 x"
    let ctx : Context Float := .fuzzy crossDataset {}
    let s : Session := { source := ⟨fun _ => 0, 0, 0⟩ }
    f.compact.text = "t0:0.5 ; t0:0.25 and:1 ;" ∧ f.compact.trees.length = 2 ∧
      (refresh ctx (f.compact, s)).1 = .error (.execution (.stackUnderflow ⟨.and, 0, 0, 1.0⟩)) ∧
      (refresh ctx (f.compact, s)).2.1.estimates = (refresh ctx (f, s)).2.1.estimates := by
  intro f ctx s
  obtain ⟨-, -, htrees, -, hrun⟩ :=
    compact_transparent.2 ctx f (.built (.parse "t0:0.5 x ; x t0:0.25 x and:1 x"))
  obtain ⟨hresult, hestimates, -⟩ := hrun crossDataset {} errorRates s s
  have htwo : f.trees.length = 2 := by decide +kernel
  have hfailure : (refresh ctx (f, s)).1
      = .error (.execution (.stackUnderflow ⟨.and, 0, 0, 1.0⟩)) := by decide +kernel
  exact ⟨by decide +kernel, htrees.trans htwo, hresult.trans hfailure, hestimates⟩

end Forest

end FuzzyForest
