/-
What becomes of aggregates in a mutation pass.

A pass is a run of turns, each of which draws from where the one before it has stopped, so that the
source tells which turns there are.  Every turn either keeps the aggregates or cuts out the subtree
of its instruction and puts a random tree there, which holds none.  What is gone after the pass was
therefore in what the turns have cut out.  The trees stay well formed throughout, and whether the
last one is closed does not matter.
-/
import FuzzyForest.Proofs.Exchange
import FuzzyForest.Proofs.MutationPass

namespace FuzzyForest.Forest

open Act (Returns)
open Code (IsForest)
open Relation (ReflTransGen)

variable {s : ModelSettings} {shape : Shape} {p : Float}

/-! ### Runs of turns -/

/-- A turn of a pass: the place where it starts, what it does and where it ends. -/
structure Turn where
  start : Place
  change : Change
  stop : Place

/-- The code that a turn cuts out. -/
def Turn.cut (t : Turn) : Code Float := if t.change = .subtree then t.start.subtree else []

/-- The turns from a place on, each with the source that the one before it has left, and the code
at the end. -/
inductive Passes (s : ModelSettings) (shape : Shape) (p : Float) :
    Place → Source → List Turn → Code Float → Source → Prop
  | done (before : Code Float) (source : Source) :
    Passes s shape p (before, []) source [] before.reverse source
  | turn {before rest code : Code Float} {i : Instruction Float} {change : Change} {z : Place}
    {turns : List Turn} {source source' source'' : Source}
    (hturn : turn s shape p before i rest source = (.ok (change, z), source'))
    (hrest : Passes s shape p z source' turns code source'') :
    Passes s shape p (before, i :: rest) source (⟨(before, i :: rest), change, z⟩ :: turns) code
      source''

/-- A pass is the run of its turns. -/
lemma exists_passes {before rest code : Code Float} {source source' : Source}
    (h : mutatePass s shape p before rest source = (.ok code, source')) :
    ∃ turns, Passes s shape p (before, rest) source turns code source' := by
  induction hlength : rest.length using Nat.strong_induction_on generalizing before rest source with
  | _ n ih =>
    subst hlength
    cases rest with
    | nil =>
      rw [mutatePass] at h
      cases h
      exact ⟨[], .done _ _⟩
    | cons i rest =>
      rw [mutatePass_cons] at h
      obtain ⟨⟨change, z⟩, middle, hturn, hrest⟩ := Act.bind_eq_ok.mp h
      obtain ⟨turns, hturns⟩ := ih _ ((returns_turn p).ok hturn).edit.length_lt hrest rfl
      exact ⟨_, .turn hturn hturns⟩

namespace Passes

variable {y : Place} {turns : List Turn} {code : Code Float} {source source' : Source}

lemma turned (h : Passes s shape p y source turns code source') :
    ∀ t ∈ turns, Turned s shape t.start t.change t.stop := by
  induction h with
  | done => exact nofun
  | turn hturn _ ih => exact List.forall_mem_cons.mpr ⟨(returns_turn p).ok hturn, ih⟩

end Passes

/-- The aggregates at the start of a turn are those at its end and those that it cuts out. -/
lemma Turned.perm {t : Turn} (h : Turned s shape t.start t.change t.stop) :
    t.start.code.aggregates.Perm (t.stop.code.aggregates ++ t.cut.aggregates) := by
  by_cases hchange : t.change = .subtree
  · obtain ⟨front, tree, back, hstart, hstop, htree⟩ := h.replaced hchange
    have hnone : tree.aggregates = [] :=
      Code.aggregates_eq_nil fun i hi => (htree.drawn i hi).inRange.notAggregate
    rw [Turn.cut, if_pos hchange, hstart, hstop]
    simp only [Code.aggregates_append, hnone, List.append_nil]
    rw [List.append_assoc, List.append_assoc]
    exact List.perm_append_comm.append_left _
  · rw [Turn.cut, if_neg hchange, h.kept hchange]
    exact (List.append_nil _).symm ▸ .refl _

/-- **The aggregates before a pass are those behind it and those that its turns have cut out.** -/
lemma Passes.perm {y : Place} {turns : List Turn} {code : Code Float} {source source' : Source}
    (h : Passes s shape p y source turns code source') :
    y.code.aggregates.Perm (code.aggregates ++ turns.flatMap fun t => t.cut.aggregates) := by
  induction h with
  | done before source => simp [Place.code]
  | @turn before rest code i change z turns source middle source' hturn hrest ih =>
    have hone := Turned.perm (t := ⟨(before, i :: rest), change, z⟩) ((returns_turn p).ok hturn)
    refine hone.trans ((ih.append_right _).trans ?_)
    rw [List.flatMap_cons, List.append_assoc]
    exact List.perm_append_comm.append_left _

/-! ### Trees -/

/-- Edits do not see what stands behind a tree. -/
lemma Edit.append {y z : Place} (h : Edit s shape y z) {tail : Code Float}
    (htail : ∀ i ∈ tail.head?, i.isSeparator = true) :
    Edit s shape (y.1, y.2 ++ tail) (z.1, z.2 ++ tail) := by
  cases h with
  | keep => exact .keep
  | retune hi hj => exact .retune hi hj
  | insert hi hallow hunary harity => exact .insert hi hallow hunary harity
  | fill hi hnext hallow hunary harity => exact .fill hi hnext hallow hunary harity
  | @drop before rest i hi ha harity hspare =>
    have haround : liveAround before (i :: (rest ++ tail)) = liveAround before (i :: rest) := by
      simp only [liveAround]
      rw [← List.cons_append, Code.takeWhile_append_tail htail]
    exact .drop hi ha harity (haround ▸ hspare)
  | redraw hi ha hj harity => exact .redraw hi ha hj harity
  | graft hi htree => exact .graft hi htree

/-- Edits of a valid forest give a valid forest with as many trees. -/
lemma validate_of_edits {f : Forest Float} (hf : f.validate = .ok ()) {code : Code Float}
    (h : ReflTransGen (Edit s shape) ([], f.code) (code.reverse, [])) :
    ({ f with code, fitness? := none } : Forest Float).validate = .ok () ∧
      ({ f with code, fitness? := none } : Forest Float).trees.length = f.trees.length := by
  obtain ⟨hlength, htrees⟩ := validate_eq_ok_iff.mp hf
  rw [treeCodes_eq] at hlength htrees
  obtain ⟨tail, htail, hforest⟩ := Code.exists_closing htrees
  have hhead : ∀ i ∈ tail.head?, i.isSeparator = true := by
    rcases htail with rfl | rfl
    · exact nofun
    · simp
  -- the same edits lead from the closed forest to one that is closed in the same way
  have hedits : ReflTransGen (Edit s shape) ([], f.code ++ tail) (code.reverse, tail) :=
    h.lift (fun y : Place => (y.1, y.2 ++ tail)) fun y z hedit => hedit.append hhead
  have hend : IsForest f.code.pieces.length (Place.code (code.reverse, tail)) :=
    Edit.isForest_chain hedits hforest
  rw [Place.code, List.reverse_reverse] at hend
  obtain ⟨hcount, hnew⟩ := hend.pieces_of_closing htail
  rw [validate_eq_ok_iff, treeCodes_eq, length_trees, length_trees]
  exact ⟨⟨hcount.trans hlength, hnew⟩, hcount⟩

/-- **Mutating a valid forest gives a valid forest with as many trees.  Every turn of the pass keeps
the aggregates or puts a random tree in the place of a subtree, and the aggregates that are gone are
those of the subtrees that were replaced.** -/
theorem mutated_keeps_aggregates (ctx : Context Float) (p : Float) {f : Forest Float}
    (hf : f.validate = .ok ()) (source : Source) :
    match mutated ctx p f source with
    | (.error e, _) => e = .stalled
    | (.ok g, source') => g.validate = .ok () ∧ g.trees.length = f.trees.length ∧
        ∃ turns, Passes ctx.settings ctx.shape p ([], f.code) source turns g.code source' ∧
          (∀ t ∈ turns, Turned ctx.settings ctx.shape t.start t.change t.stop) ∧
          f.code.aggregates.Perm (g.code.aggregates ++ turns.flatMap fun t => t.cut.aggregates) := by
  rcases hmutated : mutated ctx p f source with ⟨e | g, source'⟩
  · have hreturns : Returns (mutated ctx p f) fun _ => True :=
      (returns_mutatePass p [] f.code).bind fun _ _ => .pure trivial
    exact hreturns.error trivial hmutated
  · obtain ⟨code, middle, hpass, hg⟩ := Act.bind_eq_ok.mp hmutated
    cases hg
    obtain ⟨hvalid, hlength⟩ := validate_of_edits hf ((returns_mutatePass p [] f.code).ok hpass)
    obtain ⟨turns, hturns⟩ := exists_passes hpass
    exact ⟨hvalid, hlength, turns, hturns, hturns.turned, hturns.perm⟩

/-- The words that replace the aggregate of two inputs, after both of these have changed in place. -/
def aggregateReplaced : Source :=
  ⟨fun n => if n = 9 ∨ n = 10 then 18446744073709551615 else 0, 0, 4⟩

/-- The aggregate is gone, and a turn has cut it out with its subtree. -/
theorem mutated_keeps_aggregates_averaging :
    averaging.validate = .ok () ∧ averaging.code.aggregates = [(0, 0)] ∧
    ∃ g source', mutated (.fuzzy pairDataset {}) 1.0 averaging aggregateReplaced = (.ok g, source') ∧
      g.validate = .ok () ∧ g.code.aggregates = [] ∧
      ∃ turns, Passes {} (Context.fuzzy pairDataset {}).shape 1.0 ([], averaging.code)
          aggregateReplaced turns g.code source' ∧
        ∃ t ∈ turns, t.change = .subtree ∧ (0, 0) ∈ t.cut.aggregates := by
  have hvalid : averaging.validate = .ok () := by decide +kernel
  have haggregates : averaging.code.aggregates = [(0, 0)] := by decide +kernel
  refine ⟨hvalid, haggregates, ?_⟩
  have h := mutated_keeps_aggregates (.fuzzy pairDataset {}) 1.0 hvalid aggregateReplaced
  have hnone : (mutated (.fuzzy pairDataset {}) 1.0 averaging aggregateReplaced).1.toOption.map
      (fun g => g.code.aggregates) = some [] := by decide +kernel
  rcases hmutated : mutated (.fuzzy pairDataset {}) 1.0 averaging aggregateReplaced
    with ⟨e | g, source'⟩ <;> rw [hmutated] at h hnone
  · cases hnone
  · obtain ⟨hg, -, turns, hturns, -, hperm⟩ := h
    have hgone : g.code.aggregates = [] := by simpa [Except.toOption] using hnone
    refine ⟨g, source', rfl, hg, hgone, turns, hturns, ?_⟩
    have hmem : (0, 0) ∈ turns.flatMap fun t => t.cut.aggregates := by
      rw [haggregates, hgone, List.nil_append] at hperm
      exact hperm.subset (by simp)
    obtain ⟨t, ht, hcut⟩ := List.mem_flatMap.mp hmem
    refine ⟨t, ht, ?_, hcut⟩
    by_contra hchange
    rw [Turn.cut, if_neg hchange] at hcut
    cases hcut

end FuzzyForest.Forest
