/-
Forests that arise.

A forest arises by being built, from any text or buffer, or by any operation on forests that have
arisen, well formed or not.  Its trees may be broken, and its number of outputs may be out of step
with them; what always stands is that its last tree is closed.
-/
import FuzzyForest.Proofs.CacheCoherence

namespace FuzzyForest

open Act (Gives)
open Code (IsClosed)
open Relation (ReflTransGen)

/-! ### Closed buffers -/

namespace Code

variable {α : Type} {a b : Code α}

/-- Closed buffers stay closed when they are joined. -/
lemma IsClosed.append (ha : IsClosed a) (hb : IsClosed b) : IsClosed (a ++ b) := by
  rcases eq_or_ne b [] with rfl | hne
  · rwa [List.append_nil]
  · exact (isClosed_append hne).mpr hb

lemma isClosed_append_singleton (a : Code α) {i : Instruction α} (hi : i.isSeparator = true) :
    IsClosed (a ++ [i]) := by
  intro j hj
  rw [List.getLast?_concat, Option.mem_some_iff] at hj
  rwa [← hj]

/-- Placeholders at the end are none. -/
lemma IsClosed.compact (ha : IsClosed a) : IsClosed a.compact := by
  rcases List.eq_nil_or_concat a with rfl | ⟨front, i, rfl⟩
  · exact isClosed_nil
  · rw [List.concat_eq_append] at ha ⊢
    have hi : i.isSeparator = true := ha i (by simp)
    rw [compact_tree hi]
    exact isClosed_append_singleton _ hi

end Code

namespace Forest

variable {s : ModelSettings} {shape : Shape}

/-! ### Mutation -/

/-- Behind a live instruction a closed buffer goes on. -/
lemma isClosed_behind {before rest : Code Float} {i : Instruction Float} (hi : i.isLive = true)
    (h : IsClosed (Place.code (before, i :: rest))) : rest ≠ [] ∧ IsClosed rest := by
  have hlast : IsClosed (i :: rest) := (Code.isClosed_append (List.cons_ne_nil i rest)).mp h
  have hne : rest ≠ [] := by
    rintro rfl
    have hsep := hlast i rfl
    rw [Code.isSeparator_of_isLive hi] at hsep
    cases hsep
  exact ⟨hne, (Code.isClosed_append (a := [i]) hne).mp hlast⟩

/-- An edit leaves the last tree closed, also where it reaches over the end of a tree. -/
lemma Edit.isClosed {y z : Place} (h : Edit s shape y z) (hy : IsClosed y.code) :
    IsClosed z.code := by
  have hinstead : ∀ {rest : Code Float} (done : Code Float), rest ≠ [] ∧ IsClosed rest →
      IsClosed (Place.code (done, rest)) :=
    fun done hrest => (Code.isClosed_append hrest.1).mpr hrest.2
  cases h with
  | keep => simpa [Place.code] using hy
  | retune hi => exact hinstead _ (isClosed_behind hi hy)
  | insert hi => exact hinstead _ (isClosed_behind hi hy)
  | @fill before rest i next unary hi hnext =>
    obtain ⟨-, hrest⟩ := isClosed_behind hi hy
    have hne : rest ≠ [] := by
      rintro rfl
      have hsep := hrest next rfl
      rw [(Code.isSpecial_of_isNoOp hnext).2] at hsep
      cases hsep
    exact hinstead _ ⟨hne, (Code.isClosed_append (a := [next]) hne).mp hrest⟩
  | drop hi => exact hinstead _ (isClosed_behind hi hy)
  | redraw hi => exact hinstead _ (isClosed_behind hi hy)
  | graft hi => exact hinstead _ (isClosed_behind hi hy)

lemma isClosed_mutated {ctx : Context Float} {p : Float} {f g : Forest Float}
    {source source' : Source} (hf : IsClosed f.code)
    (h : mutated ctx p f source = (.ok g, source')) : IsClosed g.code := by
  obtain ⟨code, _, hpass, h⟩ := Act.bind_eq_ok.mp h
  cases h
  have hchain := (returns_mutatePass p [] f.code).ok hpass
  have hclosed : ∀ {y z : Place}, ReflTransGen (Edit ctx.settings ctx.shape) y z →
      IsClosed y.code → IsClosed z.code := by
    intro y z hyz hy
    induction hyz with
    | refl => exact hy
    | tail _ hedit ih => exact hedit.isClosed ih
  simpa [Place.code] using hclosed hchain hf

/-! ### Crossing -/

lemma isClosed_treeCopy (tree : Code Float) : IsClosed (treeCopy tree) :=
  Code.isClosed_append_singleton _ rfl

lemma Site.isClosed_graft (a b : Site) : IsClosed (a.graft b) :=
  (Code.isClosed_append (by simp [treeCopy])).mpr (isClosed_treeCopy _)

/-- The parts that two sites exchange. -/
lemma eq_of_exchanged {nontrivial : Bool} {a b : Site} {r : Code Float × Code Float}
    (h : exchanged nontrivial a b = .ok r) :
    r = (treeCopy a.tree, treeCopy b.tree) ∨ r = (a.graft b, b.graft a) := by
  rw [exchanged] at h
  split at h
  · exact .inl (Except.ok.inj h).symm
  · split at h
    · cases h
    · exact .inr (Except.ok.inj h).symm

/-- A pair of trees is copied, or two sites in it are grafted on each other. -/
lemma gives_crossTree (nontrivial : Bool) (p : Float) (a b : Code Float)
    (start1 stop1 start2 stop2 : ℕ) :
    Gives (crossTree nontrivial p a b start1 stop1 start2 stop2) fun r =>
      r = (treeCopy (a.slice (start1, stop1)), treeCopy (b.slice (start2, stop2))) ∨
        ∃ s t : Site, s.code = a ∧ t.code = b ∧ r = (s.graft t, t.graft s) := by
  refine .ite (fun _ => ?_) fun _ => .pure (.inl rfl)
  refine (Gives.any Draw.unit).bind fun x _ => .ite (fun _ => ?_) fun _ => .pure (.inl rfl)
  refine (Gives.any _).bind fun root1 _ => (Gives.any _).bind fun root2 _ => ?_
  -- only two nodes can be crossed at
  cases a[root1]? with
  | none => exact .fail
  | some node1 =>
    cases b[root2]? with
    | none => exact .fail
    | some node2 =>
      refine .ite (fun _ => .pure (.inl rfl)) fun _ => .lift fun r hr => ?_
      exact (eq_of_exchanged hr).imp id fun hgraft => ⟨_, _, rfl, rfl, hgraft⟩

/-- What holds of the parts of crossed forests holds of the forests. -/
lemma gives_crossTrees {P : Code Float → Prop} (hnil : P [])
    (happend : ∀ {front back : Code Float}, P front → P back → P (front ++ back))
    {nontrivial : Bool} {p : Float} {a b : Code Float}
    (htree : ∀ start1 stop1 start2 stop2,
      Gives (crossTree nontrivial p a b start1 stop1 start2 stop2) fun r => P r.1 ∧ P r.2)
    (count start1 start2 : ℕ) :
    Gives (crossTrees nontrivial p a b count start1 start2) fun r => P r.1 ∧ P r.2 := by
  induction count generalizing start1 start2 with
  | zero => exact .pure ⟨hnil, hnil⟩
  | succ count ih =>
    rw [crossTrees]
    refine .ite (fun _ => .fail) fun _ => ?_
    refine (htree _ _ _ _).bind fun tree hpair => (ih _ _).bind fun more hmore => ?_
    exact .pure ⟨happend hpair.1 hmore.1, happend hpair.2 hmore.2⟩

lemma isClosed_crossed {ctx : Context Float} {p : Float} {a b c d : Forest Float} {s t : Session}
    (ha : IsClosed a.code) (hb : IsClosed b.code)
    (h : crossed ctx p a b s = (.ok (c, d), t)) : IsClosed c.code ∧ IsClosed d.code := by
  rcases crossed_cases h with ⟨rfl, rfl⟩ | ⟨son, daughter, _, -, hdraw, -, rfl, rfl⟩
  · exact ⟨ha, hb⟩
  · refine (gives_crossTrees Code.isClosed_nil Code.IsClosed.append ?_ _ _ _).ok hdraw
    intro start1 stop1 start2 stop2
    refine (gives_crossTree _ _ _ _ _ _ _ _).mono ?_
    rintro r (rfl | ⟨x, y, -, -, rfl⟩)
    · exact ⟨isClosed_treeCopy _, isClosed_treeCopy _⟩
    · exact ⟨x.isClosed_graft y, y.isClosed_graft x⟩

/-! ### Any operation -/

/-- The forests that come of any built ones by whatever can be done to them. -/
inductive Arises (ctx : Context Float) : Forest Float → Prop
  | built {f : Forest Float} (h : Built ctx f) : Arises ctx f
  | computed {f g : Forest Float} {r : Except Error Float} {s t : Session} (hf : Arises ctx f)
    (h : computeFitness ctx (f, s) = (r, g, t)) : Arises ctx g
  | refreshed {f g : Forest Float} {r : Except Error Unit} {s t : Session} (hf : Arises ctx f)
    (h : refresh ctx (f, s) = (r, g, t)) : Arises ctx g
  | mutated {f g : Forest Float} {p : Float} {source source' : Source} (hf : Arises ctx f)
    (h : mutated ctx p f source = (.ok g, source')) : Arises ctx g
  | son {a b son daughter : Forest Float} {p : Float} {s t : Session} (ha : Arises ctx a)
    (hb : Arises ctx b) (h : crossed ctx p a b s = (.ok (son, daughter), t)) : Arises ctx son
  | daughter {a b son daughter : Forest Float} {p : Float} {s t : Session} (ha : Arises ctx a)
    (hb : Arises ctx b) (h : crossed ctx p a b s = (.ok (son, daughter), t)) :
    Arises ctx daughter
  | compact {f : Forest Float} (hf : Arises ctx f) : Arises ctx f.compact
  | setWeights {f g : Forest Float} {ws : List Float} (hf : Arises ctx f)
    (h : f.setWeights ws = .ok g) : Arises ctx g

/-- **The last tree of a forest is closed**, however the forest arose. -/
theorem Arises.isClosed {ctx : Context Float} {f : Forest Float} (h : Arises ctx f) :
    IsClosed f.code := by
  induction h with
  | built h =>
    obtain ⟨code, rfl⟩ := h.exists_code
    exact isClosed_closed code
  | computed _ h ih =>
    rw [(computeFitness_code h).1]
    exact ih
  | @refreshed f g r s t _ h ih =>
    obtain rfl := forest_of_refresh h
    rw [(evaluate_code ctx f s.executed).1]
    exact ih
  | mutated _ h ih => exact isClosed_mutated ih h
  | son _ _ h iha ihb => exact (isClosed_crossed iha ihb h).1
  | daughter _ _ h iha ihb => exact (isClosed_crossed iha ihb h).2
  | compact _ ih => exact ih.compact
  | @setWeights f g ws _ h ih =>
    obtain rfl := eq_of_setWeights h
    exact ih.congr (opcodes_reweighted f.code ws)

end Forest

end FuzzyForest
