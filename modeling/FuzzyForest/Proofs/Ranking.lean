/-
Correct rankings.

A list is ranked when no entry is strictly better than one before it.  Where being better is a
strict weak order on the entries, `sorted` ranks any list, and it does so in the only way that
leaves ties in their order (`eq_sorted`).  `settled?` ranks a list in which at most one entry is out
of place, wherever that entry stands.
-/
import FuzzyForest.Population.Sorting
import Mathlib.Tactic.Common

namespace FuzzyForest.Ranking

variable {ι : Type} {better : ι → ι → Bool} {S : ι → Prop}

/-- No entry is strictly better than one before it. -/
def BestFirst (better : ι → ι → Bool) (xs : List ι) : Prop :=
  xs.Pairwise fun x y => better y x = false

/-- What is not better stays so along a chain. -/
lemma IsWeakOrder.not_better_trans (h : IsWeakOrder better S) {x y z : ι} (hy : S y)
    (hxy : better x y = false) (hyz : better y z = false) : better x z = false := by
  by_contra hxz
  rcases h.split hy (eq_true_of_ne_false hxz) with h' | h'
  · rw [hxy] at h'
    cases h'
  · rw [hyz] at h'
    cases h'

lemma BestFirst.sublist {xs ys : List ι} (h : BestFirst better ys) (hs : xs.Sublist ys) :
    BestFirst better xs :=
  List.Pairwise.sublist hs h

/-! ### Sorting -/

/-- An entry that is put into a list written from the last entry to the first stands behind all
that it is not better than. -/
lemma place_worstFirst (h : IsWeakOrder better S) (x : ι) {placed : List ι}
    (hS : ∀ y ∈ placed, S y) (hp : placed.Pairwise fun y z => better y z = false) :
    (place better x placed).Pairwise fun y z => better y z = false := by
  induction placed with
  | nil => exact List.pairwise_singleton _ _
  | cons y placed ih =>
    obtain ⟨hy, hp'⟩ := List.pairwise_cons.mp hp
    rw [place]
    split
    · rename_i hxy
      refine List.pairwise_cons.mpr ⟨?_, ih (fun z hz => hS z (List.mem_cons_of_mem _ hz)) hp'⟩
      intro z hz
      rcases List.mem_cons.mp ((place_perm better x placed).mem_iff.mp hz) with rfl | hz
      · exact h.asymm hxy
      · exact hy z hz
    · rename_i hxy
      have hxy : better x y = false := eq_false_of_ne_true hxy
      refine List.pairwise_cons.mpr ⟨?_, hp⟩
      intro z hz
      rcases List.mem_cons.mp hz with rfl | hz
      · exact hxy
      · exact h.not_better_trans (hS y List.mem_cons_self) hxy (hy z hz)

/-- Sorting ranks. -/
theorem sorted_bestFirst (h : IsWeakOrder better S) {xs : List ι} (hS : ∀ x ∈ xs, S x) :
    BestFirst better (sorted better xs) := by
  suffices hfold : ∀ placed : List ι, (∀ y ∈ placed, S y) →
      placed.Pairwise (fun y z => better y z = false) →
      (xs.foldl (fun placed x => place better x placed) placed).Pairwise
        fun y z => better y z = false from
    List.pairwise_reverse.mpr (hfold [] (by simp) .nil)
  induction xs with
  | nil => intro placed _ hp; exact hp
  | cons x xs ih =>
    intro placed hplaced hp
    refine ih (fun y hy => hS y (List.mem_cons_of_mem _ hy)) _ ?_ (place_worstFirst h x hplaced hp)
    intro y hy
    rcases List.mem_cons.mp ((place_perm better x placed).mem_iff.mp hy) with rfl | hy
    · exact hS y List.mem_cons_self
    · exact hplaced y hy

/-! ### Ties -/

/-- Neither of two entries is better. -/
def tied (better : ι → ι → Bool) (x y : ι) : Bool := !better x y && !better y x

lemma tied_iff {x y : ι} :
    tied better x y = true ↔ better x y = false ∧ better y x = false := by
  simp [tied]

/-- An entry passes none that it is tied with: those that it passes are worse than what it is tied
with. -/
lemma filter_tied_place (h : IsWeakOrder better S) {x : ι} (hx : S x) (w : ι) (placed : List ι) :
    (place better w placed).filter (tied better x) = (w :: placed).filter (tied better x) := by
  induction placed with
  | nil => rfl
  | cons y placed ih =>
    rw [place]
    split
    · rename_i hwy
      have hone : tied better x w = false ∨ tied better x y = false := by
        by_contra! hboth
        obtain ⟨hxw, hwx⟩ := tied_iff.mp (eq_true_of_ne_false hboth.1)
        obtain ⟨hxy, hyx⟩ := tied_iff.mp (eq_true_of_ne_false hboth.2)
        rcases h.split hx hwy with h' | h'
        · rw [hwx] at h'
          cases h'
        · rw [hxy] at h'
          cases h'
      rw [List.filter_cons, ih]
      rcases hone with hw | hy
      · simp [List.filter_cons, hw]
      · simp [List.filter_cons, hy]
    · rfl

/-- **Sorting leaves ties in their order.** -/
theorem filter_tied_sorted (h : IsWeakOrder better S) {x : ι} (hx : S x) (xs : List ι) :
    (sorted better xs).filter (tied better x) = xs.filter (tied better x) := by
  suffices hfold : ∀ placed : List ι,
      (xs.foldl (fun placed x => place better x placed) placed).reverse.filter (tied better x)
        = placed.reverse.filter (tied better x) ++ xs.filter (tied better x) from hfold []
  induction xs with
  | nil => simp
  | cons w xs ih =>
    intro placed
    rw [List.foldl_cons, ih, List.filter_reverse, filter_tied_place h hx, ← List.filter_reverse,
      List.reverse_cons, List.filter_append, List.append_assoc, ← List.filter_append,
      List.singleton_append]

/-- Two rankings of the same entries that leave ties in the same order are one. -/
lemma BestFirst.eq_of_filter_tied (hasymm : ∀ x y, better x y = true → better y x = false)
    {xs ys : List ι} (hxs : BestFirst better xs) (hys : BestFirst better ys) (hperm : xs.Perm ys)
    (hties : ∀ x ∈ xs, xs.filter (tied better x) = ys.filter (tied better x)) : xs = ys := by
  induction xs generalizing ys with
  | nil => exact hperm.nil_eq
  | cons x xs ih =>
    cases ys with
    | nil => exact absurd hperm.length_eq (Nat.succ_ne_zero _)
    | cons y ys =>
      obtain ⟨hx, hxs'⟩ := List.pairwise_cons.mp hxs
      obtain ⟨hy, hys'⟩ := List.pairwise_cons.mp hys
      have hself : ∀ z, better z z = false := fun z =>
        eq_false_of_ne_true fun hz => Bool.false_ne_true ((hasymm z z hz).symm.trans hz)
      -- the first entries of both are tied, and each is the first that the first one is tied with
      have hxy : better y x = false := by
        rcases List.mem_cons.mp (hperm.mem_iff.mpr List.mem_cons_self) with rfl | hmem
        · exact hself y
        · exact hx y hmem
      have hyx : better x y = false := by
        rcases List.mem_cons.mp (hperm.mem_iff.mp List.mem_cons_self) with rfl | hmem
        · exact hself x
        · exact hy x hmem
      have hfirst := hties x List.mem_cons_self
      rw [List.filter_cons_of_pos (tied_iff.mpr ⟨hself x, hself x⟩),
        List.filter_cons_of_pos (tied_iff.mpr ⟨hyx, hxy⟩)] at hfirst
      obtain rfl : x = y := (List.cons.inj hfirst).1
      rw [ih hxs' hys' hperm.cons_inv fun z hz => ?_]
      have hrest := hties z (List.mem_cons_of_mem _ hz)
      rw [List.filter_cons, List.filter_cons] at hrest
      split at hrest
      · exact (List.cons.inj hrest).2
      · exact hrest

/-- **There is one way to rank entries that leaves ties in their order.** -/
theorem eq_sorted {xs ys : List ι} (h : IsWeakOrder better (· ∈ xs)) (hperm : ys.Perm xs)
    (hbest : BestFirst better ys)
    (hties : ∀ x ∈ xs, ys.filter (tied better x) = xs.filter (tied better x)) :
    ys = sorted better xs := by
  refine hbest.eq_of_filter_tied (fun _ _ => h.asymm) (sorted_bestFirst h fun _ hx => hx)
    (hperm.trans (sorted_perm better xs).symm) fun x hx => ?_
  have hmem : x ∈ xs := hperm.mem_iff.mp hx
  exact (hties x hmem).trans (filter_tied_sorted h hmem xs).symm

/-! ### Moving one entry -/

/-- The entries that an entry passes on its way to the front keep their order. -/
lemma risen_append (x : ι) (before after : List ι) :
    (risen better x before after).1.reverse ++ (risen better x before after).2
      = before.reverse ++ after := by
  induction before generalizing after with
  | nil => rfl
  | cons y before ih =>
    rw [risen]
    split
    · rw [ih, List.reverse_cons, List.append_assoc, List.singleton_append]
    · rfl

/-- The entries that an entry passes on its way to the back keep their order. -/
lemma sunk_append (x : ι) (before after : List ι) :
    (sunk better x before after).1.reverse ++ (sunk better x before after).2
      = before.reverse ++ after := by
  induction after generalizing before with
  | nil => rfl
  | cons y after ih =>
    rw [sunk]
    split
    · rw [ih, List.reverse_cons, List.append_assoc, List.singleton_append]
    · rfl

lemma moved_append (x : ι) (before after : List ι) :
    (moved better x before after).1.reverse ++ (moved better x before after).2
      = before.reverse ++ after :=
  (sunk_append x _ _).trans (risen_append x before after)

/-- An entry that has risen is no better than those that are still before it. -/
lemma not_better_risen (h : IsWeakOrder better S) (x : ι) {before : List ι} (after : List ι)
    (hS : ∀ y ∈ before, S y) (hp : before.Pairwise fun y z => better y z = false) :
    ∀ y ∈ (risen better x before after).1, better x y = false := by
  induction before generalizing after with
  | nil => intro y hy; cases hy
  | cons y before ih =>
    obtain ⟨hy, hp'⟩ := List.pairwise_cons.mp hp
    rw [risen]
    split
    · exact ih _ (fun z hz => hS z (List.mem_cons_of_mem _ hz)) hp'
    · rename_i hxy
      have hxy : better x y = false := eq_false_of_ne_true hxy
      intro z hz
      rcases List.mem_cons.mp hz with rfl | hz
      · exact hxy
      · exact h.not_better_trans (hS y List.mem_cons_self) hxy (hy z hz)

/-- Sinking keeps what an entry is no better than, and stops where nothing behind is better. -/
lemma not_better_sunk (h : IsWeakOrder better S) (x : ι) {before after : List ι}
    (hS : ∀ y ∈ after, S y) (hp : BestFirst better after)
    (hx : ∀ y ∈ before, better x y = false) :
    (∀ y ∈ (sunk better x before after).1, better x y = false) ∧
      ∀ y ∈ (sunk better x before after).2, better y x = false := by
  induction after generalizing before with
  | nil => exact ⟨hx, by simp [sunk]⟩
  | cons y after ih =>
    obtain ⟨hy, hp'⟩ := List.pairwise_cons.mp hp
    rw [sunk]
    split
    · rename_i hyx
      refine ih (fun z hz => hS z (List.mem_cons_of_mem _ hz)) hp' ?_
      intro z hz
      rcases List.mem_cons.mp hz with rfl | hz
      · exact h.asymm hyx
      · exact hx z hz
    · rename_i hyx
      have hyx : better y x = false := eq_false_of_ne_true hyx
      refine ⟨hx, ?_⟩
      intro z hz
      rcases List.mem_cons.mp hz with rfl | hz
      · exact hyx
      · exact h.not_better_trans (hS y List.mem_cons_self) (hy z hz) hyx

/-- An entry that moves among ranked ones finds its place. -/
lemma moved_bestFirst (h : IsWeakOrder better S) (x : ι) {before after : List ι}
    (hS : ∀ y ∈ before ++ after, S y) (hp : BestFirst better (before.reverse ++ after)) :
    BestFirst better ((moved better x before after).1.reverse
      ++ x :: (moved better x before after).2) := by
  obtain ⟨hbefore, -, -⟩ := List.pairwise_append.mp hp
  have hrisen := not_better_risen h x after (fun y hy => hS y (List.mem_append_left _ hy))
    (List.pairwise_reverse.mp hbefore)
  have hall : BestFirst better ((risen better x before after).1.reverse
      ++ (risen better x before after).2) := by rwa [risen_append]
  have hafter : ∀ y ∈ (risen better x before after).2, S y := fun y hy =>
    hS y ((risen_perm better x before after).mem_iff.mp (List.mem_append_right _ hy))
  -- after both passes the entry is no better than what is before it and no worse than the rest
  have hsunk := not_better_sunk h x hafter (List.pairwise_append.mp hall).2.1 hrisen
  have hothers : BestFirst better ((moved better x before after).1.reverse
      ++ (moved better x before after).2) := by rwa [moved_append]
  obtain ⟨hfront, hback, hcross⟩ := List.pairwise_append.mp hothers
  refine List.pairwise_append.mpr ⟨hfront, List.pairwise_cons.mpr ⟨hsunk.2, hback⟩, ?_⟩
  intro y hy z hz
  rcases List.mem_cons.mp hz with rfl | hz
  · exact hsunk.1 y (List.mem_reverse.mp hy)
  · exact hcross y hy z hz

/-- A list around the entry at a position. -/
lemma split_at {xs : List ι} {position : Nat} (hlt : position < xs.length) :
    xs = (xs.take position).reverse.reverse ++ xs[position] :: xs.drop (position + 1) := by
  rw [List.reverse_reverse, List.getElem_cons_drop, List.take_append_drop]

/-- Settling moves the entry at a position and keeps all entries. -/
lemma settled?_eq (better : ι → ι → Bool) {xs : List ι} {position : Nat}
    (hlt : position < xs.length) :
    ∃ around place, around = moved better xs[position] (xs.take position).reverse
        (xs.drop (position + 1)) ∧
      settled? better xs position = some (around.1.reverse ++ xs[position] :: around.2, place) ∧
      (around.1.reverse ++ xs[position] :: around.2).Perm xs := by
  refine ⟨_, _, rfl, by rw [settled?, List.drop_eq_getElem_cons hlt], ?_⟩
  refine List.Perm.trans ?_ (List.Perm.of_eq (split_at hlt).symm)
  refine List.perm_middle.trans (List.Perm.trans ?_ List.perm_middle.symm)
  rw [moved_append]

/-- **If all entries but the one at `position` are ranked, that one finds its place among them.** -/
theorem settled_bestFirst (h : IsWeakOrder better S) {xs : List ι} {position : Nat}
    (hlt : position < xs.length) (hS : ∀ x ∈ xs, S x)
    (hp : BestFirst better (xs.eraseIdx position)) :
    ∃ ys place, settled? better xs position = some (ys, place) ∧ ys.Perm xs ∧
      BestFirst better ys := by
  obtain ⟨_, place, rfl, hsettled, hperm⟩ := settled?_eq better hlt
  refine ⟨_, place, hsettled, hperm, moved_bestFirst h _ ?_ ?_⟩
  · intro y hy
    refine hS y ?_
    rw [split_at hlt]
    simp only [List.mem_append, List.mem_reverse, List.mem_cons] at hy ⊢
    tauto
  · rwa [List.reverse_reverse, ← List.eraseIdx_eq_take_drop_succ]

/-! ### The first entry -/

/-- The first entry is the same one or gives way to a better one. -/
def Leads (better : ι → ι → Bool) (xs ys : List ι) : Prop :=
  ys.head? = xs.head? ∨ ∃ x ∈ xs.head?, ∃ y ∈ ys.head?, better y x = true

lemma Leads.refl (xs : List ι) : Leads better xs xs := .inl rfl

section

variable (htrans : ∀ x y z, better x y = true → better y z = true → better x z = true)

include htrans

lemma Leads.trans {xs ys zs : List ι} (h : Leads better xs ys) (h' : Leads better ys zs) :
    Leads better xs zs := by
  rcases h with h | ⟨x, hx, y, hy, hyx⟩
  · rwa [Leads, h] at h'
  · rcases h' with h' | ⟨y', hy', z, hz, hzy⟩
    · exact .inr ⟨x, hx, y, h' ▸ hy, hyx⟩
    · obtain rfl : y' = y := Option.mem_unique hy' hy
      exact .inr ⟨x, hx, z, hz, htrans _ _ _ hzy hyx⟩

omit htrans

/-- An entry that is put into a list written from the last entry to the first passes the last one
only if it is better. -/
lemma getLast?_place (x : ι) {placed : List ι} {a : ι} (ha : placed.getLast? = some a) :
    (place better x placed).getLast? = some a ∨
      (place better x placed).getLast? = some x ∧ better x a = true := by
  induction placed with
  | nil => cases ha
  | cons y placed ih =>
    rw [place]
    split
    · rename_i hxy
      cases placed with
      | nil =>
        cases ha
        exact .inr ⟨rfl, hxy⟩
      | cons z placed =>
        have hne : place better x (z :: placed) ≠ [] :=
          List.ne_nil_of_length_eq_add_one (length_place better x _)
        rw [List.getLast?_cons_of_ne_nil hne]
        exact ih (by rwa [List.getLast?_cons_cons] at ha)
    · exact .inl (by rwa [List.getLast?_cons_cons])

include htrans

/-- Sorting keeps the first entry in front unless a better one is there. -/
lemma leads_sorted (xs : List ι) : Leads better xs (sorted better xs) := by
  suffices h : ∀ (rest placed : List ι) (a : ι), placed.getLast? = some a →
      Leads better [a] (rest.foldl (fun placed x => place better x placed) placed).reverse by
    cases xs with
    | nil => exact .refl _
    | cons a rest => exact h rest [a] a rfl
  intro rest
  induction rest with
  | nil =>
    intro placed a ha
    exact .inl (by simp [ha])
  | cons x rest ih =>
    intro placed a ha
    rcases getLast?_place x ha with h | ⟨h, hxa⟩
    · exact ih _ a h
    · exact Leads.trans htrans (.inr ⟨a, rfl, x, rfl, hxa⟩) (ih _ x h)

/-- The first entry belongs to the better half, which is kept when the rest is replaced. -/
lemma leads_sorted_half {xs : List ι} (h : 2 ≤ xs.length) (fresh : List ι) :
    Leads better xs (sorted better (xs.take (xs.length / 2) ++ fresh)) := by
  have hhead : (xs.take (xs.length / 2) ++ fresh).head? = xs.head? := by
    obtain ⟨x, rest, hx⟩ := List.exists_cons_of_length_pos (show 0 < xs.length by omega)
    obtain ⟨k, hk⟩ := Nat.exists_eq_succ_of_ne_zero (show xs.length / 2 ≠ 0 by omega)
    rw [hk, hx, List.take_succ_cons, List.cons_append, List.head?_cons, List.head?_cons]
  rw [Leads, ← hhead]
  exact leads_sorted htrans _

omit htrans

/-- An entry that rises to the front has passed all others. -/
lemma better_of_risen (x : ι) {before after : List ι}
    (h : (risen better x before after).1 = []) : ∀ y ∈ before, better x y = true := by
  induction before generalizing after with
  | nil => exact nofun
  | cons y before ih =>
    rw [risen] at h
    split at h
    · exact List.forall_mem_cons.mpr ⟨‹_›, ih h⟩
    · cases h

/-- An entry that sinks has passed the one behind it. -/
lemma better_of_sunk (x : ι) {before after : List ι} (h : (sunk better x before after).1 ≠ before) :
    ∃ y ∈ after.head?, better y x = true := by
  cases after with
  | nil => exact absurd rfl h
  | cons y after =>
    rw [sunk] at h
    split at h
    · exact ⟨y, rfl, ‹_›⟩
    · exact absurd rfl h

lemma sunk_eq_nil (x : ι) {before after : List ι} (h : (sunk better x before after).1 = []) :
    before = [] := by
  induction after generalizing before with
  | nil => exact h
  | cons y after ih =>
    rw [sunk] at h
    split at h
    · exact absurd (ih h) (List.cons_ne_nil _ _)
    · exact h

include htrans

/-- An entry that takes the place of a worse one and settles does not displace a better one from
the front. -/
lemma leads_settled {xs ys : List ι} {target place : Nat} {old new : ι}
    (hold : xs[target]? = some old) (hbetter : better new old = true)
    (hsettled : settled? better (xs.set target new) target = some (ys, place)) :
    Leads better xs ys := by
  obtain ⟨hlt, -⟩ := List.getElem?_eq_some_iff.mp hold
  obtain ⟨around, place, haround, hsettled', -⟩ := settled?_eq better
    (show target < (xs.set target new).length by rwa [List.length_set])
  rw [List.getElem_set_self, List.take_set_of_le (Nat.le_refl _),
    List.drop_set_of_lt (Nat.lt_succ_self _)] at haround
  rw [hsettled', List.getElem_set_self] at hsettled
  cases hsettled
  have happend : around.1.reverse ++ around.2 = xs.take target ++ xs.drop (target + 1) := by
    rw [haround, moved_append, List.reverse_reverse]
  cases xs with
  | nil => cases hlt
  | cons a rest =>
    by_cases hfront : around.1 = []
    · -- the entry has come to the front
      rw [hfront]
      refine .inr ⟨a, rfl, new, rfl, ?_⟩
      cases target with
      | zero =>
        cases hold
        exact hbetter
      | succ target =>
        refine better_of_risen new (sunk_eq_nil new (haround ▸ hfront)) a ?_
        simp
    · -- another one is in front, the first one or one that the entry has sunk behind
      have hhead : (around.1.reverse ++ new :: around.2).head?
          = ((a :: rest).take target ++ (a :: rest).drop (target + 1)).head? := by
        obtain ⟨y, front, hne⟩ := List.exists_cons_of_ne_nil (mt List.reverse_eq_nil_iff.mp hfront)
        rw [← happend, hne, List.cons_append, List.cons_append, List.head?_cons, List.head?_cons]
      cases target with
      | zero =>
        rw [haround] at hfront
        obtain ⟨y, hy, hsunk⟩ : ∃ y ∈ rest.head?, better y new = true := better_of_sunk new hfront
        cases hold
        exact .inr ⟨old, rfl, y, hhead.trans hy, htrans _ _ _ hsunk hbetter⟩
      | succ target => exact .inl hhead

end

end FuzzyForest.Ranking
