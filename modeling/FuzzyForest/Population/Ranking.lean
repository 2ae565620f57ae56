/-
Rankings.

A ranking is a list whose better entries come first; entries of which neither is better may stand
in any order.  `sorted` builds one by putting each entry behind all that it is not better than, so
that ties keep their order; `settled` moves a single entry to its place among ranked ones.
-/
namespace FuzzyForest

namespace Ranking

variable {ι : Type}

/-- Whether no entry is better than the one before it. -/
def isRanked (better : ι → ι → Bool) : List ι → Bool
  | x :: y :: rest => !better y x && isRanked better (y :: rest)
  | _ => true

/-! ### Sorting -/

/-- Puts an entry into a list that is written from the last entry to the first. -/
def place (better : ι → ι → Bool) (x : ι) : (placed : List ι) → List ι
  | [] => [x]
  | y :: placed => if better x y then y :: place better x placed else x :: y :: placed

/-- The entries in their order. -/
def sorted (better : ι → ι → Bool) (xs : List ι) : List ι :=
  (xs.foldl (fun placed x => place better x placed) []).reverse

@[simp]
theorem length_place (better : ι → ι → Bool) (x : ι) (placed : List ι) :
    (place better x placed).length = placed.length + 1 := by
  induction placed with
  | nil => rfl
  | cons y placed ih =>
    rw [place]
    split <;> simp [ih]

/-- Placing keeps the entries. -/
theorem place_perm (better : ι → ι → Bool) (x : ι) (placed : List ι) :
    (place better x placed).Perm (x :: placed) := by
  induction placed with
  | nil => exact .refl _
  | cons y placed ih =>
    rw [place]
    split
    · exact (ih.cons y).trans (.swap x y placed)
    · exact .refl _

theorem foldl_place_perm (better : ι → ι → Bool) (xs placed : List ι) :
    (xs.foldl (fun placed x => place better x placed) placed).Perm (xs ++ placed) := by
  induction xs generalizing placed with
  | nil => exact .refl _
  | cons x xs ih =>
    exact (ih _).trans (((place_perm better x placed).append_left xs).trans List.perm_middle)

/-- Sorting keeps the entries. -/
theorem sorted_perm (better : ι → ι → Bool) (xs : List ι) : (sorted better xs).Perm xs := by
  have h := foldl_place_perm better xs []
  rw [List.append_nil] at h
  exact (List.reverse_perm _).trans h

/-! ### Moving one entry -/

/-- The lists around an entry that has moved to the front as far as it is better than its
neighbour; the list before it is written from the nearest entry on. -/
def risen (better : ι → ι → Bool) (x : ι) : (before after : List ι) → List ι × List ι
  | [], after => ([], after)
  | y :: before, after =>
    if better x y then risen better x before (y :: after) else (y :: before, after)

/-- The lists around an entry that has moved to the back as far as its neighbour is better. -/
def sunk (better : ι → ι → Bool) (x : ι) : (before after : List ι) → List ι × List ι
  | before, [] => (before, [])
  | before, y :: after =>
    if better y x then sunk better x (y :: before) after else (before, y :: after)

/-- The lists around an entry after it has moved to its place. -/
def moved (better : ι → ι → Bool) (x : ι) (before after : List ι) : List ι × List ι :=
  let (before, after) := risen better x before after
  sunk better x before after

/-- A list in which the entry at `position` has moved to its place, and that place; nothing if
there is no such entry. -/
def settled? (better : ι → ι → Bool) (xs : List ι) (position : Nat) : Option (List ι × Nat) :=
  match xs.drop position with
  | [] => none
  | x :: after =>
    let (before, after) := moved better x (xs.take position).reverse after
    some (before.reverse ++ x :: after, before.length)

theorem risen_perm (better : ι → ι → Bool) (x : ι) (before after : List ι) :
    ((risen better x before after).1 ++ (risen better x before after).2).Perm
      (before ++ after) := by
  induction before generalizing after with
  | nil => exact .refl _
  | cons y before ih =>
    rw [risen]
    split
    · exact (ih _).trans List.perm_middle
    · exact .refl _

end Ranking

end FuzzyForest
