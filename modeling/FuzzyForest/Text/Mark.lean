/-
Marks of encodings.

A text may start with a mark that only shows how it is encoded.
-/
namespace FuzzyForest.Text

/-- The mark in front of a text. -/
def encodingMark : Char := '\uFEFF'

/-- Characters without one mark in front. -/
def unmarked : List Char → List Char
  | c :: cs => if c = encodingMark then cs else c :: cs
  | [] => []

end FuzzyForest.Text
