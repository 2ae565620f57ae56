/-
Editions of TOML.

The second edition admits more than the first one: tables in braces over several lines, times
without seconds, and further escapes.  An `Edition` says what is admitted, so that one reader serves
for both.
-/
namespace FuzzyForest.Toml

/-- What is admitted in a document. -/
structure Edition where
  /-- The number of lists and tables in braces that may stand in each other, and of the parts that a
  name may have. -/
  deepest : Nat
  /-- A table in braces may go over lines, with comments, and a comma may follow its last member. -/
  spreadTables : Bool
  /-- The seconds of a time may be left out. -/
  shortTimes : Bool
  /-- An offset from universal time may be up to a day, with any number of minutes. -/
  longOffsets : Bool
  /-- The letter `e` escapes the escape character, and `x` a character with a code of two digits. -/
  moreEscapes : Bool
  /-- A line break in a text stays as it is written.  Otherwise it is one character. -/
  keepsBreaks : Bool
  /-- A negative number may be beyond all numbers. -/
  negativeInfinities : Bool
deriving DecidableEq, Repr

namespace Edition

/-- TOML 1.0. -/
def first : Edition where
  deepest := 79
  spreadTables := false
  shortTimes := false
  longOffsets := false
  moreEscapes := false
  keepsBreaks := false
  negativeInfinities := true

/-- TOML 1.1. -/
def second : Edition where
  deepest := 80
  spreadTables := true
  shortTimes := true
  longOffsets := true
  moreEscapes := true
  keepsBreaks := true
  negativeInfinities := false

end Edition

end FuzzyForest.Toml
