/-
The journal.

Operations note what they do.  A `Note` is the event itself; its level and its words are derived
from it, so that nothing is written until somebody reads the journal.
-/
import FuzzyForest.Error
import FuzzyForest.Rule.Code

namespace FuzzyForest

/-- How much a note matters. -/
inductive Level
  /-- Something has gone wrong. -/
  | error
  /-- Something is odd. -/
  | warn
  /-- Something worth knowing. -/
  | info
  /-- A detail. -/
  | debug
deriving DecidableEq, Repr

namespace Level

/-- The rank of a level; a reader of one level sees those of smaller or equal rank. -/
def rank : Level → Nat
  | error => 0
  | warn => 1
  | info => 2
  | debug => 3

/-- The word in front of a note. -/
def label : Level → String
  | error => "ERROR"
  | warn => "WARN"
  | info => "INFO"
  | debug => "DEBUG"

end Level

/-- Best, worst and average fitness of a population. -/
structure PopulationStats where
  /-- The fitness of the first individual. -/
  best : Float
  /-- The fitness of the last individual. -/
  worst : Float
  average : Float
deriving DecidableEq, Repr

/-- An event worth noting. -/
inductive Note
  /-- A text was no token and has become a placeholder. -/
  | badToken (cause : TokenError)
  | executing (tree : Code Float)
  /-- An operator has found too few values. -/
  | underflow (i : Instruction Float)
  /-- A row has left another number of values than one. -/
  | residue (depth : Nat) (tree : Code Float)
  /-- A node of a drawing lacks a child. -/
  | unbalanced (i : Instruction Float)
  /-- The last tree of a forest was not closed. -/
  | unclosedForest
  | fitness (value p1 p2 : Float)
  /-- Forests with different numbers of trees were to be crossed. -/
  | treeCountsDiffer (first second : Nat)
  /-- Offspring was too short. -/
  | shortOffspring (least : Nat)
  /-- The wheel has given no second parent. -/
  | noDistinctParent
  | selected (first second : Nat)
  | recombining
  /-- An offspring is no better than the best. -/
  | tiesBest
  /-- The population has converged and is mixed up. -/
  | shuffling (tolerance : Float)
  /-- A breeding step has failed. -/
  | discarded (generation : Nat) (cause : Error)
  | runStarted (population : Nat)
  /-- A better forest was found. -/
  | improved (generation : Nat) (fitness p1 p2 : Float)
  | bestForest (code : Code Float)
  /-- The state of a run. -/
  | progress (generation evaluations : Nat) (stats : PopulationStats)
  | runFinished (generations : Nat) (elapsed : Float) (reason : String) (best : Float)
  /-- Empty fields were found in columns. -/
  | emptyFields (columns : List (String × Nat))
  | loaded (records inputs targets : Nat) (path : String)
  | targetColumns (names : List String)
deriving DecidableEq, Repr

/-- The journal, the latest note first. -/
abbrev Journal := List Note

/-! ### Texts in quotes -/

namespace Text

/-- The digits of a character code in base sixteen. -/
def hexDigits (c : Char) : List Char := Nat.toDigits 16 c.toNat

/-- A character inside quotes.  Quotes, backslashes and control characters are escaped. -/
def quotedChar (c : Char) : List Char :=
  if c = '"' then ['\\', '"']
  else if c = '\\' then ['\\', '\\']
  else if c = '\n' then ['\\', 'n']
  else if c = '\r' then ['\\', 'r']
  else if c = '\t' then ['\\', 't']
  else if c.toNat = 0 then ['\\', '0']
  else if c.toNat < 32 ∨ c.toNat = 127 then '\\' :: 'u' :: '\x7b' :: hexDigits c ++ ['\x7d']
  else [c]

/-- A text in quotes. -/
def quoted (s : String) : String :=
  "\"" ++ String.ofList (s.toList.flatMap quotedChar) ++ "\""

/-- A list in brackets. -/
def bracketed (items : List String) : String := "[" ++ ", ".intercalate items ++ "]"

end Text

namespace Note

/-- The level of a note. -/
def level : Note → Level
  | badToken _ => .warn
  | executing _ => .debug
  | underflow _ => .error
  | residue .. => .error
  | unbalanced _ => .error
  | unclosedForest => .warn
  | fitness .. => .debug
  | treeCountsDiffer .. => .warn
  | shortOffspring _ => .debug
  | noDistinctParent => .debug
  | selected .. => .debug
  | recombining => .debug
  | tiesBest => .debug
  | shuffling _ => .info
  | discarded .. => .warn
  | runStarted _ => .info
  | improved .. => .info
  | bestForest _ => .debug
  | progress .. => .info
  | runFinished .. => .info
  | emptyFields _ => .warn
  | loaded .. => .info
  | targetColumns _ => .debug

/-- The words of a note. -/
def text : Note → String
  | badToken cause => (Error.token cause).message
  | executing tree => "Executing: " ++ Code.text tree
  | underflow i => "Stack underflow executing " ++ i.token
  | residue depth tree =>
    "Something went wrong. Stack size is " ++ toString depth ++ " instead of 1 for tree "
      ++ Code.text tree
  | unbalanced i => "Unbalanced tree while rendering " ++ i.token
  | unclosedForest => "Forest does not end with a separator, closing the last tree"
  | fitness value p1 p2 =>
    "Fitness " ++ Decimal.fixed 6 value ++ " (p1 " ++ Decimal.fixed 4 p1 ++ ", p2 "
      ++ Decimal.fixed 4 p2 ++ ")"
  | treeCountsDiffer first second =>
    "Cannot cross forests with " ++ toString first ++ " and " ++ toString second ++ " trees"
  | shortOffspring least =>
    "Discarding crossover offspring shorter than " ++ toString least ++ " instructions"
  | noDistinctParent => "Failed to select a distinct parent stochastically"
  | selected first second => "Selected " ++ toString first ++ " and " ++ toString second
  | recombining => "Recombining offspring"
  | tiesBest => "Offspring ties the best individual, dropping it"
  | shuffling tolerance =>
    "Best and worst fitness within " ++ Decimal.plain.write tolerance
      ++ ", shuffling the population"
  | discarded generation cause =>
    "Generation " ++ toString generation ++ ": offspring discarded: " ++ cause.message
  | runStarted population => "Evolving a population of " ++ toString population ++ " forests"
  | improved generation best p1 p2 =>
    "Generation " ++ toString generation ++ ": new best fitness " ++ Decimal.fixed 6 best
      ++ " (p1 " ++ Decimal.fixed 4 p1 ++ ", p2 " ++ Decimal.fixed 4 p2 ++ ")"
  | bestForest code => "Best forest: " ++ Code.textFixed 3 code
  | progress generation evaluations stats =>
    "Generation " ++ toString generation ++ " (" ++ toString evaluations ++ " evaluations). Best: "
      ++ Decimal.fixed 6 stats.best ++ ", worst: " ++ Decimal.fixed 6 stats.worst ++ ", average: "
      ++ Decimal.fixed 6 stats.average
  | runFinished generations elapsed reason best =>
    "Finished after " ++ toString generations ++ " generations in " ++ Decimal.fixed 2 elapsed
      ++ "s: " ++ reason ++ ". Best fitness " ++ Decimal.fixed 6 best
  | emptyFields columns =>
    "Null values detected, treating them as 0.0: " ++ Text.bracketed (columns.map fun (name, n) =>
      "(" ++ Text.quoted name ++ ", " ++ toString n ++ ")")
  | loaded records inputs targets path =>
    "Loaded " ++ toString records ++ " records (" ++ toString inputs ++ " inputs, "
      ++ toString targets ++ " targets) from " ++ path
  | targetColumns names => "Target columns: " ++ Text.bracketed (names.map Text.quoted)

end Note

end FuzzyForest
