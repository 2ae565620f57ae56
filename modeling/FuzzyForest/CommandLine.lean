/-
The command line.

A `Request` names a file of settings and says what to do: without a query a forest is evolved, with
one the forest of the query is evaluated and its estimates are shown as well.  In either case the
forest is shown with its fitness, on demand also as a drawing and as a structured dump.
-/
import FuzzyForest.Evolution.Setup
import FuzzyForest.Forest.Dump
import FuzzyForest.Settings.Holding

namespace FuzzyForest

/-! ### Requests -/

/-- What the command line asks for. -/
structure Request where
  settingsPath : String
  /-- The text of a forest to evaluate. -/
  query : Option String := none
  /-- The forest is also drawn. -/
  drawn : Bool := false
  /-- The forest is also dumped. -/
  dumped : Bool := false
deriving DecidableEq, Repr

/-- Why arguments are no request. -/
inductive RequestError
  /-- There is no file of settings. -/
  | noSettings
  /-- A query has no text. -/
  | noForest
  | unknownArgument (argument : String)
deriving DecidableEq, Repr

/-- How the program is called. -/
def Request.usage : String :=
  "usage: efrgen <config.toml> [--query \"<forest>\"] [--dot] [--json]"

/-- The description of the fault. -/
def RequestError.message : RequestError → String
  | noSettings => Request.usage
  | noForest => "--query needs a forest"
  | unknownArgument argument => "unknown argument '" ++ argument ++ "'\n" ++ Request.usage

namespace Request

/-- A request with the options that follow; of several queries the last one counts. -/
def withOptions (r : Request) : List String → Except RequestError Request
  | [] => .ok r
  | "--query" :: text :: rest => { r with query := some text }.withOptions rest
  | ["--query"] => .error .noForest
  | option :: rest =>
    if option = "--dot" then { r with drawn := true }.withOptions rest
    else if option = "--json" then { r with dumped := true }.withOptions rest
    else .error (.unknownArgument option)

/-- The request that arguments make. -/
def ofArguments : List String → Except RequestError Request
  | [] => .error .noSettings
  | path :: options => { settingsPath := path : Request }.withOptions options

end Request

/-! ### Failures -/

/-- Why the program ends without an answer. -/
inductive Failure
  /-- The arguments are no request. -/
  | request (cause : RequestError)
  /-- The settings cannot be loaded. -/
  | loading (path : String) (cause : Error)
  /-- The query cannot be evaluated. -/
  | query (cause : Error)
  /-- The work cannot be set up or done. -/
  | work (cause : Error)
deriving DecidableEq, Repr

namespace Failure

/-- What has failed. -/
def heading : Failure → String
  | request cause => cause.message
  | loading path _ => "loading " ++ path
  | query _ => "evaluating query"
  | work cause => cause.message

/-- Why it has failed, where the heading does not say so. -/
def reason? : Failure → Option String
  | loading _ cause => some cause.message
  | query cause => some cause.message
  | _ => none

/-- Whether the program has broken off. -/
def isBreakdown : Failure → Bool
  | request _ => false
  | loading _ cause | query cause | work cause => cause.kind = .breakdown

/-- The description of a failure. -/
def message (f : Failure) : String :=
  if f.isBreakdown then "The program has broken off: " ++ f.heading
  else "Error: " ++ f.heading ++ match f.reason? with
    | some reason => "\n\nCaused by:\n    " ++ reason
    | none => ""

/-- The exit code of the program. -/
def code (f : Failure) : Nat := if f.isBreakdown then 101 else 1

end Failure

/-! ### Answers -/

/-- The lines of the estimates of a forest, one for each row of data. -/
def Forest.estimateLines (f : Forest Float) : List String :=
  let width := max f.outputs 1
  (List.range (f.estimates.size / width)).map fun row =>
    let estimates := f.estimates.extract (row * width) ((row + 1) * width)
    "\t".intercalate (estimates.toList.map (Decimal.fixed 6))

namespace Request

/-- The lines that show a forest. -/
def shown (r : Request) (f : Forest Float) : List String :=
  [f.text, "fitness " ++ Decimal.fixed 6 f.fitness ++ " p1 " ++ Decimal.fixed 6 f.p1 ++ " p2 "
    ++ Decimal.fixed 6 f.p2]
  ++ (if r.drawn then [f.dot] else []) ++ if r.dumped then [f.code.dump] else []

/-- The notes on showing a forest. -/
def showingNotes (r : Request) (f : Forest Float) : List Note :=
  if r.drawn then f.drawingNotes else []

/-- The settings of a request, where `files` gives the texts of the files that are there. -/
def settings (r : Request) (files : String → Option String) (vs : Variables) :
    Except Failure Settings :=
  match Settings.loadFile (SettingsFormat.find? files r.settingsPath) vs {} with
  | (.ok (), s) => .ok s
  | (.error e, _) => .error (.loading r.settingsPath e)

/-- The lines that answer a query. -/
def answer (r : Request) (ctx : Context Float) (text : String) : Run (List String) := do
  let f ← Forest.query ctx text
  Run.notes (r.showingNotes f)
  return f.estimateLines ++ r.shown f

/-- The lines that show the winner of a run. -/
def outcome (r : Request) (ctx : Context Float) (rules : EvolutionSettings) (clock : Nat → Float) :
    Run (List String) := fun s =>
  match Evolution.run (.forests ctx rules Event.notes) clock ([], s) with
  | (.ok outcome, _, s) =>
    (.ok (r.shown outcome.winner),
      { s with journal := (r.showingNotes outcome.winner).reverse ++ s.journal })
  | (.error e, _, s) => (.error e, s)

/-- The lines of a request, given the texts of files, variables, a clock and the seed that counts
if the settings have none. -/
def lines (r : Request) (files : String → Option String) (vs : Variables) (clock : Nat → Float)
    (seed : Nat) : Except Failure (List String) := do
  let s ← r.settings files vs
  let start := Evolution.session (s.evolution.seed.getD seed)
  match s.context (files s.data.path) start with
  | (.error e, _) => .error (.work e)
  | (.ok ctx, session) =>
    match r.query with
    | some text => (r.answer ctx text session).1.mapError .query
    | none => (r.outcome ctx s.evolution clock session).1.mapError .work

/-- The names of the files that may hold the settings. -/
def settingsNames (r : Request) : List String :=
  r.settingsPath :: (SettingsFormat.names r.settingsPath).map Prod.fst

end Request

/-- The lines of the program, given its arguments and what a request needs. -/
def CommandLine.lines (arguments : List String) (files : String → Option String) (vs : Variables)
    (clock : Nat → Float) (seed : Nat) : Except Failure (List String) :=
  match Request.ofArguments arguments with
  | .ok r => r.lines files vs clock seed
  | .error e => .error (.request e)

end FuzzyForest
