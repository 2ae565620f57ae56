/-
The program.

It reads the files of a request, the variables around it and the clock, and prints the lines of the
answer; what it prints is decided elsewhere.
-/
import FuzzyForest.CommandLine

namespace FuzzyForest.Program

/-- The text of a file, if it can be read. -/
def textOf (path : String) : IO (Option String) := do
  try
    return some (← IO.FS.readFile path)
  catch _ =>
    return none

/-- The texts of the files of some names. -/
def textsOf : List String → IO (List (String × String))
  | [] => return []
  | path :: rest => do
    let texts ← textsOf rest
    return match ← textOf path with
      | some text => (path, text) :: texts
      | none => texts

/-- The variables around the program. -/
def environment : IO Variables := do
  let text := (← textOf "/proc/self/environ").getD ""
  return (text.splitOn "\x00").map fun entry =>
    match entry.splitOn "=" with
    | name :: value => (name, "=".intercalate value)
    | [] => ("", "")

/-- A seed that nobody knows beforehand. -/
def freshSeed : IO Nat := do
  return (← IO.getRandomBytes 8).foldl (fun n b => 256 * n + b.toNat) 0

/-- The seconds since a moment. -/
def secondsSince (start : Nat) : IO Float := do
  return ((← IO.monoNanosNow) - start).toFloat / 1000000000.0

/-- Breeds at most `left` more generations and ends the run. -/
def breed (plan : Evolution.Plan (Forest Float)) (start : Nat) :
    (left : Nat) → Evolution.Stage (Forest Float) → Evolution.Trail (Forest Float) →
      IO (Except Error (Outcome (Forest Float)) × Session)
  | 0, st, trail => do
    let (result, _, s) := Evolution.finished plan st .generations (← secondsSince start) trail
    return (result, s)
  | left + 1, st, trail => do
    match Evolution.stop? plan st (← secondsSince start) with
    | some reason =>
      let (result, _, s) := Evolution.finished plan st reason (← secondsSince start) trail
      return (result, s)
    | none =>
      match Evolution.bred plan st trail with
      | (.ok st, trail) => breed plan start left st trail
      | (.error e, _, s) => return (.error e, s)

/-- A run by the clock. -/
def evolve (ctx : Context Float) (rules : EvolutionSettings) (s : Session) :
    IO (Except Error (Outcome (Forest Float)) × Session) := do
  let plan := Evolution.Plan.forests ctx rules Event.notes
  let start ← IO.monoNanosNow
  match Evolution.begun plan ([], s) with
  | (.ok st, trail) => breed plan start (rules.generations + 1) st trail
  | (.error e, _, s) => return (.error e, s)

/-- Prints the notes of errors. -/
def printErrors (s : Session) : IO Unit := do
  for n in s.journal.reverse do
    if n.level = .error then
      IO.eprintln (n.level.label ++ " " ++ n.text)

/-- The lines of a request. -/
def linesOf (r : Request) : IO (Except Failure (List String)) := do
  let texts ← textsOf r.settingsNames
  match r.settings (fun path => texts.lookup path) (← environment) with
  | .error f => return .error f
  | .ok s =>
    let start := Evolution.session (s.evolution.seed.getD (← freshSeed))
    match s.context (← textOf s.data.path) start with
    | (.error e, _) => return .error (.work e)
    | (.ok ctx, session) =>
      match r.query with
      | some text =>
        let (result, session) := r.answer ctx text session
        printErrors session
        return result.mapError .query
      | none =>
        let (result, session) ← evolve ctx s.evolution session
        let notes := (result.toOption.map fun outcome => r.showingNotes outcome.winner).getD []
        printErrors { session with journal := notes.reverse ++ session.journal }
        return (result.map fun outcome => r.shown outcome.winner).mapError .work

end FuzzyForest.Program

open FuzzyForest in
/-- Prints the answer to the arguments, or why there is none. -/
def main (arguments : List String) : IO UInt32 := do
  let answer ← match Request.ofArguments arguments with
    | .ok r => Program.linesOf r
    | .error e => pure (.error (.request e))
  match answer with
  | .ok lines =>
    for line in lines do
      IO.println line
    return 0
  | .error f =>
    IO.eprintln f.message
    return f.code.toUInt32
