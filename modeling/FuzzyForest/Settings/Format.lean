/-
Formats of files of settings.

The name of a file shows its format, and a file may be named without its ending.
`SettingsFormat.read?` reads a file of any format into a table.
-/
import FuzzyForest.Ini
import FuzzyForest.Json5
import FuzzyForest.Ron
import FuzzyForest.Text.Mark
import FuzzyForest.Toml.Document
import FuzzyForest.Yaml.Document

namespace FuzzyForest

/-- The formats of files of settings. -/
inductive SettingsFormat
  | toml
  | json
  | yaml
  | ini
  | ron
  | json5
deriving DecidableEq, Repr

namespace SettingsFormat

/-- Every format, the preferred one first. -/
def all : List SettingsFormat := [toml, json, yaml, ini, ron, json5]

/-- How the names of files end. -/
def endings : SettingsFormat → List String
  | toml => ["toml"]
  | json => ["json"]
  | yaml => ["yaml", "yml"]
  | ini => ["ini"]
  | ron => ["ron"]
  | json5 => ["json5"]

/-- The named values of a value that is a table. -/
def table? : Datum → Option Members
  | .table ms => some ms
  | _ => none

/-- The table that a text holds, but for a mark in front of it. -/
def read? (f : SettingsFormat) (text : String) : Option Members :=
  let text := String.ofList (Text.unmarked text.toList)
  match f with
  | toml => Toml.read .second text
  | json => Datum.membersOfJson? text
  | yaml => (Yaml.read text).bind table?
  | ini => Ini.read text
  | ron => (Ron.read text).bind table?
  | json5 => (Json5.read text).bind table?

/-- The ending of the name of a file, which is not all of it. -/
def endingOf? (path : String) : Option String :=
  let name := (path.splitOn "/").getLast?.getD ""
  match (name.splitOn ".").reverse with
  | last :: before => if before = [] ∨ before = [""] then none else some last
  | [] => none

/-- The format that the name of a file shows. -/
def ofPath? (path : String) : Option SettingsFormat := do
  let ending ← endingOf? path
  all.find? fun f => ending ∈ f.endings

/-- The names under which a file is looked for, if there is none of its own name. -/
def names (path : String) : List (String × SettingsFormat) :=
  all.flatMap fun f => f.endings.map fun ending => (path ++ "." ++ ending, f)

/-- The file of a name, where `files` gives the texts of those that are there. -/
def find? (files : String → Option String) (path : String) : Option (SettingsFormat × String) :=
  match files path with
  | some text => (ofPath? path).map fun f => (f, text)
  | none => (names path).findSome? fun (name, f) => (files name).map fun text => (f, text)

end SettingsFormat

end FuzzyForest
