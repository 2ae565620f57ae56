/-
Layers of settings.

A file of settings is overridden by variables from outside: each layer is laid over the ones below
it.  Tables are joined name by name and everything else is replaced.  In a layer the name of a value
may spell a place, as in `model.beta`.
-/
import FuzzyForest.Settings.Format
import FuzzyForest.Settings.Place
import FuzzyForest.Settings.Reading

namespace FuzzyForest

namespace Members

/-- One layer over another one. -/
def layered (below above : Members) : Members :=
  above.foldl (fun ms (name, new) => Datum.overlayPlace new (Place.ofName name) ms) below

end Members

/-! ### Variables -/

/-- Variables from outside, with their texts. -/
abbrev Variables := List (String × String)

namespace Variables

/-- How the names of variables for settings begin, whatever their case. -/
def heading : String := "efrgen__"

/-- The value of a variable. -/
def value (text : String) : Datum :=
  match text.toLower with
  | "true" => .boolean true
  | "false" => .boolean false
  | _ =>
    match Decimal.integer? text, Decimal.number? text with
    | some n, _ => .integer n
    | none, some x => .number x
    | none, none => .text text

/-- The name of a setting that a variable is for; two underscores separate the parts of a path. -/
def setting? (name : String) : Option String :=
  let name := name.toLower.toList
  if heading.toList.isPrefixOf name then
    some (".".intercalate ((String.ofList (name.drop heading.length)).splitOn "__"))
  else none

/-- The layer that variables make. -/
def members (vs : Variables) : Members :=
  vs.filterMap fun (name, text) => (setting? name).map fun s => (s, value text)

end Variables

/-! ### Settings -/

namespace Settings

/-- The settings in a document that is read by itself. -/
def ofText (text : String) : Except SettingsError Settings :=
  match (Toml.read .first text).bind Dialect.strict.settings? with
  | some s => .ok s
  | none => .error .notParsed

/-- The settings in a file, if there is one, under variables. -/
def ofFile (file : Option (SettingsFormat × String)) (vs : Variables) :
    Except SettingsError Settings :=
  let layers? : Option Members := do
    let (format, text) ← file
    let ms ← format.read? text
    return (Members.layered [] ms).layered vs.members
  match layers?.bind Dialect.lenient.settings? with
  | some s => .ok s
  | none => .error .notLoaded

end Settings

end FuzzyForest
