/-
Held settings.

Settings are held while a program works.  New ones take their place only if they are in range;
otherwise those that were held stay.
-/
import FuzzyForest.Act
import FuzzyForest.Settings.Layers
import FuzzyForest.Settings.Writing

namespace FuzzyForest

/-- A computation on held settings. -/
abbrev Holding (α : Type) := Act Settings α

namespace Settings

/-- Settings in range. -/
def checked (s : Settings) : Except SettingsError Settings := do
  s.check
  return s

/-- Holds new settings if there are any and they are in range. -/
def hold (candidate : Except SettingsError Settings) : Holding Unit := fun held =>
  match candidate.bind checked with
  | .ok s => (.ok (), s)
  | .error e => (.error (.settings e), held)

/-- Holds the settings of a document. -/
def loadText (text : String) : Holding Unit := hold (ofText text)

/-- Holds the settings of a file, if there is one, under variables. -/
def loadFile (file : Option (SettingsFormat × String)) (vs : Variables) : Holding Unit :=
  hold (ofFile file vs)

/-- Holds the settings that a change makes of the held ones. -/
def update (f : Settings → Settings) : Holding Unit := fun held => hold (.ok (f held)) held

/-- The held settings as a text. -/
def save : Holding String := fun held => (held.written.mapError .settings, held)

/-- The held settings as a text for a place that cannot be written to. -/
def saveNowhere : Holding Unit := fun held =>
  match held.written with
  | .ok _ => (.error (.settings .notStored), held)
  | .error e => (.error (.settings e), held)

theorem hold_of_error {candidate : Except SettingsError Settings} {held held' : Settings}
    {e : Error} (h : hold candidate held = (.error e, held')) : held' = held := by
  unfold hold at h
  split at h
  · cases h
  · cases h; rfl

end Settings

end FuzzyForest
