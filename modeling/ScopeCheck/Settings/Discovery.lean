import ScopeCheck.Files.Basic
import ScopeCheck.Settings.Basic

namespace ScopeCheck

inductive SettingsError where
  | unreadable (path : Path)
  | malformed (path : Path)
  deriving DecidableEq, Repr

namespace SettingsError

def message : SettingsError → String
  | unreadable path => "Failed to read config file '" ++ path.text ++ "': not a readable text file"
  | malformed path => "Invalid TOML in '" ++ path.text ++ "': not a settings document"

end SettingsError

structure FoundSettings where
  settings : Settings
  path : Option Path
  warnings : List String
  deriving DecidableEq, Repr

namespace Settings

def fileName : String := "cminus.toml"

/-- The places where the settings of a directory may be, nearest first. -/
def candidates (start : Path) : List Path := start.climb.map (·.join fileName)

/-- The nearest settings file. Whatever stands under its name counts. -/
def locate (files : Files) (start : Path) : Option Path :=
  (candidates start).find? fun path => files path ≠ .missing

def load (files : Files) (path : Path) : Except SettingsError FoundSettings :=
  match (files path).text? with
  | none => .error (.unreadable path)
  | some text =>
    match parse? text with
    | none => .error (.malformed path)
    | some (settings, warnings) => .ok ⟨settings, some path, warnings⟩

/-- The settings for a directory; the default ones where there is no settings file. -/
def discover (files : Files) (start : Path) : Except SettingsError FoundSettings :=
  match locate files start with
  | none => .ok ⟨default, none, []⟩
  | some path => load files path

end Settings

end ScopeCheck
