import ScopeCheck.Toml.Document

namespace ScopeCheck

structure Settings where
  /-- Whether the program may use `input` and `output` without declaring them. -/
  builtins : Bool
  /-- Whether the symbols are listed. -/
  symbols : Bool
  /-- Whether symbol errors fail the run as type errors do. -/
  failOnSymbolErrors : Bool
  deriving DecidableEq, Repr, Inhabited

namespace Settings

def default : Settings := ⟨true, false, false⟩

/-- A section has one key that is known. -/
structure Section where
  name : String
  key : String
  deriving DecidableEq, Repr

def analysis : Section := ⟨"analysis", "builtins"⟩

def report : Section := ⟨"report", "symbols"⟩

def gate : Section := ⟨"gate", "fail_on_symbol_errors"⟩

def sections : List Section := [analysis, report, gate]

open Toml (Entries Value)

def boolean? : Value → Option Bool
  | .boolean value => some value
  | _ => none

/-- The value of a section's key, which must be a boolean where it is given. A section may be a
list, whose first item is the value; a date in the place of a section gives no key. -/
def Section.read (part : Section) (entries : Entries) (missing : Bool) : Option Bool :=
  match entries.get? part.name with
  | none => some missing
  | some (.table _ inner) =>
    match Entries.get? inner part.key with
    | none => some missing
    | some value => boolean? value
  | some (.array []) => some missing
  | some (.array (first :: _)) => boolean? first
  | some (.dateTime _) => some missing
  | some _ => none

def ofEntries? (entries : Entries) : Option Settings := do
  return {
    builtins := ← analysis.read entries default.builtins
    symbols := ← report.read entries default.symbols
    failOnSymbolErrors := ← gate.read entries default.failOnSymbolErrors }

/-- Texts in the order of their code points, which is that of their bytes. -/
def sorted (keys : List String) : List String := keys.mergeSort fun a b => decide (a ≤ b)

def unknownSections (entries : Entries) : List String :=
  sorted (entries.keys.filter fun key => !(sections.map (·.name)).contains key)

/-- A table that stands for a date has no keys. -/
def Section.unknownKeys (part : Section) (entries : Entries) : List String :=
  match entries.get? part.name with
  | some (.table _ inner) =>
    if Entries.standForDate inner then []
    else sorted ((Entries.keys inner).filter (· ≠ part.key))
  | _ => []

def Section.warnings (part : Section) (entries : Entries) : List String :=
  (part.unknownKeys entries).map fun key =>
    "Unknown config option in [" ++ part.name ++ "]: '" ++ key ++ "'"

/-- The warnings about the keys that are not known: first those outside of all sections, then those
of each section. There are none if a table stands for a date and does not spell one. -/
def warnings (entries : Entries) : List String :=
  if Toml.entriesHaveDates entries then
    (unknownSections entries).map (fun key => "Unknown config option: '" ++ key ++ "'")
      ++ sections.flatMap (·.warnings entries)
  else []

def parse? (text : String) : Option (Settings × List String) := do
  let entries ← Toml.parse? text.toList
  return (← ofEntries? entries, warnings entries)

end Settings

end ScopeCheck
