import Mathlib.Data.List.Flatten
import ScopeCheck.Proofs.Text.Bytes
import ScopeCheck.Proofs.Toml.Equality
import ScopeCheck.Proofs.Toml.Keys
import ScopeCheck.Settings.Discovery

namespace ScopeCheck.Settings

open Toml (Entries Value TableForm)

/-- The keys that are not known, each once and in the order of their bytes. -/
structure ListsUnknown (keys known unknown : List String) : Prop where
  mem_iff : ∀ key, key ∈ unknown ↔ key ∈ keys ∧ key ∉ known
  ordered : unknown.Pairwise (Text.bytes · < Text.bytes ·)

namespace Section

/-- The keys of a section that is a table. -/
def keys (part : Section) (entries : Entries) : List String :=
  match entries.get? part.name with
  | some (.table _ inner) => Entries.keys inner
  | _ => []

/-- The value that a section gives its key: under the key if it is a table, in the first place if it
is a list. -/
def given? (part : Section) (entries : Entries) : Option Value :=
  match entries.get? part.name with
  | some (.table _ inner) => Entries.get? inner part.key
  | some (.array items) => items.head?
  | _ => none

/-- A setting is the boolean that its section gives, or the default if it gives nothing. -/
def Settles (part : Section) (entries : Entries) (missing value : Bool) : Prop :=
  part.given? entries = some (.boolean value) ∨ part.given? entries = none ∧ value = missing

/-- Two values for a section that differ at most in keys that are not known. -/
inductive Agree (part : Section) : Option Value → Option Value → Prop where
  | same (value : Option Value) : Agree part value value
  | tables {form otherForm : TableForm} {inner otherInner : Entries}
    (h : inner.get? part.key = otherInner.get? part.key) :
    Agree part (some (.table form inner)) (some (.table otherForm otherInner))

/-- Takes the keys out of a section that are not known. -/
def strip (part : Section) : Value → Value
  | .table form inner => .table form (inner.filter fun entry => entry.1 = part.key)
  | value => value

end Section

/-- The warnings that a document calls for: first about the keys of its own, then about those of each
section that is a table. -/
def CallsFor (entries : Entries) (warnings : List String) : Prop :=
  ∃ (outside : List String) (inside : Section → List String),
    ListsUnknown entries.keys (sections.map (·.name)) outside ∧
    (∀ part ∈ sections, ListsUnknown (part.keys entries) [part.key] (inside part)) ∧
    warnings = outside.map (fun key => "Unknown config option: '" ++ key ++ "'") ++
      sections.flatMap fun part => (inside part).map fun key =>
        "Unknown config option in [" ++ part.name ++ "]: '" ++ key ++ "'"

/-- The assumption on the reader of TOML: it reads the document as the table that it is. A key of its
own, `Toml.dateKey`, is no part of TOML, and it takes a table with that key in the first place for a
date. No other document is excluded (`readsTables_of_allKeys`). -/
structure ReadsTables (entries : Entries) : Prop where
  dates : Toml.entriesHaveDates entries
  sections : ∀ part ∈ sections, ∀ form inner, entries.get? part.name = some (.table form inner) →
    ¬Entries.standForDate inner

/-- Nothing has changed but keys that are not known. -/
def KeepsKnown (entries other : Entries) : Prop :=
  ∀ part ∈ sections, part.Agree (entries.get? part.name) (other.get? part.name)

structure HasOnlyKnown (entries : Entries) : Prop where
  outside : ∀ key ∈ entries.keys, key ∈ sections.map (·.name)
  inside : ∀ part ∈ sections, ∀ key ∈ part.keys entries, key = part.key

/-- The document without the keys that are not known. -/
def strip (entries : Entries) : Entries :=
  entries.filterMap fun (name, value) =>
    (sections.find? (·.name = name)).map fun part => (name, part.strip value)

/-- The file can be read and is a TOML document with these entries. -/
def Contains (files : Files) (path : Path) (entries : Entries) : Prop :=
  ∃ text, (files path).text? = some text ∧ Toml.parse? text.toList = some entries

section

variable {part : Section} {entries other : Entries} {value missing : Bool}

theorem boolean?_eq_some_iff {given : Value} :
    boolean? given = some value ↔ given = .boolean value := by
  cases given <;> simp [boolean?]

theorem Section.settles_of_read (h : part.read entries missing = some value) :
    part.Settles entries missing value := by
  rw [Settles, given?]
  rw [read] at h
  split at h <;> rename_i hpart
  · exact .inr ⟨by simp only [hpart], (Option.some.inj h).symm⟩
  · split at h <;> rename_i hkey
    · exact .inr ⟨by simp only [hpart, hkey], (Option.some.inj h).symm⟩
    · rw [boolean?_eq_some_iff.mp h] at hkey
      exact .inl (by simp only [hpart, hkey])
  · exact .inr ⟨by simp only [hpart, List.head?_nil], (Option.some.inj h).symm⟩
  · rw [boolean?_eq_some_iff.mp h] at hpart
    exact .inl (by simp only [hpart, List.head?_cons])
  · exact .inr ⟨by simp only [hpart], (Option.some.inj h).symm⟩
  · cases h

theorem settles_of_ofEntries? {settings : Settings} (h : ofEntries? entries = some settings) :
    analysis.Settles entries true settings.builtins ∧
      report.Settles entries false settings.symbols ∧
      gate.Settles entries false settings.failOnSymbolErrors := by
  obtain ⟨builtins, hbuiltins, h⟩ := Option.bind_eq_some_iff.mp h
  obtain ⟨symbols, hsymbols, h⟩ := Option.bind_eq_some_iff.mp h
  obtain ⟨failOnSymbolErrors, hfail, h⟩ := Option.bind_eq_some_iff.mp h
  cases h
  exact ⟨Section.settles_of_read hbuiltins, Section.settles_of_read hsymbols,
    Section.settles_of_read hfail⟩

theorem Section.Agree.read_eq (h : part.Agree (entries.get? part.name) (other.get? part.name)) :
    part.read entries missing = part.read other missing := by
  rw [Section.read, Section.read]
  generalize entries.get? part.name = value at h
  generalize other.get? part.name = otherValue at h
  cases h with
  | same => rfl
  | tables hkey => simp only [hkey]

theorem KeepsKnown.ofEntries?_eq (h : KeepsKnown entries other) :
    ofEntries? entries = ofEntries? other := by
  have hread : ∀ part ∈ sections, ∀ missing, part.read entries missing = part.read other missing :=
    fun part hpart missing => (h part hpart).read_eq
  rw [ofEntries?, ofEntries?, hread analysis (by decide), hread report (by decide),
    hread gate (by decide)]

/-! ### Warnings -/

theorem mem_sorted {keys : List String} {key : String} : key ∈ sorted keys ↔ key ∈ keys :=
  List.mem_mergeSort

theorem pairwise_sorted {keys : List String} (h : keys.Nodup) :
    (sorted keys).Pairwise (Text.bytes · < Text.bytes ·) := by
  have hle : (sorted keys).Pairwise fun a b => decide (a ≤ b) = true :=
    @List.pairwise_mergeSort _ (fun a b => decide (a ≤ b))
      (fun a b c hab hbc => decide_eq_true
        (String.le_trans (of_decide_eq_true hab) (of_decide_eq_true hbc)))
      (fun a b => by simp [String.le_total a b]) keys
  have hne : (sorted keys).Nodup := (List.mergeSort_perm keys _).nodup_iff.mpr h
  exact (hle.and hne).imp fun hab => Text.bytes_lt (lt_of_le_of_ne (of_decide_eq_true hab.1) hab.2)

theorem listsUnknown_sorted {keys known : List String} {isUnknown : String → Bool}
    (h : keys.Nodup) (hunknown : ∀ key, isUnknown key ↔ key ∉ known) :
    ListsUnknown keys known (sorted (keys.filter isUnknown)) where
  mem_iff key := by rw [mem_sorted, List.mem_filter, hunknown]
  ordered := pairwise_sorted (h.filter _)

theorem sorted_filter_eq_nil {keys : List String} {isUnknown : String → Bool}
    (h : ∀ key ∈ keys, ¬isUnknown key) : sorted (keys.filter isUnknown) = [] := by
  rw [List.filter_eq_nil_iff.mpr h, sorted, List.mergeSort_nil]

namespace Section

theorem nodup_keys (h : entries.Distinct) : (part.keys entries).Nodup := by
  rw [keys]
  split
  · rename_i hpart
    exact (h.inner hpart).keys
  · exact List.nodup_nil

theorem unknownKeys_eq (h : ∀ form inner, entries.get? part.name = some (.table form inner) →
    ¬Entries.standForDate inner) :
    part.unknownKeys entries = sorted ((part.keys entries).filter (· ≠ part.key)) := by
  have hnil : [] = sorted (([] : List String).filter (· ≠ part.key)) := by
    rw [List.filter_nil, sorted, List.mergeSort_nil]
  rw [unknownKeys, keys]
  cases hpart : entries.get? part.name with
  | none => exact hnil
  | some value =>
    cases value with
    | table form inner => exact if_neg (h form inner hpart)
    | _ => exact hnil

theorem unknownKeys_sublist :
    (part.unknownKeys entries).Sublist (sorted ((part.keys entries).filter (· ≠ part.key))) := by
  by_cases h : ∀ form inner, entries.get? part.name = some (.table form inner) →
      ¬Entries.standForDate inner
  · rw [unknownKeys_eq h]
  · -- A table that stands for a date is no section, and nothing is listed.
    push Not at h
    obtain ⟨form, inner, hpart, hdate⟩ := h
    simp only [unknownKeys, hpart, hdate, if_true, List.nil_sublist]

end Section

/-- Only the private key can keep a document from being read as the table that it is. -/
theorem readsTables_of_allKeys (h : ∀ entry ∈ entries, entry.2.AllKeys (Toml.dateKey ∉ ·)) :
    ReadsTables entries where
  dates := Toml.entriesHaveDates_of_forall fun entry hentry =>
    Toml.hasDates_of_allKeys (h entry hentry)
  sections part _ form inner hinner hdate := by
    have hvalue := h _ (Entries.mem_of_get? hinner)
    cases hvalue with
    | table hkeys =>
      cases inner with
      | nil => cases hdate
      | cons entry inner =>
        exact hkeys (List.mem_map.mpr ⟨entry, List.mem_cons_self, of_decide_eq_true hdate⟩)

/-- A document with distinct keys is warned about as it calls for, with nothing more. -/
theorem exists_callsFor (h : entries.Distinct) :
    ∃ expected, CallsFor entries expected ∧ (warnings entries).Sublist expected ∧
      (ReadsTables entries → warnings entries = expected) := by
  refine ⟨_, ⟨unknownSections entries, fun part =>
    sorted ((part.keys entries).filter (· ≠ part.key)),
    listsUnknown_sorted h.keys fun key => ?_,
    fun part _ => listsUnknown_sorted (Section.nodup_keys h) fun key => ?_, rfl⟩, ?_, ?_⟩
  · rw [Bool.not_eq_true', ← Bool.not_eq_true, List.contains_iff_mem]
  · rw [decide_eq_true_iff, List.mem_singleton]
  · rw [warnings]
    split
    · exact .append_left (.flatMap_right _ fun part _ => Section.unknownKeys_sublist.map _) _
    · exact List.nil_sublist _
  · intro hread
    rw [warnings, if_pos hread.dates]
    congr 1
    refine List.flatMap_congr fun part hpart => ?_
    rw [Section.warnings, Section.unknownKeys_eq (hread.sections part hpart)]

theorem HasOnlyKnown.warnings_eq_nil (h : HasOnlyKnown entries) : warnings entries = [] := by
  have houtside : unknownSections entries = [] :=
    sorted_filter_eq_nil fun key hkey => by simpa using h.outside key hkey
  have hinside : ∀ part ∈ sections, part.warnings entries = [] := by
    intro part hpart
    have hlist : (part.unknownKeys entries).Sublist (sorted _) := Section.unknownKeys_sublist
    rw [sorted_filter_eq_nil fun key hkey => by simpa using h.inside part hpart key hkey,
      List.sublist_nil] at hlist
    rw [Section.warnings, hlist, List.map_nil]
  rw [warnings, houtside, List.flatMap_eq_nil_iff.mpr hinside, List.map_nil, List.nil_append,
    ite_self]

/-! ### The document without its unknown keys -/

theorem find?_sections (hpart : part ∈ sections) :
    sections.find? (·.name = part.name) = some part := by
  simp only [sections, List.mem_cons, List.not_mem_nil, or_false] at hpart
  obtain rfl | rfl | rfl := hpart <;> rfl

theorem get?_strip (hpart : part ∈ sections) :
    (strip entries).get? part.name = (entries.get? part.name).map part.strip := by
  induction entries with
  | nil => rfl
  | cons entry entries ih =>
    obtain ⟨name, value⟩ := entry
    rw [strip, List.filterMap_cons]
    rw [strip] at ih
    by_cases hname : name = part.name
    · subst hname
      simp only [find?_sections hpart, Option.map_some, Entries.get?, List.lookup_cons,
        beq_self_eq_true]
    · -- Under another name an entry is dropped or kept, and passed over in either case.
      have hskip : (part.name == name) = false := beq_false_of_ne (Ne.symm hname)
      rw [Entries.get?, Entries.get?] at *
      cases hfound : sections.find? (·.name = name) <;>
        simpa only [hfound, Option.map_none, Option.map_some, List.lookup_cons, hskip] using ih

theorem keepsKnown_strip : KeepsKnown entries (strip entries) := by
  intro part hpart
  rw [get?_strip hpart]
  cases entries.get? part.name with
  | none => exact .same none
  | some value =>
    cases value with
    | table form inner => exact .tables Entries.get?_filter.symm
    | _ => exact .same _

theorem hasOnlyKnown_strip : HasOnlyKnown (strip entries) where
  outside key hkey := by
    obtain ⟨entry, hentry, rfl⟩ := List.mem_map.mp hkey
    obtain ⟨⟨name, value⟩, -, hentry⟩ := List.mem_filterMap.mp hentry
    obtain ⟨part, hpart, rfl⟩ := Option.map_eq_some_iff.mp hentry
    have hname := List.find?_some hpart
    exact List.mem_map.mpr ⟨part, List.mem_of_find?_eq_some hpart, of_decide_eq_true hname⟩
  inside part hpart key hkey := by
    rw [Section.keys, get?_strip hpart] at hkey
    cases hvalue : entries.get? part.name with
    | none => simp [hvalue] at hkey
    | some value =>
      cases value with
      | table form inner =>
        simp only [hvalue, Option.map_some, Section.strip, Entries.keys] at hkey
        obtain ⟨entry, hentry, rfl⟩ := List.mem_map.mp hkey
        exact of_decide_eq_true (List.mem_filter.mp hentry).2
      | _ => simp [hvalue, Section.strip] at hkey

end

/-! ### Files -/

section

variable {files : Files} {path : Path} {found : FoundSettings}

theorem Contains.unique {entries other : Entries} (h : Contains files path entries)
    (hother : Contains files path other) : entries = other := by
  obtain ⟨text, htext, hentries⟩ := h
  obtain ⟨_, hsame, hother⟩ := hother
  cases htext.symm.trans hsame
  exact Option.some.inj (hentries.symm.trans hother)

theorem load_eq_ok_iff_contains :
    load files path = .ok found ↔ ∃ entries, Contains files path entries ∧
      ofEntries? entries = some found.settings ∧ found.path = some path ∧
      found.warnings = warnings entries := by
  constructor
  · intro h
    rw [load] at h
    split at h
    · cases h
    rename_i text htext
    split at h
    · cases h
    rename_i settings messages hparse
    cases h
    obtain ⟨entries, hentries, hparse⟩ := Option.bind_eq_some_iff.mp hparse
    obtain ⟨_, hsettings, hparse⟩ := Option.bind_eq_some_iff.mp hparse
    cases hparse
    exact ⟨entries, ⟨text, htext, hentries⟩, hsettings, rfl, rfl⟩
  · rintro ⟨entries, ⟨text, htext, hentries⟩, hsettings, hpath, hwarnings⟩
    have hparse : parse? text = some (found.settings, found.warnings) := by
      rw [parse?, hentries, Option.bind_eq_bind, Option.bind_some, hsettings, Option.bind_eq_bind,
        Option.bind_some, hwarnings]
      rfl
    simp only [load, htext, hparse, ← hpath]

/-- The unknown keys of a settings file are all warned about, in order, if the reader takes no table
for a date (`ReadsTables`), and they do nothing else. The settings are those that the known keys give,
so the document without the unknown keys gives them too, with no warnings, and so does every file with
the same known keys. -/
theorem unknown_keys_inert (h : load files path = .ok found) :
    ∃ entries, Contains files path entries ∧ found.path = some path ∧
      (∃ expected, CallsFor entries expected ∧ found.warnings.Sublist expected ∧
        (ReadsTables entries → found.warnings = expected)) ∧
      (analysis.Settles entries true found.settings.builtins ∧
        report.Settles entries false found.settings.symbols ∧
        gate.Settles entries false found.settings.failOnSymbolErrors) ∧
      (ofEntries? (strip entries) = some found.settings ∧ warnings (strip entries) = []) ∧
      ∀ {otherFiles : Files} {otherPath : Path} {other : Entries},
        Contains otherFiles otherPath other → KeepsKnown entries other →
        ∃ again, load otherFiles otherPath = .ok again ∧ again.settings = found.settings ∧
          (HasOnlyKnown other → again.warnings = []) := by
  obtain ⟨entries, hcontains, hsettings, hpath, hwarnings⟩ := load_eq_ok_iff_contains.mp h
  have hkept : ∀ {other}, KeepsKnown entries other → ofEntries? other = some found.settings :=
    fun hother => hother.ofEntries?_eq ▸ hsettings
  refine ⟨entries, hcontains, hpath, ?_, settles_of_ofEntries? hsettings,
    ⟨hkept keepsKnown_strip, hasOnlyKnown_strip.warnings_eq_nil⟩, ?_⟩
  · obtain ⟨text, -, hparse⟩ := hcontains
    rw [hwarnings]
    exact exists_callsFor (Toml.distinct_of_parse? hparse)
  · intro otherFiles otherPath other hcontains hother
    exact ⟨⟨found.settings, some otherPath, warnings other⟩,
      load_eq_ok_iff_contains.mpr ⟨other, hcontains, hkept hother, rfl, rfl⟩, rfl,
      HasOnlyKnown.warnings_eq_nil⟩

end

/-- A settings file alone in its directory. -/
def fileOf (text : String) : Files := fun path =>
  if path = ⟨fileName⟩ then .file (Text.bytes text) else .missing

theorem contains_fileOf {text : String} {entries : Entries}
    (h : Toml.parse? text.toList = some entries) : Contains (fileOf text) ⟨fileName⟩ entries :=
  ⟨text, dif_pos text.isValidUTF8, h⟩

def crowdedText : String :=
  "color = 'red'\n[report]\nsymbols = true\nshape = [1]\n[analysis]\nspeed = 9\ndepth.limit = 3\n"

def crowdedEntries : Entries := [
  ("color", .string "red"),
  ("report", .table .header [("symbols", .boolean true), ("shape", .array [.integer 1])]),
  ("analysis", .table .header
    [("speed", .integer 9), ("depth", .table .dotted [("limit", .integer 3)])])]

def crowdedWarnings : List String := [
  "Unknown config option: 'color'",
  "Unknown config option in [analysis]: 'depth'",
  "Unknown config option in [analysis]: 'speed'",
  "Unknown config option in [report]: 'shape'"]

/-- The known keys of `crowdedText`, written in another way. -/
def sparseText : String := "analysis = \x7b\x7d\nreport.symbols = true\n"

def sparseEntries : Entries :=
  [("analysis", .table .inline []), ("report", .table .dotted [("symbols", .boolean true)])]

theorem readsTables_crowdedEntries : ReadsTables crowdedEntries := by
  refine readsTables_of_allKeys ?_
  simp only [crowdedEntries, List.forall_mem_cons]
  refine ⟨.string _, .table (by decide) ?_, .table (by decide) ?_, nofun⟩
  · simp only [List.forall_mem_cons]
    exact ⟨.boolean _, .array (by simpa using .integer 1), nofun⟩
  · simp only [List.forall_mem_cons]
    exact ⟨.integer _, .table (by decide) (by simpa using .integer 3), nofun⟩

theorem warnings_crowdedEntries : warnings crowdedEntries = crowdedWarnings := by
  rw [warnings, if_pos readsTables_crowdedEntries.dates]
  simp [unknownSections, Section.warnings, Section.unknownKeys, sections, analysis, report, gate,
    crowdedEntries, crowdedWarnings, Entries.keys, Entries.get?, List.lookup_cons,
    Entries.standForDate, Toml.dateKey, sorted, List.mergeSort]

theorem keepsKnown_sparseEntries : KeepsKnown crowdedEntries sparseEntries :=
  List.forall_mem_cons.mpr ⟨.tables rfl, List.forall_mem_cons.mpr
    ⟨.tables rfl, List.forall_mem_singleton.mpr (.same none)⟩⟩

theorem unknown_keys_inert_crowdedText :
    CallsFor crowdedEntries crowdedWarnings ∧ analysis.Settles crowdedEntries true true ∧
      report.Settles crowdedEntries false true ∧ gate.Settles crowdedEntries false false ∧
      ∃ again, load (fileOf sparseText) ⟨fileName⟩ = .ok again ∧
        again.settings = ⟨true, true, false⟩ ∧ again.warnings = [] := by
  have hcrowded : Contains (fileOf crowdedText) ⟨fileName⟩ crowdedEntries :=
    contains_fileOf (by decide +kernel)
  have hsparse : Contains (fileOf sparseText) ⟨fileName⟩ sparseEntries :=
    contains_fileOf (by decide +kernel)
  have hload : load (fileOf crowdedText) ⟨fileName⟩ =
      .ok ⟨⟨true, true, false⟩, some ⟨fileName⟩, crowdedWarnings⟩ :=
    load_eq_ok_iff_contains.mpr ⟨_, hcrowded, by decide, rfl, warnings_crowdedEntries.symm⟩
  obtain ⟨entries, hentries, -, ⟨expected, hcalls, -, hexact⟩, ⟨hanalysis, hreport, hgate⟩, -,
    hother⟩ := unknown_keys_inert hload
  cases hentries.unique hcrowded
  cases hexact readsTables_crowdedEntries
  obtain ⟨again, hagain, hsettings, hwarnings⟩ := hother hsparse keepsKnown_sparseEntries
  exact ⟨hcalls, hanalysis, hreport, hgate, again, hagain, hsettings,
    hwarnings ⟨by decide, by decide⟩⟩

end ScopeCheck.Settings
