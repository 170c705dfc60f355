import ScopeCheck.Proofs.Files.Parents
import ScopeCheck.Proofs.Text.Bytes
import ScopeCheck.Settings.Discovery

namespace ScopeCheck

namespace Settings

variable {files : Files} {start path : Path}

/-- The settings file that counts: nothing stands in a nearer place. -/
def Nearest (files : Files) (start path : Path) : Prop :=
  ∃ nearer farther, candidates start = nearer ++ path :: farther ∧
    (∀ other ∈ nearer, files other = .missing) ∧ files path ≠ .missing

theorem locate_eq_some_iff : locate files start = some path ↔ Nearest files start path := by
  rw [locate, List.find?_eq_some_iff_append, Nearest]
  constructor
  · rintro ⟨hpath, nearer, farther, heq, hnearer⟩
    exact ⟨nearer, farther, heq, fun other hother => by simpa using hnearer other hother,
      of_decide_eq_true hpath⟩
  · rintro ⟨nearer, farther, heq, hnearer, hpath⟩
    exact ⟨decide_eq_true hpath, nearer, farther, heq, fun other hother => by
      simpa using hnearer other hother⟩

theorem locate_eq_none_iff :
    locate files start = none ↔ ∀ path ∈ candidates start, files path = .missing := by
  simp [locate]

/-- Looking for a settings file: first in the directory, and above it where nothing is there. -/
inductive Searches (files : Files) : Path → Option Path → Prop
  | found {directory : Path} (h : files (directory.join fileName) ≠ .missing) :
    Searches files directory (some (directory.join fileName))
  | up {directory parent : Path} {result : Option Path}
    (h : files (directory.join fileName) = .missing) (hparent : parent.IsParent directory)
    (hrest : Searches files parent result) : Searches files directory result
  | top {directory : Path} (h : files (directory.join fileName) = .missing)
    (htop : directory.AtTop) : Searches files directory none

/-- What becomes of a settings file: it must be a text, a document in TOML, and one of settings. -/
inductive Gives (path : Path) : FileEntry → Except SettingsError FoundSettings → Prop
  | directory : Gives path .directory (.error (.unreadable path))
  | noText {bytes : List UInt8} (h : ∀ text, Text.bytes text ≠ bytes) :
    Gives path (.file bytes) (.error (.unreadable path))
  | noToml {text : String} (h : Toml.parse? text.toList = none) :
    Gives path (.file (Text.bytes text)) (.error (.malformed path))
  | noSettings {text : String} {entries : Toml.Entries}
    (hentries : Toml.parse? text.toList = some entries) (h : ofEntries? entries = none) :
    Gives path (.file (Text.bytes text)) (.error (.malformed path))
  | settings {text : String} {entries : Toml.Entries} {settings : Settings}
    (hentries : Toml.parse? text.toList = some entries) (h : ofEntries? entries = some settings) :
    Gives path (.file (Text.bytes text)) (.ok ⟨settings, some path, warnings entries⟩)

/-- The first directory with a settings file decides which file counts and what comes of it. Without
one the settings are the default ones. -/
inductive Decides (files : Files) (directories : List Path) :
    Option Path → Except SettingsError FoundSettings → Prop
  | default (h : ∀ directory ∈ directories, files (directory.join fileName) = .missing) :
    Decides files directories none (.ok ⟨.default, none, []⟩)
  | nearest {nearer farther : List Path} {directory : Path}
    {outcome : Except SettingsError FoundSettings}
    (hsplit : directories = nearer ++ directory :: farther)
    (hnearer : ∀ other ∈ nearer, files (other.join fileName) = .missing)
    (h : Gives (directory.join fileName) (files (directory.join fileName)) outcome) :
    Decides files directories (some (directory.join fileName)) outcome

theorem text?_file_eq_some_iff {bytes : List UInt8} {text : String} :
    (FileEntry.file bytes).text? = some text ↔ Text.bytes text = bytes := by
  rw [FileEntry.text?, String.fromUTF8?]
  constructor
  · intro h
    split at h
    · cases h
      rfl
    · cases h
  · rintro rfl
    exact dif_pos text.isValidUTF8

theorem parse?_eq (text : String) :
    parse? text = (Toml.parse? text.toList).bind fun entries =>
      (ofEntries? entries).map fun settings => (settings, warnings entries) := by
  rw [parse?]
  cases Toml.parse? text.toList with
  | none => rfl
  | some entries => cases hsettings : ofEntries? entries <;> simp [hsettings]

theorem gives_load (h : files path ≠ .missing) : Gives path (files path) (load files path) := by
  rw [load]
  cases hentry : files path with
  | missing => exact absurd hentry h
  | directory => exact .directory
  | file bytes =>
    cases htext : (FileEntry.file bytes).text? with
    | none =>
      refine .noText fun text hbytes => ?_
      cases htext.symm.trans (text?_file_eq_some_iff.mpr hbytes)
    | some text =>
      obtain rfl := text?_file_eq_some_iff.mp htext
      simp only [parse?_eq]
      cases hentries : Toml.parse? text.toList with
      | none => exact .noToml hentries
      | some entries =>
        cases hsettings : ofEntries? entries with
        | none =>
          simp only [Option.bind_some, hsettings, Option.map_none]
          exact .noSettings hentries hsettings
        | some settings =>
          simp only [Option.bind_some, hsettings, Option.map_some]
          exact .settings hentries hsettings

theorem Gives.path_eq {entry : FileEntry} {found : FoundSettings}
    (h : Gives path entry (.ok found)) : found.path = some path := by
  cases h
  rfl

theorem load_of_gives {outcome : Except SettingsError FoundSettings}
    (h : Gives path (files path) outcome) : files path ≠ .missing ∧ load files path = outcome := by
  have htext : ∀ text, (FileEntry.file (Text.bytes text)).text? = some text := fun _ =>
    text?_file_eq_some_iff.mpr rfl
  rw [load]
  generalize files path = entry at h
  cases h with
  | directory => exact ⟨nofun, rfl⟩
  | @noText bytes h =>
    have hnone : (FileEntry.file bytes).text? = none :=
      Option.eq_none_iff_forall_ne_some.mpr fun text htext => h text (text?_file_eq_some_iff.mp htext)
    exact ⟨nofun, by rw [hnone]⟩
  | noToml h => simp [htext, parse?_eq, h]
  | noSettings hentries h => simp [htext, parse?_eq, hentries, h]
  | settings hentries h => simp [htext, parse?_eq, hentries, h]

theorem searches_find? {directories : List Path} (h : start.LeadsUp directories) :
    Searches files start
      ((directories.map (·.join fileName)).find? fun path => files path ≠ .missing) := by
  induction h with
  | @top directory htop =>
    by_cases hmissing : files (directory.join fileName) = .missing
    · simpa [hmissing] using Searches.top hmissing htop
    · simpa [hmissing] using Searches.found hmissing
  | @up directory parent rest hparent _ ih =>
    by_cases hmissing : files (directory.join fileName) = .missing
    · simpa [hmissing] using Searches.up hmissing hparent ih
    · simpa [hmissing] using Searches.found hmissing

theorem searches_locate : Searches files start (locate files start) :=
  searches_find? start.leadsUp_climb

theorem Searches.unique {result other : Option Path} (h : Searches files start result)
    (hother : Searches files start other) : result = other := by
  induction h with
  | found h =>
    cases hother with
    | found => rfl
    | up hmissing => exact absurd hmissing h
    | top hmissing => exact absurd hmissing h
  | up hmissing hparent _ ih =>
    cases hother with
    | found h => exact absurd hmissing h
    | up _ hagain hrest => exact ih (hparent.unique hagain ▸ hrest)
    | top _ htop => exact absurd htop hparent.below
  | top hmissing htop =>
    cases hother with
    | found h => exact absurd hmissing h
    | up _ hparent => exact absurd htop hparent.below
    | top => rfl

theorem locate_eq_none_iff_climb :
    locate files start = none ↔
      ∀ directory ∈ start.climb, files (directory.join fileName) = .missing := by
  rw [locate_eq_none_iff, candidates, List.forall_mem_map]

theorem decides_discover :
    Decides files start.climb (locate files start) (discover files start) := by
  rw [discover]
  cases hlocate : locate files start with
  | none => exact .default (locate_eq_none_iff_climb.mp hlocate)
  | some path =>
    obtain ⟨nearer, farther, hsplit, hnearer, hpath⟩ := locate_eq_some_iff.mp hlocate
    obtain ⟨before, after, hclimb, rfl, hafter⟩ := List.map_eq_append_iff.mp hsplit
    obtain ⟨directory, after, rfl, rfl, rfl⟩ := List.map_eq_cons_iff.mp hafter
    exact .nearest hclimb (List.forall_mem_map.mp hnearer) (gives_load hpath)

theorem discover_eq_default_iff :
    discover files start = .ok ⟨default, none, []⟩ ↔
      ∀ directory ∈ start.climb, files (directory.join fileName) = .missing := by
  rw [← locate_eq_none_iff_climb]
  constructor
  · intro h
    have hdecides : Decides files start.climb (locate files start) (discover files start) :=
      decides_discover
    rw [h] at hdecides
    generalize locate files start = located at hdecides ⊢
    cases hdecides with
    | default => rfl
    | nearest _ _ hgives => cases hgives.path_eq
  · intro h
    rw [discover, h]

/-- What the settings for a directory come to, by the way up from it. -/
inductive ComesTo (files : Files) (start : Path) (outcome : Except SettingsError FoundSettings) :
    Prop
  | intro {directories : List Path} {located : Option Path} (hleads : start.LeadsUp directories)
    (hdecides : Decides files directories located outcome)

theorem discover_eq_iff {outcome : Except SettingsError FoundSettings} :
    discover files start = outcome ↔ ComesTo files start outcome := by
  constructor
  · rintro rfl
    exact .intro start.leadsUp_climb decides_discover
  · rintro ⟨hleads, hdecides⟩
    obtain rfl := hleads.unique start.leadsUp_climb
    cases hdecides with
    | default hmissing => exact discover_eq_default_iff.mpr hmissing
    | @nearest nearer farther directory _ hsplit hnearer hgives =>
      obtain ⟨hpath, hload⟩ := load_of_gives hgives
      have hnearest : Nearest files start (directory.join fileName) :=
        ⟨nearer.map (·.join fileName), farther.map (·.join fileName), by simp [candidates, hsplit],
          List.forall_mem_map.mpr hnearer, hpath⟩
      rw [discover, locate_eq_some_iff.mpr hnearest]
      exact hload

theorem discover_congr {others : Files}
    (h : ∀ directory ∈ start.climb, others (directory.join fileName) =
      files (directory.join fileName)) :
    locate others start = locate files start ∧ discover others start = discover files start := by
  have hcandidates : ∀ path ∈ candidates start, others path = files path :=
    List.forall_mem_map.mpr h
  have hlocate : locate others start = locate files start := by
    rw [locate, locate, ← List.head?_filter, ← List.head?_filter]
    exact congrArg List.head? (List.filter_congr fun path hpath => by rw [hcandidates path hpath])
  refine ⟨hlocate, ?_⟩
  rw [discover, discover, hlocate]
  cases hfound : locate files start with
  | none => rfl
  | some path =>
    have hpath := List.mem_of_find?_eq_some hfound
    simp only [load, hcandidates path hpath]

/-- The nearest settings file wins. The way up from a directory leads to the root or to the empty path
and looks at the settings file of each directory on it, up to the first that is there. What that file
gives is the outcome, be it an error; without one the settings are the default ones. Files elsewhere
change nothing. -/
theorem nearest_settings_win (files : Files) (start : Path) :
    ∃ directories : List Path,
      (∀ others, start.LeadsUp others ↔ others = directories) ∧
      (∀ directory ∈ directories, (directory.join fileName).components =
        directory.components ++ [.name fileName.toList]) ∧
      (∀ result, Searches files start result ↔ locate files start = result) ∧
      Decides files directories (locate files start) (discover files start) ∧
      (locate files start = none ↔
        ∀ directory ∈ directories, files (directory.join fileName) = .missing) ∧
      (discover files start = .ok ⟨default, none, []⟩ ↔
        ∀ directory ∈ directories, files (directory.join fileName) = .missing) ∧
      ∀ others : Files, (∀ directory ∈ directories, others (directory.join fileName) =
          files (directory.join fileName)) →
        locate others start = locate files start ∧
          discover others start = discover files start := by
  refine ⟨start.climb, ?_, ?_, ?_, decides_discover, locate_eq_none_iff_climb,
    discover_eq_default_iff, fun _ => discover_congr⟩
  · intro others
    constructor
    · exact fun h => h.unique start.leadsUp_climb
    · rintro rfl
      exact start.leadsUp_climb
  · exact fun directory _ => directory.components_join (by decide) (by decide)
  · intro result
    constructor
    · exact searches_locate.unique
    · rintro rfl
      exact searches_locate

/-- Settings above directories with settings files that hold none: one is a directory, one is no text
and one is not TOML. -/
def blockedFiles : Files := fun path =>
  if path.text = "a/cminus.toml" then .directory
  else if path.text = "b/cminus.toml" then .file [255]
  else if path.text = "c/cminus.toml" then .file [61]
  else if path.text = "cminus.toml" then .file []
  else .missing

theorem nearest_settings_win_blockedFiles :
    Path.LeadsUp ⟨"a/.."⟩ [⟨"a/.."⟩, ⟨"a"⟩, ⟨""⟩] ∧
      locate blockedFiles ⟨"a/.."⟩ = some ⟨"a/cminus.toml"⟩ ∧
      discover blockedFiles ⟨"a/.."⟩ = .error (.unreadable ⟨"a/cminus.toml"⟩) ∧
      discover blockedFiles ⟨"b"⟩ = .error (.unreadable ⟨"b/cminus.toml"⟩) ∧
      discover blockedFiles ⟨"c"⟩ = .error (.malformed ⟨"c/cminus.toml"⟩) ∧
      ∀ entry, discover (fun path => if path = ⟨"d/cminus.toml"⟩ then entry else blockedFiles path)
        ⟨"a/.."⟩ = .error (.unreadable ⟨"a/cminus.toml"⟩) := by
  have hleads : Path.LeadsUp ⟨"a/.."⟩ [⟨"a/.."⟩, ⟨"a"⟩, ⟨""⟩] := by
    have hclimb : Path.climb ⟨"a/.."⟩ = [⟨"a/.."⟩, ⟨"a"⟩, ⟨""⟩] := by decide
    exact hclimb ▸ Path.leadsUp_climb ⟨"a/.."⟩
  obtain ⟨directories, hdirectories, -, -, -, -, -, hothers⟩ :=
    nearest_settings_win blockedFiles ⟨"a/.."⟩
  obtain rfl := (hdirectories _).mp hleads
  have hlocate : locate blockedFiles ⟨"a/.."⟩ = some ⟨"a/cminus.toml"⟩ := by decide
  have hdiscover : discover blockedFiles ⟨"a/.."⟩ = .error (.unreadable ⟨"a/cminus.toml"⟩) := by
    rw [discover, hlocate]
    rfl
  refine ⟨hleads, hlocate, hdiscover, by decide +kernel, by decide +kernel, fun entry => ?_⟩
  rw [← hdiscover]
  refine (hothers _ fun directory hdirectory => if_neg ?_).2
  simp only [List.mem_cons, List.not_mem_nil, or_false] at hdirectory
  rcases hdirectory with rfl | rfl | rfl <;> decide

end Settings

end ScopeCheck
