import ScopeCheck.Command.Run
import ScopeCheck.Proofs.Command.Reading
import ScopeCheck.Proofs.Document.Links
import ScopeCheck.Proofs.Report.TextLines
import ScopeCheck.Proofs.Settings.Discovery

namespace ScopeCheck

open Text (Display)

theorem ReportForm.ofWord?_eq_none_iff {word : String} :
    ofWord? word = none ↔ word ≠ "text" ∧ word ≠ "json" := by
  rw [ofWord?.eq_def]
  split <;> simp_all

namespace CheckRequest

variable {files : Files} {builtins : Bool} {path : Path} {report : TreeReport}
  {request : CheckRequest}

/-- The file at a path can be read and holds a tree, which can be analysed; this is the report. -/
def Reports (files : Files) (builtins : Bool) (path : Path) (report : TreeReport) : Prop :=
  ∃ text tree model, (files path).text? = some text ∧ Tree.ofText text = .ok tree ∧
    analyze builtins tree = .ok model ∧ report = ⟨path.text, model⟩

theorem load_eq_ok_iff {tree : Tree} :
    Tree.load files path = .ok tree ↔
      ∃ text, (files path).text? = some text ∧ Tree.ofText text = .ok tree := by
  rw [Tree.load]
  cases (files path).text? with
  | none => simp
  | some text => cases htree : Tree.ofText text <;> simp [htree]

theorem checkTree_eq_ok_iff :
    checkTree files builtins path = .ok report ↔ Reports files builtins path report := by
  simp only [checkTree, bind_eq_ok_iff, mapError_eq_ok_iff, load_eq_ok_iff, Reports, pure,
    Except.pure, Except.ok.injEq]
  constructor
  · rintro ⟨tree, ⟨text, htext, htree⟩, model, hmodel, rfl⟩
    exact ⟨text, tree, model, htext, htree, hmodel, rfl⟩
  · rintro ⟨text, tree, model, htext, htree, hmodel, rfl⟩
    exact ⟨tree, ⟨text, htext, htree⟩, model, hmodel, rfl⟩

theorem rightUnique_reports : Relator.RightUnique (Reports files builtins) := by
  intro path report other h hother
  have hboth := (checkTree_eq_ok_iff.mpr h).symm.trans (checkTree_eq_ok_iff.mpr hother)
  exact Except.ok.inj hboth

/-- Where the settings are looked for: in the directory of the first tree, or where the program runs
if its path names none. -/
inductive StartsAt : List Path → Path → Prop
  | directory {first directory : Path} {rest : List Path} (h : directory.IsParent first)
    (hne : directory.text ≠ "") : StartsAt (first :: rest) directory
  | here {first : Path} {rest : List Path}
    (h : ∀ directory : Path, directory.IsParent first → directory.text = "") :
    StartsAt (first :: rest) ⟨"."⟩

theorem startsAt_settingsStart {trees : List Path} (h : trees ≠ []) :
    StartsAt trees (settingsStart trees) := by
  cases trees with
  | nil => exact absurd rfl h
  | cons first rest =>
    rw [settingsStart, List.head?_cons, Option.bind_some]
    split
    · rename_i hempty
      refine .here fun directory hdirectory => ?_
      rw [hdirectory.unique (Path.parent?_eq_some_iff.mp hempty)]
    · rename_i hnone
      refine .here fun directory hdirectory => ?_
      rw [Path.parent?_eq_some_iff.mpr hdirectory] at hnone
      cases hnone
    · rename_i directory hne hdirectory
      refine .directory (Path.parent?_eq_some_iff.mp hdirectory) fun hempty => ?_
      exact hne (congrArg Path.mk hempty)

theorem StartsAt.unique {trees : List Path} {start other : Path} (h : StartsAt trees start)
    (hother : StartsAt trees other) : start = other := by
  cases h with
  | directory h hne =>
    cases hother with
    | directory hother => exact h.unique hother
    | here hnone => exact absurd (hnone _ h) hne
  | here hnone =>
    cases hother with
    | directory hother hne => exact absurd (hnone _ hother) hne
    | here => rfl

theorem StartsAt.eq_settingsStart {trees : List Path} {start : Path} (h : StartsAt trees start) :
    start = settingsStart trees := by
  apply h.unique
  apply startsAt_settingsStart
  rintro rfl
  cases h

/-- What stands in the way of a check: the form it asks for, the settings, or a tree, wherever it is
among the trees. -/
inductive Fails (files : Files) (request : CheckRequest) : Prop
  | form (htext : request.format ≠ "text") (hjson : request.format ≠ "json")
  | settings {start : Path} {error : SettingsError} (hstart : StartsAt request.trees start)
    (h : Settings.ComesTo files start (.error error))
  | tree {start path : Path} {found : FoundSettings} (hstart : StartsAt request.trees start)
    (hfound : Settings.ComesTo files start (.ok found)) (hpath : path ∈ request.trees)
    (h : ∀ report, ¬ Reports files found.settings.builtins path report)

theorem run_of_ofWord? {form : ReportForm} {found : FoundSettings} {reports : List TreeReport}
    (hform : ReportForm.ofWord? request.format = some form)
    (hfound : Settings.discover files (settingsStart request.trees) = .ok found)
    (hreports : checkTrees files found.settings.builtins request.trees = .ok reports)
    (workingDirectory : String) (display : Display) :
    request.run files workingDirectory display =
      ⟨if TreeReport.gateFails reports
          (request.failOnSymbolErrors || found.settings.failOnSymbolErrors) then 1 else 0,
        render form ⟨request.symbols || found.settings.symbols, request.color display⟩
          workingDirectory reports,
        warningLines (request.color display) found.warnings⟩ := by
  simp only [run, hform, hfound, hreports]

theorem render_of_ofWord? {form : ReportForm} {word : String}
    (h : ReportForm.ofWord? word = some form) {symbols color : Bool} {workingDirectory : String}
    {reports : List TreeReport} :
    render form ⟨symbols, color⟩ workingDirectory reports =
      if word = "json" then JsonReport.format symbols workingDirectory reports ++ "\n"
      else String.ofList
        ((TextReport.reportLines symbols color reports).flatMap (· ++ ['\n'])) := by
  rw [ReportForm.ofWord?.eq_def] at h
  split at h
  · cases h
    rw [← TextReport.toList_format_eq ⟨symbols, color⟩, String.ofList_toList]
    rfl
  · cases h
    rfl
  · cases h

variable {workingDirectory : String} {display : Display}

theorem exists_of_not_fails (hsome : request.trees ≠ []) (h : ¬ request.Fails files) :
    ∃ form found reports, ReportForm.ofWord? request.format = some form ∧
      Settings.discover files (settingsStart request.trees) = .ok found ∧
      checkTrees files found.settings.builtins request.trees = .ok reports := by
  have hstart := startsAt_settingsStart hsome
  obtain ⟨form, hform⟩ : ∃ form, ReportForm.ofWord? request.format = some form := by
    refine Option.ne_none_iff_exists'.mp fun hnone => h ?_
    obtain ⟨htext, hjson⟩ := ReportForm.ofWord?_eq_none_iff.mp hnone
    exact .form htext hjson
  cases hdiscover : Settings.discover files (settingsStart request.trees) with
  | error => exact absurd (.settings hstart (Settings.discover_eq_iff.mp hdiscover)) h
  | ok found =>
    obtain ⟨reports, hreports⟩ :
        ∃ reports, checkTrees files found.settings.builtins request.trees = .ok reports := by
      refine exists_mapM_eq_ok_iff.mpr fun path hpath => ?_
      simp only [checkTree_eq_ok_iff]
      exact Classical.byContradiction fun hnone =>
        h (.tree hstart (Settings.discover_eq_iff.mp hdiscover) hpath (not_exists.mp hnone))
    exact ⟨form, found, reports, hform, rfl, hreports⟩

theorem run_of_fails (h : request.Fails files) :
    (request.run files workingDirectory display).stdout = "" ∧
      (request.run files workingDirectory display).exit = 1 := by
  rw [run]
  cases hform : ReportForm.ofWord? request.format with
  | none => exact ⟨rfl, rfl⟩
  | some form =>
    cases hdiscover : Settings.discover files (settingsStart request.trees) with
    | error => exact ⟨rfl, rfl⟩
    | ok found =>
      cases hreports : checkTrees files found.settings.builtins request.trees with
      | error failure =>
        simp only [hreports]
        exact ⟨rfl, rfl⟩
      | ok reports =>
        exfalso
        cases h with
        | form htext hjson =>
          rw [ReportForm.ofWord?_eq_none_iff.mpr ⟨htext, hjson⟩] at hform
          cases hform
        | settings hstart hcomes =>
          rw [← hstart.eq_settingsStart, Settings.discover_eq_iff.mpr hcomes] at hdiscover
          cases hdiscover
        | tree hstart hcomes hpath hnone =>
          rw [← hstart.eq_settingsStart, Settings.discover_eq_iff.mpr hcomes] at hdiscover
          cases hdiscover
          obtain ⟨report, hreport⟩ := exists_mapM_eq_ok_iff.mp ⟨reports, hreports⟩ _ hpath
          exact hnone report (checkTree_eq_ok_iff.mp hreport)

end CheckRequest

/-- A check is all or nothing. It is what a command line asks for that is written as a check; its
form, its trees and what it is asked to do are those that stand there. If there is no such form, if the
settings cannot be read, or if one of the trees gives no report, it writes no output and exits with 1.
Otherwise it writes the whole report on all trees in the order in which they were named, and exits with
1 if there is an error that counts, else with 0. -/
theorem check_all_or_nothing (files : Files) (workingDirectory : String) (display : Display)
    (arguments : List String) (request : CheckRequest) :
    (Request.ofArguments arguments = .ok (.check request) ↔ request.AskedBy arguments) ∧
    (request.AskedBy arguments → request.Fails files →
      (run files workingDirectory arguments display).stdout = "" ∧
        (run files workingDirectory arguments display).exit = 1) ∧
    (request.AskedBy arguments → ¬ request.Fails files → ∃ start found reports,
      CheckRequest.StartsAt request.trees start ∧ Settings.ComesTo files start (.ok found) ∧
      List.Forall₂ (CheckRequest.Reports files found.settings.builtins) request.trees reports ∧
      (run files workingDirectory arguments display).stdout =
        (if request.format = "json" then
          JsonReport.format (request.symbols || found.settings.symbols) workingDirectory reports ++ "\n"
        else String.ofList ((TextReport.reportLines (request.symbols || found.settings.symbols)
          (!request.noColor && !display.noColor && display.color) reports).flatMap (· ++ ['\n']))) ∧
      ((run files workingDirectory arguments display).exit = 1 ∨
        (run files workingDirectory arguments display).exit = 0) ∧
      ((run files workingDirectory arguments display).exit = 1 ↔
        (∃ report ∈ reports, ∃ diagnostic ∈ report.model.diagnostics.toList,
          diagnostic.severity = .type) ∨
        ((request.failOnSymbolErrors || found.settings.failOnSymbolErrors) = true ∧
          ∃ report ∈ reports, ∃ diagnostic ∈ report.model.diagnostics.toList,
            diagnostic.severity = .symbol))) := by
  have hrun : request.AskedBy arguments →
      run files workingDirectory arguments display = request.run files workingDirectory display := by
    intro h
    rw [run, Request.ofArguments_eq_check_iff.mpr h]
  refine ⟨Request.ofArguments_eq_check_iff, fun hasked hfails => ?_, fun hasked hnot => ?_⟩
  · rw [hrun hasked]
    exact CheckRequest.run_of_fails hfails
  · have hsome := hasked.trees_ne_nil
    have hcolor : request.color display =
        (!request.noColor && !display.noColor && display.color) := by
      rw [CheckRequest.color]
      cases request.noColor <;> cases display.noColor <;> rfl
    obtain ⟨form, found, reports, hform, hfound, hreports⟩ :=
      CheckRequest.exists_of_not_fails hsome hnot
    rw [hrun hasked, CheckRequest.run_of_ofWord? hform hfound hreports, hcolor]
    refine ⟨_, found, reports, CheckRequest.startsAt_settingsStart hsome,
      Settings.discover_eq_iff.mp hfound, ?_, CheckRequest.render_of_ofWord? hform, ?_, ?_⟩
    · exact (mapM_eq_ok_iff.mp hreports).imp fun _ _ => CheckRequest.checkTree_eq_ok_iff.mp
    · dsimp only
      split
      · exact .inl rfl
      · exact .inr rfl
    · have hgate : ∀ b : Bool, (if b = true then 1 else 0 : UInt32) = 1 ↔ b = true := by decide
      refine (hgate _).trans ?_
      simp only [TreeReport.gateFails_iff, Model.hasErrors, List.any_eq_true, decide_eq_true_eq]

/-- One file, with a tree that has no nodes. -/
def bareFiles : Files := fun path =>
  if path.text = "bare.json" then .file [91, 110, 117, 108, 108, 44, 91, 93, 93] else .missing

theorem reports_bareFiles : ∃ model, CheckRequest.Reports bareFiles true ⟨"bare.json"⟩
    ⟨"bare.json", model⟩ ∧ model.diagnostics = #[] :=
  ⟨_, ⟨"[null,[]]", ⟨#[], none⟩, _, by decide +kernel, Tree.ofText_eq_ok rfl (by decide +kernel),
    rfl, rfl⟩, rfl⟩

theorem discover_bareFiles : Settings.discover bareFiles ⟨"."⟩ = .ok ⟨.default, none, []⟩ := rfl

theorem startsAt_bare (rest : List Path) : CheckRequest.StartsAt (⟨"bare.json"⟩ :: rest) ⟨"."⟩ :=
  CheckRequest.startsAt_settingsStart (List.cons_ne_nil _ _)

/-- The settings are the default ones, whatever other trees there are. -/
theorem eq_default_of_bareFiles {rest : List Path} {start : Path}
    {outcome : Except SettingsError FoundSettings}
    (hstart : CheckRequest.StartsAt (⟨"bare.json"⟩ :: rest) start)
    (h : Settings.ComesTo bareFiles start outcome) : outcome = .ok ⟨.default, none, []⟩ := by
  rw [hstart.unique (startsAt_bare rest)] at h
  exact (Settings.discover_eq_iff.mpr h).symm.trans discover_bareFiles

/-- A command line with every option of a check. -/
def lavishArguments : List String :=
  ["--log-level", "info", "check", "--symbols", "bare.json", "--fail-on-symbol-errors", "-fjson",
    "--no-color", "--log-json", "other.json"]

open CheckRequest in
theorem check_all_or_nothing_bareFiles :
    AskedBy ⟨[⟨"bare.json"⟩, ⟨"other.json"⟩], "json", true, true, true⟩ lavishArguments ∧
      (run bareFiles "" ["check", "bare.json", "-ftext", "other.json"]).stdout = "" ∧
      (run bareFiles "" ["check", "bare.json", "-ftext", "other.json"]).exit = 1 ∧
      (run bareFiles "" ["--log-json", "check", "--", "bare.json"]).stdout =
        "No errors found in 1 tree(s)\n" ∧
      (run bareFiles "" ["--log-json", "check", "--", "bare.json"]).exit = 0 := by
  obtain ⟨hasked, hfails, -⟩ := check_all_or_nothing bareFiles "" .plain
    ["check", "bare.json", "-ftext", "other.json"]
    ⟨[⟨"bare.json"⟩, ⟨"other.json"⟩], "text", false, false, false⟩
  obtain ⟨hstdout, hexit⟩ := hfails (hasked.mp rfl) (.tree (startsAt_bare _)
    (Settings.discover_eq_iff.mp discover_bareFiles)
    (List.mem_cons_of_mem _ List.mem_cons_self) (by rintro _ ⟨_, _, _, htext, -⟩; cases htext))
  obtain ⟨hasked, -, hok⟩ := check_all_or_nothing bareFiles "" .plain
    ["--log-json", "check", "--", "bare.json"] ⟨[⟨"bare.json"⟩], "text", false, false, false⟩
  obtain ⟨model, hreport, hclean⟩ := reports_bareFiles
  have hnot : ¬ CheckRequest.Fails bareFiles ⟨[⟨"bare.json"⟩], "text", false, false, false⟩ := by
    rintro (⟨htext, -⟩ | ⟨hstart, hsettings⟩ | ⟨hstart, hsettings, hpath, hnone⟩)
    · exact htext rfl
    · cases eq_default_of_bareFiles hstart hsettings
    · cases eq_default_of_bareFiles hstart hsettings
      cases List.mem_singleton.mp hpath
      exact hnone _ hreport
  obtain ⟨start, found, reports, hstart, hsettings, hreports, hwritten, hexits, hgate⟩ :=
    hok (hasked.mp rfl) hnot
  cases eq_default_of_bareFiles hstart hsettings
  cases List.right_unique_forall₂' rightUnique_reports hreports (.cons hreport .nil)
  have hlines : TextReport.reportLines false false [⟨"bare.json", model⟩] =
      (TextReport.closingLines false 0 0 1).map String.toList := by
    simp only [TextReport.reportLines, TreeReport.count, TreeReport.diagnostics, hclean,
      List.flatMap_cons, List.flatMap_nil]
    rfl
  have hlavish := (check_all_or_nothing bareFiles "" .plain lavishArguments
    ⟨[⟨"bare.json"⟩, ⟨"other.json"⟩], "json", true, true, true⟩).1.mp rfl
  refine ⟨hlavish, hstdout, hexit, hwritten.trans ?_, hexits.resolve_left fun hone => ?_⟩
  · change String.ofList ((TextReport.reportLines false false [_]).flatMap _) = _
    rw [hlines]
    decide
  · simpa [hclean] using hgate.mp hone

end ScopeCheck
