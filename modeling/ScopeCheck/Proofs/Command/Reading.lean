import ScopeCheck.Proofs.Command.Grammar

namespace ScopeCheck

theorem acceptable_nil : Acceptable [] := ⟨List.nodup_nil, nofun⟩

theorem acceptable_concat_iff {options : List (Flag × String)} {flag : Flag} {value : String} :
    Acceptable (options ++ [(flag, value)]) ↔
      Acceptable options ∧ flag ∉ options.map Prod.fst ∧ flag.accepts value = true := by
  have haccepts : flag.accepts value = true ↔
      (flag = .logLevel → value ∈ ["trace", "debug", "info", "warn", "error"]) := by
    cases flag <;> simp [Flag.accepts]
  rw [haccepts]
  constructor
  · rintro ⟨honce, hlevel⟩
    rw [List.map_append, List.nodup_append] at honce
    refine ⟨⟨honce.1, fun other hother => hlevel other (List.mem_append_left _ hother)⟩,
      fun hmem => honce.2.2 flag hmem flag (List.mem_singleton_self _) rfl, ?_⟩
    rintro rfl
    exact hlevel value (List.mem_append_right _ (List.mem_singleton_self _))
  · rintro ⟨⟨honce, hlevel⟩, hnew, hvalue⟩
    constructor
    · rw [List.map_append, List.nodup_append]
      refine ⟨honce, List.pairwise_singleton _ _, fun other hother last hlast heq => ?_⟩
      obtain rfl : last = flag := List.mem_singleton.mp hlast
      exact hnew (heq ▸ hother)
    · intro other hother
      rcases List.mem_append.mp hother with hother | hother
      · exact hlevel other hother
      · cases List.mem_singleton.mp hother
        exact hvalue rfl

theorem Acceptable.of_append {options more : List (Flag × String)}
    (h : Acceptable (options ++ more)) : Acceptable options where
  once := by
    have honce := h.once
    rw [List.map_append] at honce
    exact (List.nodup_append.mp honce).1
  level value hvalue := h.level value (List.mem_append_left _ hvalue)

namespace Given

variable {given result : Given} {command : Command} {flag : Flag} {value : String}

/-- An option is taken in if the options are in order with it. -/
theorem add_eq_ok_iff (h : Acceptable given.options) :
    given.add command flag value = .ok result ↔
      (flag ≠ .help ∧ flag ≠ .version) ∧ Acceptable (given.options ++ [(flag, value)]) ∧
        result = { given with options := given.options ++ [(flag, value)] } := by
  have hhas : given.has flag = true ↔ flag ∈ given.options.map Prod.fst := by
    simp only [has, List.any_eq_true, List.mem_map, decide_eq_true_eq]
  rw [acceptable_concat_iff, ← hhas, add]
  by_cases hhelp : flag = .help
  · simp [hhelp]
  · by_cases hversion : flag = .version
    · simp [hversion]
    · rw [if_neg hhelp, if_neg hversion]
      cases given.has flag with
      | true => simp
      | false => cases flag.accepts value <;> simp [hhelp, hversion, h, eq_comm (a := result)]

end Given

/-- An argument gives an option with its value, or the option waits for its value. -/
inductive Steps (command : Command) (given : Given) (argument : String) :
    Given → Option Flag → Prop
  | done {flag : Flag} {value : String} {middle : Given} (hflag : flag ∈ command.flags)
    (hwritten : flag.Writes value [argument]) (hadd : given.add command flag value = .ok middle) :
    Steps command given argument middle none
  | waits {flag : Flag} (hflag : flag ∈ command.flags)
    (hwritten : ∀ value, IsWord value → flag.Writes value [argument, value]) :
    Steps command given argument given (some flag)

namespace Steps

variable {command : Command} {given middle : Given} {argument : String} {flag : Flag}
  {value : Option String} {pending : Option Flag}

theorem of_addLong (hflag : flag ∈ command.flags)
    (hshape : Shape.ofArgument argument = .long flag.long value)
    (hadd : given.addLong command flag value = .ok (middle, pending)) :
    Steps command given argument middle pending := by
  rw [Given.addLong.eq_def] at hadd
  split at hadd
  · rename_i htakes
    cases hadd
    rw [Shape.eq_long hshape]
    exact .waits hflag fun _ => .next htakes
  · rename_i htakes
    obtain ⟨added, hadded, heq⟩ := bind_eq_ok_iff.mp hadd
    cases heq
    rw [Shape.eq_long_value hshape]
    exact .done hflag (.attached htakes) hadded
  · rename_i htakes
    obtain ⟨added, hadded, heq⟩ := bind_eq_ok_iff.mp hadd
    cases heq
    rw [Shape.eq_long hshape]
    exact .done hflag (.plain htakes) hadded
  · cases hadd

theorem of_addShort {letter : Char} (hflag : flag ∈ command.flags)
    (hletter : flag.short? = some letter)
    (hshape : Shape.ofArgument argument = .short letter value)
    (hadd : given.addShort command flag value = .ok (middle, pending)) :
    Steps command given argument middle pending := by
  cases htakes : flag.takesValue with
  | false =>
    -- Only help and the version have a letter and no value.
    cases flag <;> cases hletter <;> first | cases hadd | cases htakes
  | true =>
    rw [Given.addShort, if_pos htakes, Given.addLong.eq_def, htakes] at hadd
    cases value with
    | none =>
      cases hadd
      rw [Shape.eq_short hshape]
      exact .waits hflag fun _ => .letterNext htakes hletter
    | some value =>
      obtain ⟨added, hadded, heq⟩ := bind_eq_ok_iff.mp hadd
      cases heq
      rcases Shape.eq_short_value hshape with rfl | ⟨rfl, hne, hequals⟩
      · exact .done hflag (.letterEquals htakes hletter) hadded
      · exact .done hflag (.letterAttached htakes hletter hne hequals) hadded

end Steps

/-- Where the reading ends: in front of a command at a word, with no word read; behind it at the end. -/
def EndsAt (command : Command) (words before rest : List String) : Prop :=
  if command = .program then words = [] ∧ "--" ∉ before ∧ ∀ word ∈ rest.head?, IsWord word
  else rest = []

theorem EndsAt.cons {command : Command} {words before rest : List String} {argument : String}
    (h : EndsAt command words before rest) (hargument : argument ≠ "--") :
    EndsAt command words (argument :: before) rest := by
  rw [EndsAt] at h ⊢
  split
  · rename_i hprogram
    rw [if_pos hprogram] at h
    exact ⟨h.1, fun hmem => (List.mem_cons.mp hmem).elim (fun heq => hargument heq.symm) h.2.1, h.2.2⟩
  · rename_i hprogram
    rwa [if_neg hprogram] at h

theorem EndsAt.of_append {command : Command} {words written before rest : List String}
    (h : EndsAt command words (written ++ before) rest) : EndsAt command words before rest := by
  rw [EndsAt] at h ⊢
  split
  · rename_i hprogram
    rw [if_pos hprogram] at h
    exact ⟨h.1, fun hmem => h.2.1 (List.mem_append_right _ hmem), h.2.2⟩
  · rename_i hprogram
    rwa [if_neg hprogram] at h

/-- The option that waits for its value has been written up to there. -/
inductive Awaits (command : Command) : Option Flag → List String → Prop
  | none : Awaits command none []
  | some {flag : Flag} {argument : String} (hflag : flag ∈ command.flags)
    (hwritten : ∀ value, IsWord value → flag.Writes value [argument, value]) :
    Awaits command (some flag) [argument]

namespace Arguments

variable {command : Command} {pending : Option Flag} {given result : Given}
  {arguments rest : List String}

theorem findLong_eq_ok {argument name : String} {flag : Flag}
    (h : findLong command argument name = .ok flag) : flag ∈ command.flags ∧ flag.long = name := by
  rw [findLong] at h
  split at h
  · cases h
  · rename_i hfind
    cases h
    exact ⟨List.mem_of_find?_eq_some hfind, by simpa using List.find?_some hfind⟩

theorem findShort_eq_ok {argument : String} {letter : Char} {flag : Flag}
    (h : findShort command argument letter = .ok flag) :
    flag ∈ command.flags ∧ flag.short? = some letter := by
  rw [findShort] at h
  split at h
  · cases h
  · rename_i hfind
    cases h
    exact ⟨List.mem_of_find?_eq_some hfind, by simpa using List.find?_some hfind⟩

/-- What is read stands in front of where the reading ends. `written` has been looked at before. -/
inductive Reads (command : Command) (given : Given) (written : List String) :
    List String → Given → List String → Prop
  | intro {options : List (Flag × String)} {words before rest : List String}
    (hspells : Spells command.settings options words (written ++ before))
    (hends : EndsAt command words before rest) (hacceptable : Acceptable (given.options ++ options)) :
    Reads command given written (before ++ rest)
      ⟨given.options ++ options, given.words ++ words⟩ rest

namespace Reads

variable {written : List String} {argument : String} {flag : Flag} {value : String}

theorem nil (h : Acceptable given.options) (hends : EndsAt command [] [] rest) :
    Reads command given [] rest given rest := by
  have hacceptable : Acceptable (given.options ++ []) := by rwa [List.append_nil]
  have hreads : Reads command given [] ([] ++ rest) _ rest := .intro .nil hends hacceptable
  rwa [List.append_nil, List.append_nil] at hreads

theorem option {middle : Given} (hgiven : Acceptable given.options) (hflag : flag ∈ command.flags)
    (hwritten : flag.Writes value (written ++ [argument]))
    (hadd : given.add command flag value = .ok middle) (hargument : argument ≠ "--")
    (h : Acceptable middle.options → Reads command middle [] arguments result rest) :
    Reads command given written (argument :: arguments) result rest := by
  obtain ⟨hsetting, hmiddle, rfl⟩ := (Given.add_eq_ok_iff hgiven).mp hadd
  obtain @⟨options, words, before, rest, hspells, hends, hacceptable⟩ := h hmiddle
  have hspells' : Spells command.settings ((flag, value) :: options) words
      (written ++ argument :: before) := by
    rw [List.append_cons]
    exact .option (Command.mem_settings_iff.mpr ⟨hflag, hsetting⟩) hwritten hspells
  rw [List.append_assoc] at hacceptable ⊢
  exact .intro hspells' (hends.cons hargument) hacceptable

theorem waits (hargument : argument ≠ "--")
    (h : Reads command given [argument] arguments result rest) :
    Reads command given [] (argument :: arguments) result rest := by
  obtain @⟨options, words, before, rest, hspells, hends, hacceptable⟩ := h
  change Reads command given [] (argument :: before ++ rest) _ rest
  exact .intro hspells (hends.cons hargument) hacceptable

theorem word (hcommand : command ≠ .program) (hword : IsWord argument) (hargument : argument ≠ "--")
    (h : Reads command (given.addWords [argument]) [] arguments result rest) :
    Reads command given [] (argument :: arguments) result rest := by
  obtain @⟨options, words, before, rest, hspells, hends, hacceptable⟩ := h
  have hends' : EndsAt command (argument :: words) (argument :: before) rest := by
    have hcons := hends.cons hargument
    rwa [EndsAt, if_neg hcommand] at hcons ⊢
  have hreads : Reads command given [] (argument :: before ++ rest) _ rest :=
    .intro (.word hword hspells) hends' hacceptable
  rwa [List.append_cons] at hreads

theorem escape (hcommand : command ≠ .program) (hgiven : Acceptable given.options) :
    Reads command given [] ("--" :: arguments) (given.addWords arguments) [] := by
  have hends : EndsAt command arguments ("--" :: arguments) [] := by
    rw [EndsAt, if_neg hcommand]
  have hacceptable : Acceptable (given.options ++ []) := by rwa [List.append_nil]
  have hreads : Reads command given [] ("--" :: arguments ++ []) _ [] :=
    .intro (.escape arguments) hends hacceptable
  rwa [List.append_nil, List.append_nil] at hreads

theorem steps {middle : Given} {pending : Option Flag} (hgiven : Acceptable given.options)
    (hsteps : Steps command given argument middle pending) (hargument : argument ≠ "--")
    (h : ∀ written, Awaits command pending written → Acceptable middle.options →
      Reads command middle written arguments result rest) :
    Reads command given [] (argument :: arguments) result rest := by
  cases hsteps with
  | done hflag hwritten hadd => exact .option hgiven hflag hwritten hadd hargument (h [] .none)
  | waits hflag hwritten => exact .waits hargument (h [argument] (.some hflag hwritten) hgiven)

end Reads

theorem ne_escape {argument : String} {shape : Shape} (h : Shape.ofArgument argument = shape)
    (hshape : shape ≠ .escape) : argument ≠ "--" := by
  rintro rfl
  subst h
  exact hshape rfl

theorem reads_of_read {written : List String} (hgiven : Acceptable given.options)
    (hawaits : Awaits command pending written)
    (h : read command pending given arguments = .ok (result, rest)) :
    Reads command given written arguments result rest := by
  -- An option that waits for its value has read one argument already, which `written` stands for.
  induction arguments generalizing pending given written with
  | nil =>
    cases hawaits with
    | none =>
      cases h
      refine .nil hgiven ?_
      rw [EndsAt]
      split
      · exact ⟨rfl, nofun, nofun⟩
      · rfl
    | some => cases h
  | cons argument arguments ih =>
    cases hawaits with
    | some hflag hwritten =>
      rw [read] at h
      split at h
      · rename_i hvalue
        obtain ⟨middle, hadd, hrest⟩ := bind_eq_ok_iff.mp h
        have hshape := of_decide_eq_true hvalue
        have hword := Shape.ofArgument_eq_word_iff.mp hshape
        exact .option hgiven hflag (hwritten argument hword) hadd (ne_escape hshape nofun)
          fun hmiddle => ih hmiddle .none hrest
      · cases h
    | none =>
      rw [read] at h
      split at h
      · rename_i hshape
        have hword := Shape.ofArgument_eq_word_iff.mp hshape
        split at h
        · rename_i hprogram
          cases h
          refine .nil hgiven ?_
          rw [EndsAt, if_pos hprogram]
          exact ⟨rfl, nofun, fun word hmem => Option.some.inj hmem ▸ hword⟩
        · rename_i hcommand
          exact .word hcommand hword (ne_escape hshape nofun) (ih hgiven .none h)
      · rename_i hshape
        split at h
        · cases h
        · rename_i hcommand
          cases h
          rw [Shape.eq_escape hshape]
          exact .escape hcommand hgiven
      · rename_i name value hshape
        obtain ⟨flag, hfind, h⟩ := bind_eq_ok_iff.mp h
        obtain ⟨⟨middle, pending⟩, hadd, hrest⟩ := bind_eq_ok_iff.mp h
        obtain ⟨hflag, rfl⟩ := findLong_eq_ok hfind
        exact .steps hgiven (.of_addLong hflag hshape hadd) (ne_escape hshape nofun)
          fun written hawaits hmiddle => ih hmiddle hawaits hrest
      · rename_i letter value hshape
        obtain ⟨flag, hfind, h⟩ := bind_eq_ok_iff.mp h
        obtain ⟨⟨middle, pending⟩, hadd, hrest⟩ := bind_eq_ok_iff.mp h
        obtain ⟨hflag, hletter⟩ := findShort_eq_ok hfind
        exact .steps hgiven (.of_addShort hflag hletter hshape hadd) (ne_escape hshape nofun)
          fun written hawaits hmiddle => ih hmiddle hawaits hrest

section Written

variable {argument value : String} {attached : Option String} {flag : Flag} {middle : Given}

theorem read_long (hflag : flag ∈ command.flags)
    (hshape : Shape.ofArgument argument = .long flag.long attached) :
    read command none given (argument :: rest) =
      given.addLong command flag attached >>= fun (given, pending) =>
        read command pending given rest := by
  rw [read]
  simp only [hshape, findLong, Flag.find?_long hflag]
  rfl

theorem read_short {letter : Char} (hflag : flag ∈ command.flags)
    (htakes : flag.takesValue = true) (hletter : flag.short? = some letter)
    (hshape : Shape.ofArgument argument = .short letter attached) :
    read command none given (argument :: rest) =
      given.addLong command flag attached >>= fun (given, pending) =>
        read command pending given rest := by
  have hadd : given.addShort command flag attached = given.addLong command flag attached :=
    if_pos htakes
  rw [read, ← hadd]
  simp only [hshape, findShort, Flag.find?_short hflag hletter]
  rfl

theorem addLong_some_bind {β : Type} {f : Given × Option Flag → Except Halt β}
    (htakes : flag.takesValue = true) (hadd : given.add command flag value = .ok middle) :
    (given.addLong command flag (some value) >>= f) = f (middle, none) := by
  simp only [Given.addLong, htakes, hadd]
  rfl

theorem addLong_none_bind (htakes : flag.takesValue = true) (hvalue : IsWord value)
    (hadd : given.add command flag value = .ok middle) :
    (given.addLong command flag none >>= fun (given, pending) =>
      read command pending given (value :: rest)) = read command none middle rest := by
  have hword : isValue value = true := decide_eq_true (Shape.ofArgument_eq_word_iff.mpr hvalue)
  simp only [Given.addLong, htakes]
  change read command (some flag) given (value :: rest) = _
  rw [read, if_pos hword, hadd]
  rfl

theorem read_of_writes {written : List String} (hflag : flag ∈ command.flags)
    (hwritten : flag.Writes value written) (hadd : given.add command flag value = .ok middle) :
    read command none given (written ++ rest) = read command none middle rest := by
  cases hwritten with
  | plain htakes =>
    refine (read_long hflag flag.ofArgument_long).trans ?_
    simp only [Given.addLong, htakes, hadd]
    rfl
  | next htakes hvalue =>
    exact (read_long hflag flag.ofArgument_long).trans (addLong_none_bind htakes hvalue hadd)
  | attached htakes =>
    exact (read_long hflag (flag.ofArgument_long_value value)).trans (addLong_some_bind htakes hadd)
  | letterNext htakes hletter hvalue =>
    refine (read_short hflag htakes hletter ?_).trans (addLong_none_bind htakes hvalue hadd)
    obtain ⟨rfl, rfl⟩ := Flag.eq_format_of_short htakes hletter
    decide
  | letterEquals htakes hletter =>
    refine (read_short hflag htakes hletter ?_).trans (addLong_some_bind htakes hadd)
    obtain ⟨rfl, rfl⟩ := Flag.eq_format_of_short htakes hletter
    simp [Shape.ofArgument]
  | letterAttached htakes hletter hne hequals =>
    refine (read_short hflag htakes hletter ?_).trans (addLong_some_bind htakes hadd)
    obtain ⟨rfl, rfl⟩ := Flag.eq_format_of_short htakes hletter
    cases hlist : value.toList with
    | nil => exact absurd (String.toList_eq_nil_iff.mp hlist) hne
    | cons first text =>
      have hfirst : first ≠ '=' := fun heq => hequals (by rw [hlist, heq]; rfl)
      have hvalue : String.ofList (first :: text) = value := by rw [← hlist, String.ofList_toList]
      simp [Shape.ofArgument, hlist, hfirst, hvalue]

end Written

theorem read_end (h : EndsAt command [] [] rest) :
    read command none given rest = .ok (given, rest) := by
  rw [EndsAt] at h
  split at h
  · rename_i hprogram
    cases rest with
    | nil => rfl
    | cons word rest =>
      have hshape := Shape.ofArgument_eq_word_iff.mpr (h.2.2 word rfl)
      rw [read]
      simp only [hshape, if_pos hprogram]
  · rw [h]
    rfl

theorem read_of_spells {options : List (Flag × String)} {words before : List String}
    (hspells : Spells command.settings options words before) (hends : EndsAt command words before rest)
    (hacceptable : Acceptable (given.options ++ options)) :
    read command none given (before ++ rest) =
      .ok (⟨given.options ++ options, given.words ++ words⟩, rest) := by
  induction hspells generalizing given with
  | nil =>
    rw [List.nil_append, List.append_nil, List.append_nil]
    exact read_end hends
  | escape words =>
    have hcommand : command ≠ .program := by
      rintro rfl
      exact hends.2.1 List.mem_cons_self
    rw [EndsAt, if_neg hcommand] at hends
    subst hends
    rw [List.append_nil, List.append_nil, read]
    simp only [Shape.ofArgument, if_neg hcommand]
    rfl
  | @word options words before word hword hspells ih =>
    have hcommand : command ≠ .program := by
      rintro rfl
      cases hends.1
    have hends' : EndsAt command words before rest := by
      rwa [EndsAt, if_neg hcommand] at hends ⊢
    have hshape := Shape.ofArgument_eq_word_iff.mpr hword
    have hread := @ih (given.addWords [word]) hends' hacceptable
    rw [List.cons_append, read]
    simp only [hshape, if_neg hcommand, hread]
    simp [Given.addWords]
  | @option options words written before flag value hflag hwritten hspells ih =>
    obtain ⟨hflags, hsetting⟩ := Command.mem_settings_iff.mp hflag
    rw [List.append_cons] at hacceptable
    have hgiven : Acceptable given.options := hacceptable.of_append.of_append
    have hadd : given.add command flag value =
        .ok { given with options := given.options ++ [(flag, value)] } :=
      (Given.add_eq_ok_iff hgiven).mpr ⟨hsetting, hacceptable.of_append, rfl⟩
    rw [List.append_assoc, read_of_writes hflags hwritten hadd, ih hends.of_append hacceptable,
      List.append_cons given.options _ options]

/-- What a reading gives stands on the command line, and what stands there is read. -/
theorem read_eq_ok_iff :
    read command none .none arguments = .ok (result, rest) ↔
      ∃ before, arguments = before ++ rest ∧ EndsAt command result.words before rest ∧
        Spells command.settings result.options result.words before ∧ Acceptable result.options := by
  constructor
  · intro h
    obtain @⟨options, words, before, rest, hspells, hends, hacceptable⟩ :=
      reads_of_read acceptable_nil .none h
    exact ⟨before, rfl, hends, hspells, hacceptable⟩
  · rintro ⟨before, rfl, hends, hspells, hacceptable⟩
    exact read_of_spells hspells hends hacceptable

end Arguments

theorem value?_getD_eq_iff {given : Given} {flag : Flag} {default value : String}
    (h : (given.options.map Prod.fst).Nodup) :
    (given.value? flag).getD default = value ↔
      (flag, value) ∈ given.options ∨ value = default ∧ flag ∉ given.options.map Prod.fst := by
  obtain ⟨options, words⟩ := given
  simp only [Given.value?] at h ⊢
  induction options with
  | nil => simp [eq_comm]
  | cons option options ih =>
    obtain ⟨other, found⟩ := option
    rw [List.map_cons, List.nodup_cons] at h
    by_cases heq : flag = other
    · subst heq
      have hnot : (flag, value) ∉ options := fun hmem => h.1 (List.mem_map.mpr ⟨_, hmem, rfl⟩)
      simp [hnot, eq_comm]
    · have hne : (flag == other) = false := by simpa using heq
      simp [List.lookup_cons, hne, heq, ih h.2]

theorem has_iff {given : Given} {flag : Flag} :
    given.has flag = true ↔ flag ∈ given.options.map Prod.fst := by
  simp only [Given.has, List.any_eq_true, List.mem_map, decide_eq_true_eq]

/-- A command line that asks for a check: options of the program, the command, and then its options
and the trees in any order. The form is the one that is given, or plain text. -/
inductive CheckRequest.AskedBy (request : CheckRequest) : List String → Prop
  | intro {general options : List (Flag × String)} {before rest : List String}
    (hgeneral : Spells [.logLevel, .logJson] general [] before) (hbefore : "--" ∉ before)
    (hrest : Spells [.format, .symbols, .failOnSymbolErrors, .noColor, .logLevel, .logJson] options
      (request.trees.map Path.text) rest)
    (hgeneralOnce : Acceptable general) (honce : Acceptable options)
    (hsome : request.trees ≠ []) (hnames : ∀ path ∈ request.trees, path.text ≠ "")
    (hformat : (.format, request.format) ∈ options ∨
      request.format = "text" ∧ .format ∉ options.map Prod.fst)
    (hsymbols : request.symbols = true ↔ .symbols ∈ options.map Prod.fst)
    (hfail : request.failOnSymbolErrors = true ↔ .failOnSymbolErrors ∈ options.map Prod.fst)
    (hnoColor : request.noColor = true ↔ .noColor ∈ options.map Prod.fst) :
    AskedBy request (before ++ "check" :: rest)

theorem CheckRequest.AskedBy.trees_ne_nil {request : CheckRequest} {arguments : List String}
    (h : request.AskedBy arguments) : request.trees ≠ [] := by
  cases h
  assumption

namespace Request

variable {arguments : List String} {request : CheckRequest} {given : Given}

theorem ofCheck_eq_ok_iff : ofCheck given = .ok (.check request) ↔
    request.trees.map Path.text = given.words ∧ request.trees ≠ [] ∧
      (∀ path ∈ request.trees, path.text ≠ "") ∧
      (given.value? .format).getD "text" = request.format ∧
      request.symbols = given.has .symbols ∧
      request.failOnSymbolErrors = given.has .failOnSymbolErrors ∧
      request.noColor = given.has .noColor := by
  obtain ⟨trees, format, symbols, failOnSymbolErrors, noColor⟩ := request
  rw [ofCheck]
  constructor
  · intro h
    split at h
    · cases h
    · split at h
      · cases h
      · rename_i hsome hnames
        cases h
        refine ⟨by simp [Function.comp_def], by simpa using hsome, ?_, rfl, rfl, rfl, rfl⟩
        refine List.forall_mem_map.mpr fun word hword hempty => hnames ?_
        change word = "" at hempty
        simpa [hempty] using hword
  · rintro ⟨hwords, hsome, hnames, rfl, rfl, rfl, rfl⟩
    have htrees : given.words.map Path.mk = trees := by
      rw [← hwords, List.map_map]
      exact List.map_id _
    rw [if_neg (by simpa [← hwords] using hsome), if_neg (by simpa [← hwords] using hnames), htrees]

theorem ofExplain_ne_check : ofExplain given ≠ .ok (.check request) := by
  rw [ofExplain.eq_def]
  split <;> nofun

theorem ofWord?_eq_check_iff {name : String} : Command.ofWord? name = some .check ↔ name = "check" := by
  rw [Command.ofWord?.eq_def]
  split <;> simp_all

/-- A check is what is asked for just where the command line is written so. -/
theorem ofArguments_eq_check_iff :
    ofArguments arguments = .ok (.check request) ↔ request.AskedBy arguments := by
  constructor
  · intro hok
    obtain ⟨⟨general, rest⟩, hgeneral, h⟩ := bind_eq_ok_iff.mp hok
    obtain ⟨before, rfl, hends, hspells, hgeneralOnce⟩ := Arguments.read_eq_ok_iff.mp hgeneral
    cases rest with
    | nil => cases h
    | cons name rest =>
      simp only at h
      split at h
      · rename_i hname
        obtain rfl := ofWord?_eq_check_iff.mp hname
        obtain ⟨⟨given, after⟩, hread, hcheck⟩ := bind_eq_ok_iff.mp h
        obtain ⟨written, rfl, rfl, hrest, honce⟩ := Arguments.read_eq_ok_iff.mp hread
        obtain ⟨hwords, hsome, hnames, hformat, hsymbols, hfail, hnoColor⟩ :=
          ofCheck_eq_ok_iff.mp hcheck
        obtain ⟨hnone, hbefore, -⟩ := hends
        rw [hnone] at hspells
        rw [← hwords] at hrest
        rw [List.append_nil]
        exact .intro hspells hbefore hrest hgeneralOnce honce hsome hnames
          ((value?_getD_eq_iff honce.once).mp hformat) (hsymbols ▸ has_iff) (hfail ▸ has_iff)
          (hnoColor ▸ has_iff)
      · obtain ⟨⟨given, after⟩, -, hexplain⟩ := bind_eq_ok_iff.mp h
        exact absurd hexplain ofExplain_ne_check
      · cases h
      · cases h
  · rintro ⟨hgeneral, hbefore, hrest, hgeneralOnce, honce, hsome, hnames, hformat, hsymbols, hfail,
      hnoColor⟩
    rename_i general options before rest
    have hword : IsWord "check" := .inr (by decide)
    have hfirst : Arguments.read .program none .none (before ++ "check" :: rest) =
        .ok (⟨general, []⟩, "check" :: rest) :=
      Arguments.read_eq_ok_iff.mpr ⟨before, rfl,
        ⟨rfl, hbefore, fun word hmem => Option.some.inj hmem ▸ hword⟩, hgeneral, hgeneralOnce⟩
    have hsecond : Arguments.read .check none .none rest =
        .ok (⟨options, request.trees.map Path.text⟩, []) :=
      Arguments.read_eq_ok_iff.mpr ⟨rest, (List.append_nil _).symm, rfl, hrest, honce⟩
    rw [ofArguments, hfirst]
    change (Arguments.read .check none .none rest >>= fun result => ofCheck result.1) = _
    rw [hsecond]
    have hhas : ∀ flag, (⟨options, request.trees.map Path.text⟩ : Given).has flag = true ↔
        flag ∈ options.map Prod.fst := fun _ => has_iff
    refine ofCheck_eq_ok_iff.mpr ⟨rfl, hsome, hnames, ?_, ?_, ?_, ?_⟩
    · exact (value?_getD_eq_iff honce.once).mpr hformat
    · exact Bool.eq_iff_iff.mpr (hsymbols.trans (hhas _).symm)
    · exact Bool.eq_iff_iff.mpr (hfail.trans (hhas _).symm)
    · exact Bool.eq_iff_iff.mpr (hnoColor.trans (hhas _).symm)

end Request

end ScopeCheck
