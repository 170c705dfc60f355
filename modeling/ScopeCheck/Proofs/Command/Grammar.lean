import ScopeCheck.Command.Arguments
import ScopeCheck.Proofs.Lists

namespace ScopeCheck

/-- An argument that is no option. A dash alone is none. -/
def IsWord (argument : String) : Prop := argument = "-" ∨ argument.toList.head? ≠ some '-'

/-- The ways to write an option with its value. One without a value has the empty one here. -/
inductive Flag.Writes : Flag → String → List String → Prop
  | plain {flag : Flag} (htakes : flag.takesValue = false) : Writes flag "" ["--" ++ flag.long]
  | next {flag : Flag} {value : String} (htakes : flag.takesValue = true) (hvalue : IsWord value) :
    Writes flag value ["--" ++ flag.long, value]
  | attached {flag : Flag} {value : String} (htakes : flag.takesValue = true) :
    Writes flag value ["--" ++ flag.long ++ "=" ++ value]
  | letterNext {flag : Flag} {letter : Char} {value : String} (htakes : flag.takesValue = true)
    (hletter : flag.short? = some letter) (hvalue : IsWord value) :
    Writes flag value [String.ofList ['-', letter], value]
  | letterEquals {flag : Flag} {letter : Char} {value : String} (htakes : flag.takesValue = true)
    (hletter : flag.short? = some letter) :
    Writes flag value [String.ofList ('-' :: letter :: '=' :: value.toList)]
  | letterAttached {flag : Flag} {letter : Char} {value : String} (htakes : flag.takesValue = true)
    (hletter : flag.short? = some letter) (hne : value ≠ "")
    (hequals : value.toList.head? ≠ some '=') :
    Writes flag value [String.ofList ('-' :: letter :: value.toList)]

/-- Options and words in any order. Two dashes end the options; what comes behind them is words. -/
inductive Spells (flags : List Flag) :
    List (Flag × String) → List String → List String → Prop
  | nil : Spells flags [] [] []
  | escape (words : List String) : Spells flags [] words ("--" :: words)
  | word {options : List (Flag × String)} {words rest : List String} {word : String}
    (hword : IsWord word) (hrest : Spells flags options words rest) :
    Spells flags options (word :: words) (word :: rest)
  | option {options : List (Flag × String)} {words written rest : List String} {flag : Flag}
    {value : String} (hflag : flag ∈ flags) (hwritten : flag.Writes value written)
    (hrest : Spells flags options words rest) :
    Spells flags ((flag, value) :: options) words (written ++ rest)

/-- No option is given twice, and the level of the log is one that there is. -/
structure Acceptable (options : List (Flag × String)) : Prop where
  once : (options.map Prod.fst).Nodup
  level : ∀ value, (.logLevel, value) ∈ options →
    value ∈ ["trace", "debug", "info", "warn", "error"]

namespace Command

/-- The options of a command that do not ask for help or the version. -/
def settings : Command → List Flag
  | program => [.logLevel, .logJson]
  | check => [.format, .symbols, .failOnSymbolErrors, .noColor, .logLevel, .logJson]
  | explain => [.logLevel, .logJson]
  | help => []

theorem mem_settings_iff {command : Command} {flag : Flag} :
    flag ∈ command.settings ↔ flag ∈ command.flags ∧ flag ≠ .help ∧ flag ≠ .version := by
  cases command <;> cases flag <;> decide

end Command

/-! ### What an argument looks like -/

namespace Shape

variable {argument name value : String} {letter : Char}

theorem ofArgument_eq_word_iff : ofArgument argument = .word ↔ IsWord argument := by
  have hdash : argument = "-" ↔ argument.toList = ['-'] := String.toList_inj.symm
  rw [IsWord, hdash, ofArgument.eq_def]
  split
  case h_6 hdashes hlong hletter hequals hattached =>
    refine iff_of_true rfl ?_
    cases hlist : argument.toList with
    | nil => exact .inr nofun
    | cons first text =>
      by_cases hfirst : first = '-'
      · cases text with
        | nil => exact .inl (by rw [hfirst])
        | cons letter text => exact absurd (hfirst ▸ hlist) (hattached letter text)
      · exact .inr fun hhead => hfirst (Option.some.inj hhead)
  all_goals
    rename_i heq
    simp [heq]

theorem eq_escape (h : ofArgument argument = .escape) : argument = "--" := by
  rw [ofArgument.eq_def] at h
  split at h
  · rename_i heq
    exact String.toList_inj.mp heq
  all_goals cases h

theorem splitValue_eq_none {text : List Char} (h : splitValue text = (name, none)) :
    text = name.toList := by
  have hsplit := List.takeWhile_append_dropWhile (p := fun c => decide (c ≠ '=')) (l := text)
  rw [splitValue] at h
  split at h
  · rename_i heq
    rw [heq, List.append_nil] at hsplit
    rw [← (Prod.mk.inj h).1, String.toList_ofList, hsplit]
  · cases h

theorem splitValue_eq_some {text : List Char} (h : splitValue text = (name, some value)) :
    text = name.toList ++ '=' :: value.toList := by
  have hsplit := List.takeWhile_append_dropWhile (p := fun c => decide (c ≠ '=')) (l := text)
  rw [splitValue] at h
  split at h
  · cases h
  · rename_i first rest heq
    have hfirst := List.head?_dropWhile_not (fun c => decide (c ≠ '=')) text
    rw [heq] at hfirst hsplit
    obtain rfl : first = '=' := by simpa using hfirst
    cases h
    rw [String.toList_ofList, String.toList_ofList, hsplit]

theorem splitValue_append {text : List Char} (hname : '=' ∉ name.toList) :
    splitValue (name.toList ++ '=' :: text) = (name, some (String.ofList text)) := by
  have hpass : ∀ c ∈ name.toList, decide (c ≠ '=') = true := fun c hc =>
    decide_eq_true fun heq => hname (heq ▸ hc)
  rw [splitValue, List.takeWhile_append_of_pos hpass, List.dropWhile_append_of_pos hpass]
  simp

theorem ofArgument_of_toList {text : List Char} (h : argument.toList = '-' :: '-' :: text)
    (hne : text ≠ []) :
    ofArgument argument = .long (splitValue text).1 (splitValue text).2 := by
  cases text with
  | nil => exact absurd rfl hne
  | cons =>
    rw [ofArgument, h]
    rfl

theorem eq_long (h : ofArgument argument = .long name none) : argument = "--" ++ name := by
  rw [ofArgument.eq_def] at h
  split at h
  case h_2 text _ heq =>
    cases hsplit : splitValue text with
    | mk found rest =>
      rw [hsplit] at h
      cases h
      apply String.toList_inj.mp
      rw [heq, splitValue_eq_none hsplit, String.toList_append]
      rfl
  all_goals cases h

theorem eq_long_value (h : ofArgument argument = .long name (some value)) :
    argument = "--" ++ name ++ "=" ++ value := by
  rw [ofArgument.eq_def] at h
  split at h
  case h_2 text _ heq =>
    cases hsplit : splitValue text with
    | mk found rest =>
      rw [hsplit] at h
      cases h
      apply String.toList_inj.mp
      simp [heq, splitValue_eq_some hsplit]
  all_goals cases h

theorem eq_short (h : ofArgument argument = .short letter none) :
    argument = String.ofList ['-', letter] := by
  rw [ofArgument.eq_def] at h
  split at h
  case h_3 heq =>
    cases h
    apply String.toList_inj.mp
    rw [heq, String.toList_ofList]
  all_goals cases h

theorem eq_short_value (h : ofArgument argument = .short letter (some value)) :
    argument = String.ofList ('-' :: letter :: '=' :: value.toList) ∨
      argument = String.ofList ('-' :: letter :: value.toList) ∧ value ≠ "" ∧
        value.toList.head? ≠ some '=' := by
  rw [ofArgument.eq_def] at h
  split at h
  case h_4 heq =>
    cases h
    left
    apply String.toList_inj.mp
    rw [heq, String.toList_ofList, String.toList_ofList]
  case h_5 =>
    cases h
    rename_i text hnil hequals _ _ heq
    right
    rw [String.toList_ofList]
    refine ⟨String.toList_inj.mp (heq.trans String.toList_ofList.symm), ?_, ?_⟩
    · intro hempty
      exact hnil (by simpa using hempty)
    · intro hhead
      cases text with
      | nil => cases hhead
      | cons first rest =>
        cases hhead
        exact hequals rest rfl
  all_goals cases h

end Shape

namespace Flag

variable {flag : Flag} {value : String} {letter : Char}

theorem equals_not_mem_long (flag : Flag) : '=' ∉ flag.long.toList := by
  cases flag <;> decide

theorem ofArgument_long (flag : Flag) :
    Shape.ofArgument ("--" ++ flag.long) = .long flag.long none := by
  cases flag <;> decide

theorem ofArgument_long_value (flag : Flag) (value : String) :
    Shape.ofArgument ("--" ++ flag.long ++ "=" ++ value) = .long flag.long (some value) := by
  have htext : ("--" ++ flag.long ++ "=" ++ value).toList =
      '-' :: '-' :: (flag.long.toList ++ '=' :: value.toList) := by
    simp
  have hne : flag.long.toList ++ '=' :: value.toList ≠ [] := by simp
  rw [Shape.ofArgument_of_toList htext hne, Shape.splitValue_append flag.equals_not_mem_long,
    String.ofList_toList]

theorem eq_format_of_short (htakes : flag.takesValue = true) (hletter : flag.short? = some letter) :
    flag = .format ∧ letter = 'f' := by
  cases flag <;> simp_all [takesValue, short?, eq_comm]

theorem find?_long {command : Command} (h : flag ∈ command.flags) :
    command.flags.find? (·.long = flag.long) = some flag := by
  cases command <;> cases flag <;> first | decide | exact absurd h (by decide)

theorem find?_short {command : Command} (h : flag ∈ command.flags)
    (hletter : flag.short? = some letter) :
    command.flags.find? (·.short? = some letter) = some flag := by
  cases command <;> cases flag <;> cases hletter <;> first | decide | exact absurd h (by decide)

end Flag

end ScopeCheck
