import ScopeCheck.Text.Style

namespace ScopeCheck.Text

/-- The lines of a text. What stands behind the last line end is not a line. -/
def lines (text : List Char) : List (List Char) := (text.splitOn '\n').dropLast

theorem lines_append_cons (before rest : List Char) :
    lines (before ++ '\n' :: rest) = before.splitOn '\n' ++ lines rest := by
  rw [lines, List.splitOn_append_cons_self,
    List.dropLast_append_of_ne_nil (List.splitOn_ne_nil _ _), lines]

theorem lines_cons {line : List Char} (h : '\n' ∉ line) (rest : List Char) :
    lines (line ++ '\n' :: rest) = line :: lines rest := by
  rw [lines_append_cons, List.splitOn_eq_singleton h, List.singleton_append]

/-- A text that does not break off within a line. -/
def EndsLine (text : List Char) : Prop := text = [] ∨ ∃ before, text = before ++ ['\n']

namespace EndsLine

variable {text rest : List Char}

theorem nil : EndsLine [] := .inl rfl

theorem line (text : List Char) : EndsLine (text ++ ['\n']) := .inr ⟨text, rfl⟩

theorem append (htext : EndsLine text) (hrest : EndsLine rest) : EndsLine (text ++ rest) := by
  obtain rfl | ⟨before, rfl⟩ := hrest
  · rwa [List.append_nil]
  · exact .inr ⟨text ++ before, (List.append_assoc ..).symm⟩

theorem flatMap {α : Type} {write : α → List Char} (h : ∀ a, EndsLine (write a)) (items : List α) :
    EndsLine (items.flatMap write) := by
  induction items with
  | nil => exact nil
  | cons item items ih => exact (h item).append ih

theorem lines_append (htext : EndsLine text) (rest : List Char) :
    lines (text ++ rest) = lines text ++ lines rest := by
  obtain rfl | ⟨before, rfl⟩ := htext
  · rfl
  · rw [List.append_assoc, List.singleton_append, lines_append_cons, lines_append_cons before [],
      List.append_assoc]
    rfl

end EndsLine

/-- A text without a line end. -/
def OneLine (text : String) : Prop := '\n' ∉ text.toList

instance (text : String) : Decidable (OneLine text) :=
  inferInstanceAs (Decidable ('\n' ∉ text.toList))

theorem oneLine_append {text rest : String} :
    OneLine (text ++ rest) ↔ OneLine text ∧ OneLine rest := by
  simp only [OneLine, String.toList_append, List.mem_append, not_or]

theorem oneLine_toString (n : Nat) : OneLine (toString n) := by
  intro hmem
  have hdigits : (toString n).toList = Nat.toDigits 10 n := String.toList_ofList
  rw [hdigits] at hmem
  exact absurd (Nat.isDigit_of_mem_toDigits (by decide) (by decide) hmem) (by decide)

theorem oneLine_intercalate {separator : String} {texts : List String} (h : OneLine separator)
    (htexts : ∀ text ∈ texts, OneLine text) : OneLine (separator.intercalate texts) := by
  induction texts with
  | nil => exact List.not_mem_nil
  | cons text texts ih =>
    have htext := htexts text List.mem_cons_self
    have hrest := ih fun other hother => htexts other (List.mem_cons_of_mem _ hother)
    cases texts with
    | nil => rwa [String.intercalate_singleton]
    | cons next texts =>
      rw [String.intercalate_cons_cons, oneLine_append, oneLine_append]
      exact ⟨⟨htext, h⟩, hrest⟩

theorem oneLine_paint {style : Style} {color : Bool} {text : String} :
    OneLine (style.paint color text) ↔ OneLine text := by
  have hparameters : OneLine style.parameters := by cases style <;> decide
  cases color with
  | false => rfl
  | true =>
    have hstart : OneLine "\x1b[" := by decide
    have hm : OneLine "m" := by decide
    have hend : OneLine "\x1b[0m" := by decide
    simp only [Style.paint, if_true, oneLine_append, hparameters, hstart, hm, hend, true_and,
      and_true]

theorem lines_flatMap {written : List String} (h : ∀ line ∈ written, OneLine line)
    (rest : List Char) :
    lines (written.flatMap (fun line => line.toList ++ ['\n']) ++ rest) =
      written.map String.toList ++ lines rest := by
  induction written with
  | nil => rfl
  | cons line written ih =>
    have hrest := ih fun line hline => h line (List.mem_cons_of_mem _ hline)
    rw [List.flatMap_cons, List.append_assoc, List.append_assoc, List.singleton_append,
      lines_cons (h line List.mem_cons_self), hrest, List.map_cons, List.cons_append]

/-- The last line of a text, which ends there. -/
def EndsWithLine (text line : String) : Prop :=
  OneLine line ∧ ∃ before, EndsLine before ∧ text.toList = before ++ (line.toList ++ ['\n'])

theorem EndsWithLine.unique {text line other : String} (h : EndsWithLine text line)
    (hother : EndsWithLine text other) : line = other := by
  have hlast : ∀ {line : String}, EndsWithLine text line →
      (lines text.toList).getLast? = some line.toList := by
    rintro line ⟨hline, before, hbefore, htext⟩
    rw [htext, hbefore.lines_append, lines_cons hline]
    exact List.getLast?_concat ..
  exact String.toList_inj.mp (Option.some.inj ((hlast h).symm.trans (hlast hother)))

end ScopeCheck.Text
