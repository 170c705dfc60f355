import Mathlib.Data.List.DropRight
import ScopeCheck.Files.Path

namespace ScopeCheck.Path

/-- The slash or the dot that a path starts with, or a name between slashes. -/
inductive Component where
  | root
  | here
  | name (part : List Char)
  deriving DecidableEq, Repr

/-- The names among the parts between slashes. An empty part and a dot are none. -/
def names (parts : List (List Char)) : List Component :=
  (parts.filter fun part => part ≠ [] ∧ part ≠ ['.']).map .name

/-- What stands in front of the names. A slash there has an empty part before it. -/
def lead : List (List Char) → List Component
  | [] :: _ :: _ => [.root]
  | ['.'] :: _ => [.here]
  | _ => []

def components (path : Path) : List Component :=
  let parts := path.text.toList.splitOn '/'
  lead parts ++ names parts

/-! ### Parts and text -/

theorem split_cons (c : Char) (text : List Char) :
    split (c :: text) = if c = '/' then [] :: split text
      else match split text with
        | [] => [[c]]
        | part :: parts => (c :: part) :: parts := rfl

theorem split_eq (text : List Char) : split text = text.splitOn '/' := by
  induction text with
  | nil => rfl
  | cons c text ih =>
    obtain ⟨part, parts, hparts⟩ := List.exists_cons_of_ne_nil (List.splitOn_ne_nil '/' text)
    rw [split_cons, ih, List.splitOn_cons_eq_if_modifyHead, hparts]
    simp only [beq_iff_eq, List.modifyHead_cons]

theorem joinParts_eq (parts : List (List Char)) : joinParts parts = ['/'].intercalate parts := by
  induction parts with
  | nil => rfl
  | cons part parts ih =>
    cases parts with
    | nil => simp [joinParts]
    | cons next parts => simp [joinParts, ih, List.intercalate_cons_cons]

theorem not_mem_of_mem_splitOn {text part : List Char} (h : part ∈ text.splitOn '/') :
    '/' ∉ part := by
  induction text generalizing part with
  | nil => simp_all
  | cons c text ih =>
    rw [List.splitOn_cons_eq_if_modifyHead] at h
    split at h
    · rcases List.mem_cons.mp h with rfl | h
      · exact List.not_mem_nil
      · exact ih h
    · rename_i hc
      obtain ⟨first, parts, hparts⟩ := List.exists_cons_of_ne_nil (List.splitOn_ne_nil '/' text)
      rw [hparts] at ih h
      rcases List.mem_cons.mp h with rfl | h
      · have hfirst := ih List.mem_cons_self
        have hne : '/' ≠ c := fun heq => hc (by simp [← heq])
        exact fun hmem => (List.mem_cons.mp hmem).elim hne hfirst
      · exact ih (List.mem_cons_of_mem _ h)

/-- Parts are found again in the text that joins them. -/
theorem splitOn_joinParts {text : List Char} {parts : List (List Char)} (hne : parts ≠ [])
    (h : parts <+: text.splitOn '/') : (joinParts parts).splitOn '/' = parts := by
  rw [joinParts_eq]
  exact List.splitOn_intercalate '/' (fun part hpart => not_mem_of_mem_splitOn (h.mem hpart)) hne

@[simp]
theorem splitOn_cons_slash (text : List Char) :
    ('/' :: text).splitOn '/' = [] :: text.splitOn '/' := by
  simp [List.splitOn_cons_eq_if_modifyHead]

theorem exists_splitOn_concat (text : List Char) {c : Char} (hc : c ≠ '/') :
    ∃ before last, text.splitOn '/' = before ++ [last] ∧
      (text ++ [c]).splitOn '/' = before ++ [last ++ [c]] := by
  induction text with
  | nil => exact ⟨[], [], rfl, by simp [List.splitOn_cons_eq_if_modifyHead, hc]⟩
  | cons d text ih =>
    obtain ⟨before, last, htext, hconcat⟩ := ih
    rw [List.cons_append, List.splitOn_cons_eq_if_modifyHead, List.splitOn_cons_eq_if_modifyHead,
      htext, hconcat]
    by_cases hd : d = '/'
    · exact ⟨[] :: before, last, by simp [hd], by simp [hd]⟩
    · cases before with
      | nil => exact ⟨[], d :: last, by simp [hd], by simp [hd]⟩
      | cons first before => exact ⟨(d :: first) :: before, last, by simp [hd], by simp [hd]⟩

@[simp]
theorem names_nil : names [] = [] := rfl

@[simp]
theorem names_append (parts more : List (List Char)) :
    names (parts ++ more) = names parts ++ names more := by
  rw [names, List.filter_append, List.map_append, names, names]

theorem names_cons_idle {part : List Char} (h : isIdle part) (parts : List (List Char)) :
    names (part :: parts) = names parts := by
  simp only [isIdle, Bool.or_eq_true, decide_eq_true_eq] at h
  rcases h with rfl | rfl <;> rfl

theorem names_singleton {part : List Char} (h : ¬ isIdle part) : names [part] = [.name part] := by
  simp only [isIdle, Bool.or_eq_true, decide_eq_true_eq, not_or] at h
  simp [names, h]

theorem trimIdle_eq (parts : List (List Char)) : trimIdle parts = parts.rdropWhile isIdle := rfl

theorem trimIdle_isPrefix (parts : List (List Char)) : trimIdle parts <+: parts :=
  List.rdropWhile_prefix isIdle parts

@[simp]
theorem names_trimIdle (parts : List (List Char)) : names (trimIdle parts) = names parts := by
  induction parts using List.reverseRecOn with
  | nil => rfl
  | append_singleton parts part ih =>
    rw [trimIdle_eq, List.rdropWhile_concat]
    split
    · rename_i hidle
      rw [← trimIdle_eq, ih, names_append, names_cons_idle hidle, names_nil, List.append_nil]
    · rfl

theorem not_isIdle_of_getLast?_trimIdle (parts : List (List Char)) :
    ∀ last ∈ (trimIdle parts).getLast?, ¬ isIdle last := by
  intro last hlast
  obtain ⟨hne, rfl⟩ := List.mem_getLast?_eq_getLast hlast
  exact List.rdropWhile_last_not isIdle _ hne

/-! ### The start of a path -/

theorem lead_cons_eq_nil {part : List Char} {parts : List (List Char)}
    (hroot : part = [] → parts = []) (hhere : part ≠ ['.']) : lead (part :: parts) = [] := by
  rw [lead.eq_def]
  split
  · rename_i heq
    cases heq
    cases hroot rfl
  · rename_i heq
    cases heq
    exact absurd rfl hhere
  · rfl

theorem lead_eq_nil_of_append {parts more : List (List Char)} (h : lead (parts ++ more) = []) :
    lead parts = [] := by
  cases parts with
  | nil => rfl
  | cons part parts =>
    refine lead_cons_eq_nil ?_ ?_
    · rintro rfl
      cases parts with
      | nil => rfl
      | cons => cases h
    · rintro rfl
      cases h

theorem base_cases (text : List Char) :
    (∃ rest, text = '/' :: rest ∧ base text = ['/']) ∨
      (text = ['.'] ∧ base text = ['.']) ∨
      (∃ rest, text = '.' :: '/' :: rest ∧ base text = ['.']) ∨
      (base text = [] ∧ lead (text.splitOn '/') = []) := by
  rw [base.eq_def]
  split
  · exact .inl ⟨_, rfl, rfl⟩
  · exact .inr (.inl ⟨rfl, rfl⟩)
  · exact .inr (.inr (.inl ⟨_, rfl, rfl⟩))
  · rename_i hroot hdot hhere
    refine .inr (.inr (.inr ⟨rfl, ?_⟩))
    have htext : joinParts (text.splitOn '/') = text := by
      rw [joinParts_eq, List.intercalate_splitOn]
    obtain ⟨part, parts, hparts⟩ := List.exists_cons_of_ne_nil (List.splitOn_ne_nil '/' text)
    rw [hparts] at htext ⊢
    refine lead_cons_eq_nil ?_ ?_
    · rintro rfl
      cases parts with
      | nil => rfl
      | cons next parts => exact (hroot _ htext.symm).elim
    · rintro rfl
      cases parts with
      | nil => exact hdot htext.symm
      | cons next parts => exact hhere _ htext.symm

@[simp]
theorem lead_root (text : List Char) : lead ([] :: text.splitOn '/') = [.root] := by
  obtain ⟨part, parts, hparts⟩ := List.exists_cons_of_ne_nil (List.splitOn_ne_nil '/' text)
  rw [hparts, lead]

theorem splitOn_here (text : List Char) :
    ('.' :: '/' :: text).splitOn '/' = ['.'] :: text.splitOn '/' := by
  simp [List.splitOn_cons_eq_if_modifyHead]

theorem names_drop_base (text : List Char) :
    names ((text.drop (base text).length).splitOn '/') = names (text.splitOn '/') := by
  rcases base_cases text with ⟨rest, rfl, hbase⟩ | ⟨rfl, hbase⟩ | ⟨rest, rfl, hbase⟩ | ⟨hbase, -⟩
  · rw [hbase, splitOn_cons_slash, names_cons_idle rfl]
    rfl
  · rfl
  · rw [hbase, splitOn_here, names_cons_idle rfl]
    change names (('/' :: rest).splitOn '/') = _
    rw [splitOn_cons_slash, names_cons_idle rfl]
  · rw [hbase]
    rfl

theorem names_splitOn_joinParts {text : List Char} {parts : List (List Char)}
    (h : parts <+: text.splitOn '/') : names ((joinParts parts).splitOn '/') = names parts := by
  by_cases hne : parts = []
  · subst hne
    rfl
  · rw [splitOn_joinParts hne h]

theorem splitOn_base_append {text : List Char} {parts : List (List Char)}
    (h : parts <+: (text.drop (base text).length).splitOn '/')
    (hlast : ∀ last ∈ parts.getLast?, ¬ isIdle last) :
    lead ((base text ++ joinParts parts).splitOn '/') = lead (text.splitOn '/') ∧
      names ((base text ++ joinParts parts).splitOn '/') = names parts ∧
      (parts ≠ [] → ((base text ++ joinParts parts).splitOn '/').getLast? = parts.getLast?) := by
  rcases base_cases text with ⟨rest, rfl, hbase⟩ | ⟨rfl, hbase⟩ | ⟨rest, rfl, hbase⟩ |
    ⟨hbase, hlead⟩
  · rw [hbase, List.cons_append, List.nil_append, splitOn_cons_slash, splitOn_cons_slash, lead_root,
      lead_root, names_cons_idle rfl, names_splitOn_joinParts h]
    refine ⟨rfl, rfl, fun hne => ?_⟩
    rw [splitOn_joinParts hne h, List.getLast?_cons_of_ne_nil hne]
  · rw [hbase] at h ⊢
    obtain rfl : parts = [] := by
      rcases List.prefix_cons_iff.mp h with rfl | ⟨tail, rfl, htail⟩
      · rfl
      · rw [List.prefix_nil.mp htail] at hlast
        exact absurd rfl (hlast [] rfl)
    exact ⟨rfl, rfl, fun hne => absurd rfl hne⟩
  · rw [hbase] at h ⊢
    change parts <+: ('/' :: rest).splitOn '/' at h
    rw [splitOn_cons_slash] at h
    rw [splitOn_here]
    rcases List.prefix_cons_iff.mp h with rfl | ⟨parts, rfl, hparts⟩
    · exact ⟨rfl, rfl, fun hne => absurd rfl hne⟩
    · cases parts with
      | nil => exact absurd rfl (hlast [] rfl)
      | cons part parts =>
        have hdot : isIdle ['.'] := rfl
        have hempty : isIdle [] := rfl
        have hjoin : ['.'] ++ joinParts ([] :: part :: parts) =
          '.' :: '/' :: joinParts (part :: parts) := rfl
        rw [hjoin, splitOn_here, splitOn_joinParts (List.cons_ne_nil _ _) hparts,
          names_cons_idle hdot, names_cons_idle hempty]
        exact ⟨rfl, rfl, fun _ => rfl⟩
  · rw [hbase] at h ⊢
    rw [List.nil_append, names_splitOn_joinParts h, hlead]
    by_cases hne : parts = []
    · subst hne
      exact ⟨rfl, rfl, fun hne => absurd rfl hne⟩
    · rw [splitOn_joinParts hne h]
      refine ⟨?_, rfl, fun _ => rfl⟩
      obtain ⟨more, hmore⟩ := h
      change parts ++ more = text.splitOn '/' at hmore
      rw [← hmore] at hlead
      exact lead_eq_nil_of_append hlead

/-! ### How much of a text is in names -/

def Component.chars : Component → List Char
  | name part => part
  | _ => []

/-- The number of characters in the names of a text. -/
def weight (text : List Char) : Nat :=
  ((names (text.splitOn '/')).flatMap Component.chars).length

theorem length_chars_components (path : Path) :
    (path.components.flatMap Component.chars).length = weight path.text.toList := by
  have hlead : ∀ parts, (lead parts).flatMap Component.chars = [] := by
    intro parts
    rw [lead.eq_def]
    split <;> rfl
  rw [components, List.flatMap_append, hlead, List.nil_append, weight]

theorem weight_concat_slash (text : List Char) : weight (text ++ ['/']) = weight text := by
  rw [weight, List.splitOn_append_cons_self, names_append]
  simp [weight, names]

theorem weight_concat (text : List Char) (c : Char) :
    weight text ≤ weight (text ++ [c]) ∧
      ((∀ last ∈ ((text ++ [c]).splitOn '/').getLast?, ¬ isIdle last) →
        weight text < weight (text ++ [c])) := by
  by_cases hc : c = '/'
  · subst hc
    refine ⟨(weight_concat_slash text).ge, fun h => ?_⟩
    exact absurd rfl (h [] (by simp [List.splitOn_append_cons_self]))
  · obtain ⟨before, last, htext, hconcat⟩ := exists_splitOn_concat text hc
    have hsize : ∀ part, ((names [part]).flatMap Component.chars).length =
        if isIdle part then 0 else part.length := by
      intro part
      split
      · rename_i hidle
        rw [names_cons_idle hidle]
        rfl
      · rename_i hidle
        rw [names_singleton hidle]
        simp [Component.chars]
    simp only [weight, htext, hconcat, names_append, List.flatMap_append, List.length_append,
      hsize, List.length_singleton]
    by_cases hidle : isIdle (last ++ [c])
    · obtain rfl : last = [] := by
        cases last with
        | nil => rfl
        | cons => simp [isIdle] at hidle
      exact ⟨by simp [isIdle], fun h => absurd hidle (h _ (by simp))⟩
    · rw [if_neg hidle]
      refine ⟨?_, fun _ => ?_⟩ <;> split <;> omega

theorem weight_le_of_prefix {text other : List Char} (h : other <+: text) :
    weight other ≤ weight text := by
  obtain ⟨more, rfl⟩ := h
  induction more using List.reverseRecOn with
  | nil => rw [List.append_nil]
  | append_singleton more c ih =>
    rw [← List.append_assoc]
    exact ih.trans (weight_concat _ c).1

theorem weight_lt_of_prefix {text other : List Char} (h : other <+: text) (hne : other ≠ text)
    (hlast : ∀ last ∈ (text.splitOn '/').getLast?, ¬ isIdle last) : weight other < weight text := by
  obtain ⟨more, rfl⟩ := h
  obtain ⟨more, c, rfl⟩ : ∃ most c, more = most ++ [c] :=
    (List.eq_nil_or_concat' more).resolve_left (by simpa using hne)
  rw [← List.append_assoc] at hlast ⊢
  have hle := weight_le_of_prefix (List.prefix_append other more)
  exact hle.trans_lt ((weight_concat _ c).2 hlast)

/-! ### Components of texts and paths -/

theorem components_ofList (text : List Char) :
    components ⟨String.ofList text⟩ = lead (text.splitOn '/') ++ names (text.splitOn '/') := by
  rw [components, String.toList_ofList]

theorem components_base_append {text : List Char} {parts : List (List Char)}
    (h : parts <+: (text.drop (base text).length).splitOn '/')
    (hlast : ∀ last ∈ parts.getLast?, ¬ isIdle last) :
    components ⟨String.ofList (base text ++ joinParts parts)⟩ =
      lead (text.splitOn '/') ++ names parts := by
  obtain ⟨hlead, hnames, -⟩ := splitOn_base_append h hlast
  rw [components_ofList, hlead, hnames]

theorem components_eq (path : Path) :
    path.components = lead (path.text.toList.splitOn '/') ++
      names (trimIdle (split (path.text.toList.drop (base path.text.toList).length))) := by
  rw [components, names_trimIdle, split_eq, names_drop_base]

theorem components_eq_nil_iff {path : Path} : path.components = [] ↔ path.text = "" := by
  constructor
  · intro h
    obtain ⟨hlead, hnames⟩ := List.append_eq_nil_iff.mp h
    have htext : joinParts (path.text.toList.splitOn '/') = path.text.toList := by
      rw [joinParts_eq, List.intercalate_splitOn]
    obtain ⟨part, parts, hparts⟩ :=
      List.exists_cons_of_ne_nil (List.splitOn_ne_nil '/' path.text.toList)
    rw [hparts] at hlead hnames htext
    have hidle : isIdle part := by
      by_contra hname
      have happend := names_append [part] parts
      rw [List.singleton_append, hnames, names_singleton hname] at happend
      cases happend
    simp only [isIdle, Bool.or_eq_true, decide_eq_true_eq] at hidle
    rcases hidle with rfl | rfl
    · cases parts with
      | nil => exact String.toList_eq_nil_iff.mp htext.symm
      | cons => cases hlead
    · cases hlead
  · intro h
    rw [components, h]
    rfl

theorem lead_append {parts : List (List Char)} (hne : parts ≠ []) (hempty : parts ≠ [[]])
    (more : List (List Char)) : lead (parts ++ more) = lead parts := by
  match parts with
  | [part] =>
    by_cases hdot : part = ['.']
    · rw [hdot]
      rfl
    · have hpart : part ≠ [] := fun heq => hempty (heq ▸ rfl)
      rw [List.cons_append, lead_cons_eq_nil (absurd · hpart) hdot,
        lead_cons_eq_nil (absurd · hpart) hdot]
  | [] :: _ :: _ => rfl
  | (c :: part) :: next :: parts =>
    by_cases hdot : c :: part = ['.']
    · rw [hdot]
      rfl
    · have hpart : c :: part ≠ [] := List.cons_ne_nil c part
      rw [List.cons_append, lead_cons_eq_nil (absurd · hpart) hdot,
        lead_cons_eq_nil (absurd · hpart) hdot]

/-- An entry of a directory has the components of the directory and its own name. -/
theorem components_join (directory : Path) {name : String} (hslash : '/' ∉ name.toList)
    (hname : ¬ isIdle name.toList) :
    (directory.join name).components = directory.components ++ [.name name.toList] := by
  have hparts : name.toList.splitOn '/' = [name.toList] := List.splitOn_eq_singleton hslash
  have hnames := names_singleton hname
  rw [join]
  split
  · rename_i hnone
    rw [List.getLast?_eq_none_iff] at hnone
    have hdot : name.toList ≠ ['.'] := fun heq => hname (by rw [heq]; rfl)
    rw [components, components, hnone, hparts, hnames, lead_cons_eq_nil (fun _ => rfl) hdot]
    rfl
  · rename_i hends
    obtain ⟨text, htext⟩ := List.getLast?_eq_some_iff.mp hends
    have hlead : lead (text.splitOn '/' ++ [name.toList]) = lead (text.splitOn '/' ++ [[]]) := by
      by_cases hempty : text.splitOn '/' = [[]]
      · rw [hempty]
        rfl
      · have hne := List.splitOn_ne_nil '/' text
        rw [lead_append hne hempty, lead_append hne hempty]
    have hidle : names [[]] = [] := rfl
    rw [components, components, String.toList_append, htext, List.append_assoc,
      List.singleton_append, List.splitOn_append_cons_self, List.splitOn_append_cons_self, hparts,
      List.splitOn_nil, hlead, names_append, names_append, hnames, hidle, List.append_nil,
      List.append_assoc]
  · rename_i c hother hends
    have hempty : directory.text.toList.splitOn '/' ≠ [[]] := by
      intro heq
      have htext : ['/'].intercalate (directory.text.toList.splitOn '/') =
        directory.text.toList := List.intercalate_splitOn '/'
      rw [heq] at htext
      rw [← htext] at hends
      cases hends
    have htext : (directory.text ++ "/" ++ name).toList =
        directory.text.toList ++ '/' :: name.toList := by simp
    rw [components, components, htext, List.splitOn_append_cons_self, hparts,
      lead_append (List.splitOn_ne_nil _ _) hempty, names_append, hnames, List.append_assoc]

end ScopeCheck.Path
