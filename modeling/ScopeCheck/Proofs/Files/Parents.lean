import ScopeCheck.Proofs.Files.Components

namespace ScopeCheck.Path

def AtTop (path : Path) : Prop := path.text = "" ∨ path.components = [.root]

/-- A path without its last component: the shortest start of its text that has all the others. -/
structure IsParent (parent path : Path) : Prop where
  below : ¬ path.AtTop
  components : parent.components = path.components.dropLast
  isStart : parent.text.toList <+: path.text.toList
  shortest : ∀ other : Path, other.text.toList <+: path.text.toList →
    other.components = parent.components → parent.text.length ≤ other.text.length

/-- A path, its parent, and so on up to the top. -/
inductive LeadsUp : Path → List Path → Prop
  | top {path : Path} (h : path.AtTop) : LeadsUp path [path]
  | up {path parent : Path} {rest : List Path} (h : parent.IsParent path)
    (hrest : LeadsUp parent rest) : LeadsUp path (path :: rest)

/-! ### The text of a parent -/

theorem joinParts_isPrefix {parts more : List (List Char)} (h : parts <+: more) :
    joinParts parts <+: joinParts more := by
  induction parts generalizing more with
  | nil => exact List.nil_prefix
  | cons part parts ih =>
    obtain ⟨rest, rfl⟩ := h
    cases parts with
    | nil =>
      cases rest with
      | nil => exact List.prefix_rfl
      | cons => exact List.prefix_append _ _
    | cons next parts =>
      have hrest := ih (List.prefix_append (next :: parts) rest)
      exact (List.prefix_append_right_inj part).mpr ((List.prefix_cons_inj '/').mpr hrest)

theorem base_append_isPrefix {text : List Char} {parts : List (List Char)}
    (h : parts <+: (text.drop (base text).length).splitOn '/') :
    base text ++ joinParts parts <+: text := by
  have htext : base text ++ text.drop (base text).length = text := by
    rcases base_cases text with ⟨rest, rfl, hbase⟩ | ⟨rfl, hbase⟩ | ⟨rest, rfl, hbase⟩ | ⟨hbase, -⟩
    all_goals
      rw [hbase]
      rfl
  have hjoin := joinParts_isPrefix h
  rw [joinParts_eq (List.splitOn _ _), List.intercalate_splitOn] at hjoin
  have happend := (List.prefix_append_right_inj (base text)).mpr hjoin
  rwa [htext] at happend

theorem shortest_base_append {text : List Char} {parts : List (List Char)}
    (h : parts <+: (text.drop (base text).length).splitOn '/')
    (hlast : ∀ last ∈ parts.getLast?, ¬ isIdle last) {other : Path}
    (hother : other.text.toList <+: text)
    (heq : other.components = components ⟨String.ofList (base text ++ joinParts parts)⟩) :
    (base text ++ joinParts parts).length ≤ other.text.toList.length := by
  by_contra! hlt
  have hstart := List.prefix_of_prefix_length_le hother (base_append_isPrefix h) hlt.le
  by_cases hne : parts = []
  · subst hne
    rw [components_base_append h hlast, names_nil, List.append_nil] at heq
    have hshort : (base text).length ≤ 1 := by
      rcases base_cases text with ⟨_, _, hbase⟩ | ⟨_, hbase⟩ | ⟨_, _, hbase⟩ | ⟨hbase, -⟩
      all_goals simp [hbase]
    have hempty : other.text.toList = [] := by
      apply List.eq_nil_of_length_eq_zero
      simp only [joinParts, List.append_nil] at hlt
      omega
    have hnone : other.components = [] := by
      rw [components, hempty]
      rfl
    rw [hnone] at heq
    rcases base_cases text with ⟨rest, rfl, -⟩ | ⟨rfl, -⟩ | ⟨rest, rfl, -⟩ | ⟨hbase, -⟩
    · rw [splitOn_cons_slash, lead_root] at heq
      cases heq
    · cases heq
    · rw [splitOn_here] at heq
      cases heq
    · rw [hbase] at hlt
      exact absurd hlt (Nat.not_lt_zero _)
  · -- Fewer characters are left for names, and the last part is one.
    have hweight := weight_lt_of_prefix hstart (fun heq => hlt.ne (congrArg List.length heq))
      (by rwa [(splitOn_base_append h hlast).2.2 hne])
    have hlength := congrArg (fun components => (components.flatMap Component.chars).length) heq
    simp only [length_chars_components, String.toList_ofList] at hlength
    exact hweight.ne hlength

/-! ### Parents -/

theorem isParent_base_append {path : Path} {parts : List (List Char)} {last : Component}
    (h : parts <+: (path.text.toList.drop (base path.text.toList).length).splitOn '/')
    (hlast : ∀ last ∈ parts.getLast?, ¬ isIdle last)
    (hcomponents : path.components = lead (path.text.toList.splitOn '/') ++ (names parts ++ [last]))
    (hroot : last ≠ .root) :
    IsParent ⟨String.ofList (base path.text.toList ++ joinParts parts)⟩ path where
  below htop := by
    rcases htop with htop | htop
    · rw [← components_eq_nil_iff, hcomponents] at htop
      simp at htop
    · have hend := congrArg List.getLast? htop
      rw [hcomponents, ← List.append_assoc, List.getLast?_concat] at hend
      exact hroot (Option.some.inj hend)
  components := by
    rw [components_base_append h hlast, hcomponents, ← List.append_assoc, List.dropLast_concat]
  isStart := by
    rw [String.toList_ofList]
    exact base_append_isPrefix h
  shortest other hother heq := by
    have hle := shortest_base_append h hlast hother heq
    rwa [String.length_ofList, ← String.length_toList]

theorem isParent_empty {path : Path} (h : path.components = [.here]) : IsParent ⟨""⟩ path where
  below htop := by
    rw [AtTop, ← components_eq_nil_iff, h] at htop
    simp at htop
  components := by
    rw [h]
    rfl
  isStart := List.nil_prefix
  shortest _ _ _ := Nat.zero_le _

theorem parent?_outcome (path : Path) :
    (∃ parent, path.parent? = some parent ∧ parent.IsParent path) ∨
      path.parent? = none ∧ path.AtTop := by
  have hcomponents := path.components_eq
  have hprefix := trimIdle_isPrefix (split (path.text.toList.drop (base path.text.toList).length))
  have hends := not_isIdle_of_getLast?_trimIdle
    (split (path.text.toList.drop (base path.text.toList).length))
  rw [parent?]
  split
  · rename_i hnone
    rw [hnone, names_nil, List.append_nil] at hcomponents
    rcases base_cases path.text.toList with ⟨rest, htext, hbase⟩ | ⟨htext, hbase⟩ |
      ⟨rest, htext, hbase⟩ | ⟨hbase, hlead⟩
    · rw [htext, splitOn_cons_slash, lead_root] at hcomponents
      rw [hbase]
      exact .inr ⟨rfl, .inr hcomponents⟩
    · rw [htext] at hcomponents
      rw [hbase]
      exact .inl ⟨_, rfl, isParent_empty hcomponents⟩
    · rw [htext, splitOn_here] at hcomponents
      rw [hbase]
      exact .inl ⟨_, rfl, isParent_empty hcomponents⟩
    · rw [hbase]
      exact .inr ⟨rfl, .inl (components_eq_nil_iff.mp (hcomponents.trans hlead))⟩
  · rename_i hne
    obtain ⟨front, last, hparts⟩ := (List.eq_nil_or_concat' _).resolve_left hne
    rw [hparts] at hcomponents hprefix hends ⊢
    rw [List.dropLast_concat]
    have hlast : ¬ isIdle last := hends last List.getLast?_concat
    have hnames : path.components = lead (path.text.toList.splitOn '/') ++
        (names (trimIdle front) ++ [.name last]) := by
      rw [hcomponents, names_append, names_singleton hlast, names_trimIdle]
    rw [split_eq] at hprefix
    have hstart := (trimIdle_isPrefix front).trans ((List.prefix_append front [last]).trans hprefix)
    exact .inl ⟨_, rfl,
      isParent_base_append hstart (not_isIdle_of_getLast?_trimIdle front) hnames nofun⟩

theorem parent?_eq_none_iff {path : Path} : path.parent? = none ↔ path.AtTop := by
  rcases path.parent?_outcome with ⟨parent, hparent, hisParent⟩ | ⟨hnone, htop⟩
  · simp [hparent, hisParent.below]
  · simp [hnone, htop]

theorem IsParent.unique {path parent other : Path} (h : parent.IsParent path)
    (hother : other.IsParent path) : parent = other := by
  have heq := h.components.trans hother.components.symm
  have hle := h.shortest other hother.isStart heq.symm
  have hge := hother.shortest parent h.isStart heq
  have hlength : parent.text.toList.length = other.text.toList.length := by
    rw [String.length_toList, String.length_toList]
    omega
  have hstart := List.prefix_of_prefix_length_le h.isStart hother.isStart hlength.le
  have htext := String.toList_inj.mp (hstart.eq_of_length hlength)
  cases parent
  cases other
  exact congrArg Path.mk htext

theorem parent?_eq_some_iff {path parent : Path} :
    path.parent? = some parent ↔ parent.IsParent path := by
  rcases path.parent?_outcome with ⟨found, hfound, hisParent⟩ | ⟨hnone, htop⟩
  · rw [hfound, Option.some_inj]
    constructor
    · rintro rfl
      exact hisParent
    · exact hisParent.unique
  · constructor
    · intro h
      cases hnone.symm.trans h
    · intro h
      exact absurd htop h.below

/-! ### Going up -/

theorem IsParent.length_lt {path parent : Path} (h : parent.IsParent path) :
    parent.text.length < path.text.length := by
  have hle := h.isStart.length_le
  rw [String.length_toList, String.length_toList] at hle
  refine lt_of_le_of_ne hle fun hlength => ?_
  -- A parent as long as the path is the path, but it has a component less.
  have heq := h.isStart.eq_of_length (by rw [String.length_toList, String.length_toList, hlength])
  have hcomponents := h.components
  rw [Path.components, heq, ← Path.components] at hcomponents
  have hnil : path.components = [] := by
    by_contra hne
    have hlen := congrArg List.length hcomponents
    rw [List.length_dropLast] at hlen
    have hpos := List.length_pos_iff.mpr hne
    omega
  exact h.below (.inl (components_eq_nil_iff.mp hnil))

theorem leadsUp_climbUpTo {fuel : Nat} {path : Path} (h : path.text.length < fuel) :
    path.LeadsUp (climbUpTo fuel path) := by
  induction fuel generalizing path with
  | zero => exact absurd h (Nat.not_lt_zero _)
  | succ fuel ih =>
    rw [climbUpTo]
    split
    · rename_i hnone
      exact .top (parent?_eq_none_iff.mp hnone)
    · rename_i parent hparent
      have hisParent := parent?_eq_some_iff.mp hparent
      exact .up hisParent (ih (by have := hisParent.length_lt; omega))

/-- Going up does not stop before the top. -/
theorem leadsUp_climb (path : Path) : path.LeadsUp path.climb :=
  leadsUp_climbUpTo (Nat.lt_succ_self _)

theorem LeadsUp.unique {path : Path} {paths others : List Path} (h : path.LeadsUp paths)
    (hother : path.LeadsUp others) : paths = others := by
  induction h generalizing others with
  | top htop =>
    cases hother with
    | top => rfl
    | up hparent => exact absurd htop hparent.below
  | up hparent _ ih =>
    cases hother with
    | top htop => exact absurd htop hparent.below
    | up hother hrest => rw [ih (hparent.unique hother ▸ hrest)]

end ScopeCheck.Path
