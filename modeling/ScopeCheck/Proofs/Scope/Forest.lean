import ScopeCheck.Proofs.Scope.Children

namespace ScopeCheck

/-- What a scope is created with. -/
structure NewScope where
  kind : ScopeKind
  name : String
  parent : Option ScopeId
  deriving DecidableEq, Repr

def Scope.asNew (scope : Scope) : NewScope := ⟨scope.kind, scope.name, scope.parent⟩

namespace ScopeTable

variable {table later : ScopeTable} {new : NewScope} {added : List NewScope} {id outer : Nat}

/-- Scopes are created one after the other. Each stands inside none or inside one that is there. -/
inductive Creates : ScopeTable → List NewScope → ScopeTable → Prop where
  | nil (table : ScopeTable) : Creates table [] table
  | cons {table later : ScopeTable} {new : NewScope} {added : List NewScope} :
    (∀ outer : Nat, new.parent = some outer → outer < table.size) →
      Creates (table.create new.kind new.name new.parent) added later →
        Creates table (new :: added) later

/-- The way outward from a scope: it goes from parent to parent and ends with a scope that has
none. -/
inductive WayOut (table : ScopeTable) : ScopeId → List ScopeId → Prop where
  | last {id : ScopeId} {scope : Scope} :
    table.get? id = some scope → scope.parent = none → WayOut table id [id]
  | next {id outer : ScopeId} {scope : Scope} {path : List ScopeId} :
    table.get? id = some scope → scope.parent = some outer → WayOut table outer path →
      WayOut table id (id :: path)

theorem WayOut.unique {path other : List ScopeId} (h : table.WayOut id path)
    (hother : table.WayOut id other) : path = other := by
  induction h generalizing other with
  | last hscope hnone =>
    cases hother with
    | last => rfl
    | next hscope' hsome =>
      cases hscope.symm.trans hscope'
      cases hnone.symm.trans hsome
  | next hscope hsome _ ih =>
    cases hother with
    | last hscope' hnone =>
      cases hscope.symm.trans hscope'
      cases hnone.symm.trans hsome
    | next hscope' hsome' hrest =>
      cases hscope.symm.trans hscope'
      cases hsome.symm.trans hsome'
      rw [ih hrest]

theorem WayOut.exists_last {path : List ScopeId} (h : table.WayOut id path) :
    ∃ last scope, path.getLast? = some last ∧ table.get? last = some scope ∧
      scope.parent = none := by
  induction h with
  | last hscope hnone => exact ⟨_, _, rfl, hscope, hnone⟩
  | next _ _ hrest ih =>
    obtain ⟨last, scope, hlast, hscope, hnone⟩ := ih
    exact ⟨last, scope, by rw [List.getLast?_cons, hlast, Option.getD_some], hscope, hnone⟩

theorem exists_get? (hid : id < table.size) : ∃ scope, table.get? id = some scope :=
  ⟨_, Array.getElem?_eq_getElem hid⟩

theorem ancestors_eq_nil (hid : table.size ≤ id) : table.ancestors id = [] := by
  rw [ancestors]
  cases table.size with
  | zero => rfl
  | succ => rw [ancestorsUpTo, get?_eq_none_iff.mpr hid]

/-- Going outward, all scopes on the way are met before the count of scopes is used up. -/
theorem wayOut_ancestors (h : table.Ordered) (hid : id < table.size) :
    table.WayOut id (table.ancestors id) := by
  induction id using Nat.strongRecOn with
  | ind id ih =>
    obtain ⟨scope, hscope⟩ := exists_get? hid
    have hparent : table.parent id = scope.parent := by rw [ScopeTable.parent, hscope]; rfl
    rw [ancestors_eq h hid, hparent]
    cases hnext : scope.parent with
    | none => exact .last hscope hnext
    | some outer =>
      have hlt := h id outer (hparent.trans hnext)
      exact .next hscope hnext (ih outer hlt (Nat.lt_trans hlt hid))

theorem WayOut.lt_size {path : List ScopeId} (h : table.WayOut id path) : id < table.size := by
  refine Nat.lt_of_not_le fun hle => ?_
  have hnone := get?_eq_none_iff.mpr hle
  cases h with
  | last hscope => cases hnone.symm.trans hscope
  | next hscope => cases hnone.symm.trans hscope

theorem WayOut.ancestors_eq {path : List ScopeId} (h : table.WayOut id path)
    (hordered : table.Ordered) : table.ancestors id = path :=
  (wayOut_ancestors hordered h.lt_size).unique h

theorem head?_ancestors (h : table.Ordered) (hid : id < table.size) :
    (table.ancestors id).head? = some id := by
  rw [ancestors_eq h hid, List.head?_cons]

/-- The way outward from a scope around another is the end of the other's. -/
theorem ancestors_suffix (h : table.Ordered) (houter : outer ∈ table.ancestors id) :
    table.ancestors outer <:+ table.ancestors id := by
  induction id using Nat.strongRecOn with
  | ind id ih =>
    by_cases hid : id < table.size
    · rw [ancestors_eq h hid] at houter
      rcases List.mem_cons.mp houter with rfl | houter
      · exact List.suffix_refl _
      · rw [ancestors_eq h hid]
        cases hparent : table.parent id with
        | none =>
          rw [hparent] at houter
          cases houter
        | some next =>
          rw [hparent] at houter
          exact (ih next (h id next hparent) houter).trans (List.suffix_cons _ _)
    · rw [ancestors_eq_nil (Nat.le_of_not_lt hid)] at houter
      cases houter

theorem lt_size_of_mem_ancestors (h : table.Ordered) (houter : outer ∈ table.ancestors id) :
    id < table.size ∧ outer < table.size := by
  have hid : id < table.size := by
    refine Nat.lt_of_not_le fun hle => ?_
    rw [ancestors_eq_nil hle] at houter
    cases houter
  exact ⟨hid, Nat.lt_of_le_of_lt (le_of_mem_ancestors h hid houter) hid⟩

theorem isDescendantOf_iff : table.isDescendantOf id outer ↔ outer ∈ table.ancestors id :=
  List.contains_iff_mem

theorem isDescendantOf_self (h : table.Ordered) (hid : id < table.size) :
    table.isDescendantOf id id := by
  rw [isDescendantOf_iff, ancestors_eq h hid]
  exact List.mem_cons_self

theorem isDescendantOf_trans {outermost : Nat} (h : table.Ordered)
    (houter : table.isDescendantOf id outer) (houtermost : table.isDescendantOf outer outermost) :
    table.isDescendantOf id outermost := by
  rw [isDescendantOf_iff] at houter houtermost ⊢
  exact (ancestors_suffix h houter).subset houtermost

theorem isDescendantOf_antisymm (h : table.Ordered) (houter : table.isDescendantOf id outer)
    (hinner : table.isDescendantOf outer id) : id = outer := by
  rw [isDescendantOf_iff] at houter hinner
  obtain ⟨hid, hlt⟩ := lt_size_of_mem_ancestors h houter
  exact Nat.le_antisymm (le_of_mem_ancestors h hlt hinner) (le_of_mem_ancestors h hid houter)

/-- Of two scopes around a third, one stands inside the other. -/
theorem isDescendantOf_total {other : Nat} (h : table.Ordered) (houter : outer ∈ table.ancestors id)
    (hother : other ∈ table.ancestors id) :
    table.isDescendantOf outer other ∨ table.isDescendantOf other outer := by
  have hself : ∀ {scope : Nat}, scope ∈ table.ancestors id → scope ∈ table.ancestors scope :=
    fun hscope =>
      isDescendantOf_iff.mp (isDescendantOf_self h (lt_size_of_mem_ancestors h hscope).2)
  rw [isDescendantOf_iff, isDescendantOf_iff]
  rcases List.suffix_or_suffix_of_suffix (ancestors_suffix h houter) (ancestors_suffix h hother)
    with hsuffix | hsuffix
  · exact .inr (hsuffix.subset (hself houter))
  · exact .inl (hsuffix.subset (hself hother))

theorem lt_size_of_parent_eq (h : table.parent id = some outer) : id < table.size := by
  refine Nat.lt_of_not_le fun hle => ?_
  rw [ScopeTable.parent, get?_eq_none_iff.mpr hle] at h
  cases h

theorem count_children (h : table.Linked) (outer id : Nat) :
    (table.children outer).count id = if table.parent id = some outer then 1 else 0 := by
  have hmem : id ∈ (List.range table.size).filter (fun child => table.parent child = some outer) ↔
      table.parent id = some outer := by
    rw [List.mem_filter, List.mem_range, decide_eq_true_eq]
    exact and_iff_right_of_imp lt_size_of_parent_eq
  rw [h outer, List.Nodup.count (List.nodup_range.filter _)]
  simp only [hmem]

theorem pairwise_children (h : table.Linked) (outer : Nat) :
    (table.children outer).Pairwise (· < ·) := by
  rw [h outer]
  exact List.pairwise_lt_range.filter _

/-- Parents and children say the same, and scopes are ordered by which stands inside which. -/
structure IsForest (table : ScopeTable) : Prop where
  parent_lt : ∀ id outer : Nat, table.parent id = some outer → outer < id
  wayOut : ∀ id : Nat, id < table.size → table.WayOut id (table.ancestors id)
  first : ∀ id : Nat, id < table.size → (table.ancestors id).head? = some id
  nodup : ∀ id : Nat, id < table.size → (table.ancestors id).Nodup
  last : ∀ id : Nat, id < table.size → ∃ last scope, (table.ancestors id).getLast? = some last ∧
    table.get? last = some scope ∧ scope.parent = none
  children : ∀ outer id : Nat,
    (table.children outer).count id = if table.parent id = some outer then 1 else 0
  inOrder : ∀ outer : Nat, (table.children outer).Pairwise (· < ·)
  refl : ∀ id : Nat, id < table.size → table.isDescendantOf id id
  trans : ∀ id outer outermost : Nat, table.isDescendantOf id outer →
    table.isDescendantOf outer outermost → table.isDescendantOf id outermost
  antisymm : ∀ id outer : Nat, table.isDescendantOf id outer → table.isDescendantOf outer id →
    id = outer
  total : ∀ id outer other : Nat, outer ∈ table.ancestors id → other ∈ table.ancestors id →
    table.isDescendantOf outer other ∨ table.isDescendantOf other outer

theorem isForest (h : table.Ordered) (hlinked : table.Linked) : table.IsForest where
  parent_lt := h
  wayOut _ hid := wayOut_ancestors h hid
  first _ hid := head?_ancestors h hid
  nodup _ hid := (pairwise_ancestors h hid).imp Nat.ne_of_gt
  last _ hid := (wayOut_ancestors h hid).exists_last
  children := count_children hlinked
  inOrder := pairwise_children hlinked
  refl _ hid := isDescendantOf_self h hid
  trans _ _ _ := isDescendantOf_trans h
  antisymm _ _ := isDescendantOf_antisymm h
  total _ _ _ := isDescendantOf_total h

/-- The scopes that are there stay as they were created, with the same scopes around them. -/
structure Keeps (table later : ScopeTable) : Prop where
  asNew : ∀ id : Nat, id < table.size →
    (later.get? id).map Scope.asNew = (table.get? id).map Scope.asNew
  ancestors : ∀ id : Nat, id < table.size → later.ancestors id = table.ancestors id
  root : 0 < table.size → later.root = table.root

theorem asNew_create :
    ((table.create new.kind new.name new.parent).get? id).map Scope.asNew =
      if id = table.size then some new else (table.get? id).map Scope.asNew :=
  get?_create_map Scope.asNew fun _ _ => rfl

theorem ordered_empty : empty.Ordered := by
  intro id outer hparent
  cases hparent

namespace Creates

theorem ordered (h : Creates table added later) (htable : table.Ordered) : later.Ordered := by
  induction h with
  | nil => exact htable
  | cons hparent _ ih => exact ih (ordered_create htable hparent)

theorem linked (h : Creates table added later) (htable : table.Linked) : later.Linked := by
  induction h with
  | nil => exact htable
  | cons hparent _ ih => exact ih (linked_create htable hparent)

theorem extends_of (h : Creates table added later) : Extends table later := by
  induction h with
  | nil => exact .refl _
  | cons _ _ ih => exact extends_create.trans ih

theorem asNew_eq (h : Creates table added later) (id : Nat) :
    (later.get? id).map Scope.asNew =
      if id < table.size then (table.get? id).map Scope.asNew else added[id - table.size]? := by
  induction h with
  | nil table =>
    split
    · rfl
    · rw [get?_eq_none_iff.mpr (by omega)]
      rfl
  | @cons table later new added _ _ ih =>
    rw [ih, size_create, asNew_create]
    rcases Nat.lt_trichotomy id table.size with hlt | rfl | hgt
    · rw [if_pos (by omega), if_neg (by omega), if_pos hlt]
    · rw [if_pos (by omega), if_pos rfl, if_neg (by omega), Nat.sub_self, List.getElem?_cons_zero]
    · rw [if_neg (by omega), if_neg (by omega),
        show id - table.size = id - (table.size + 1) + 1 by omega, List.getElem?_cons_succ]

theorem root_eq (h : Creates table added later) :
    later.root = table.root.or (added.head?.map fun _ => table.size) := by
  induction h with
  | nil table => exact (Option.or_none ..).symm
  | @cons table _ _ _ _ _ ih =>
    rw [ih, root_create]
    cases table.root <;> rfl

theorem keeps (h : Creates table added later) (htable : table.Ordered)
    (hroot : 0 < table.size → table.root.isSome) : table.Keeps later where
  asNew id hid := by rw [h.asNew_eq, if_pos hid]
  ancestors _ hid := h.extends_of.ancestors_eq htable (h.ordered htable) hid
  root hpos := by rw [h.root_eq, Option.or_of_isSome (hroot hpos)]

end Creates

/-- Scopes that are created one after the other have the numbers from zero on, the root is the first
of them, they are a forest, and they stay as they are when more are created. -/
theorem creates_forest (h : Creates empty added table) :
    (∀ id, (table.get? id).map Scope.asNew = added[id]?) ∧
      table.root = added.head?.map (fun _ => 0) ∧ table.IsForest ∧
        ∀ more later, Creates table more later → table.Keeps later := by
  have hordered := h.ordered ordered_empty
  have hroot : table.root = added.head?.map fun _ => 0 := by
    rw [h.root_eq]
    exact Option.none_or ..
  have hsome : 0 < table.size → table.root.isSome := by
    rw [hroot]
    cases h with
    | nil => exact fun hpos => absurd hpos (Nat.lt_irrefl 0)
    | cons => exact fun _ => rfl
  exact ⟨h.asNew_eq, hroot, isForest hordered (h.linked linked_empty),
    fun _ _ hmore => hmore.keeps hordered hsome⟩

/-- Two functions stand side by side, and a block stands inside nothing. -/
def scatteredScopes : List NewScope := [
  ⟨.global, Scope.globalName, none⟩,
  ⟨.function, "f", some 0⟩,
  ⟨.block, "f", some 1⟩,
  ⟨.function, "g", some 0⟩,
  ⟨.block, "h", none⟩]

theorem creates_forest_scatteredScopes :
    ∃ table, Creates empty scatteredScopes table ∧ table.root = some 0 ∧
      (table.get? 4).map Scope.asNew = some ⟨.block, "h", none⟩ ∧ table.WayOut 2 [2, 1, 0] ∧
      (table.children 0).count 3 = 1 ∧ (table.children 0).count 2 = 0 ∧
      (table.isDescendantOf 2 1 ∨ table.isDescendantOf 1 2) ∧ ¬ table.isDescendantOf 3 1 ∧
      ∀ later, Creates table [⟨.function, "k", some 4⟩] later → later.ancestors 2 = [2, 1, 0] := by
  obtain ⟨table, hcreates, htable⟩ : ∃ table, Creates empty scatteredScopes table ∧
      table = scatteredScopes.foldl
        (fun table new => table.create new.kind new.name new.parent) empty := by
    refine ⟨_, .cons nofun (.cons ?_ (.cons ?_ (.cons ?_ (.cons nofun (.nil _))))), rfl⟩
    all_goals
      rintro _ ⟨⟩
      decide
  obtain ⟨hnew, hroot, hforest, hkeeps⟩ := creates_forest hcreates
  have hsize : table.size = 5 := by rw [htable]; rfl
  have hway : table.ancestors 2 = [2, 1, 0] := by rw [htable]; decide
  refine ⟨table, hcreates, hroot, hnew 4, hway ▸ hforest.wayOut 2 (by omega), ?_, ?_, ?_, ?_, ?_⟩
  · rw [hforest.children, htable]
    decide
  · rw [hforest.children, htable]
    decide
  · exact hforest.total 2 2 1 (by simp [hway]) (by simp [hway])
  · rw [htable]
    decide
  · intro later hlater
    rw [(hkeeps _ _ hlater).ancestors 2 (by omega), hway]

end ScopeTable

end ScopeCheck
