import ScopeCheck.Scope.Table

namespace ScopeCheck.ScopeTable

variable {table : ScopeTable} {kind : ScopeKind} {name : String} {parent : Option ScopeId}
  {id : Nat}

def name? (table : ScopeTable) (id : ScopeId) : Option String := (table.get? id).map Scope.name

theorem size_create : (table.create kind name parent).size = table.size + 1 := by
  cases parent <;> simp [create, addChild, size]

theorem root_create : (table.create kind name parent).root = table.root.or (some table.size) := by
  cases parent <;> rfl

theorem get?_create_map {β : Type} (view : Scope → β)
    (hview : ∀ scope children, view { scope with children } = view scope) :
    ((table.create kind name parent).get? id).map view =
      if id = table.size then some (view ⟨kind, name, parent, #[]⟩)
      else (table.get? id).map view := by
  have hpush : ((table.scopes.push ⟨kind, name, parent, #[]⟩)[id]?).map view =
      if id = table.size then some (view ⟨kind, name, parent, #[]⟩)
      else (table.get? id).map view := by
    rw [Array.getElem?_push]
    split <;> simp_all [size, get?]
  cases parent with
  | none => exact hpush
  | some outer =>
    rw [← hpush]
    simp only [create, addChild, get?, Array.getElem?_modify]
    split
    · simp [Function.comp_def, hview]
    · rfl

theorem name?_create :
    (table.create kind name parent).name? id =
      if id = table.size then some name else table.name? id :=
  get?_create_map Scope.name fun _ _ => rfl

theorem parent_create :
    (table.create kind name parent).parent id =
      if id = table.size then parent else table.parent id := by
  have hparent : ∀ table : ScopeTable, table.parent id = ((table.get? id).map Scope.parent).join := by
    intro table
    rw [ScopeTable.parent]
    cases table.get? id <;> rfl
  rw [hparent, hparent, get?_create_map Scope.parent fun _ _ => rfl]
  split <;> rfl

theorem get?_eq_none_iff : table.get? id = none ↔ table.size ≤ id := by
  simp [get?, size]

/-- Parents are created before their children. -/
def Ordered (table : ScopeTable) : Prop :=
  ∀ id outer : Nat, table.parent id = some outer → outer < id

theorem ordered_create (h : table.Ordered)
    (hparent : ∀ outer : Nat, parent = some outer → outer < table.size) :
    (table.create kind name parent).Ordered := by
  intro id outer
  rw [parent_create]
  split
  · rename_i heq
    rw [heq]
    exact hparent outer
  · exact h id outer

theorem ancestorsUpTo_stable (h : table.Ordered) {fuel more : Nat} (hfuel : id < fuel)
    (hmore : id < more) : table.ancestorsUpTo fuel (some id) = table.ancestorsUpTo more (some id) := by
  induction fuel generalizing more id with
  | zero => omega
  | succ fuel ih =>
    obtain ⟨more, rfl⟩ := Nat.exists_eq_add_one_of_ne_zero (by omega : more ≠ 0)
    simp only [ancestorsUpTo]
    cases hscope : table.get? id with
    | none => rfl
    | some scope =>
      simp only [List.cons.injEq, true_and]
      cases hparent : scope.parent with
      | none => cases fuel <;> cases more <;> rfl
      | some outer =>
        have hlt := h id outer (by simp [ScopeTable.parent, hscope, hparent])
        exact ih (by omega) (by omega)

def outward (table : ScopeTable) (start : Option ScopeId) : List ScopeId :=
  start.elim [] table.ancestors

theorem ancestors_eq (h : table.Ordered) (hid : id < table.size) :
    table.ancestors id = id :: table.outward (table.parent id) := by
  obtain ⟨scope, hscope⟩ : ∃ scope, table.get? id = some scope :=
    Option.ne_none_iff_exists'.mp fun hnone => by
      have := get?_eq_none_iff.mp hnone
      omega
  obtain ⟨fuel, hfuel⟩ := Nat.exists_eq_add_one_of_ne_zero (by omega : table.size ≠ 0)
  have hparent : table.parent id = scope.parent := by simp [ScopeTable.parent, hscope]
  rw [ancestors, hfuel, ancestorsUpTo, hscope, hparent]
  simp only [List.cons.injEq, true_and]
  cases hscopeParent : scope.parent with
  | none => cases fuel <;> rfl
  | some outer =>
    have hlt := h id outer (hparent.trans hscopeParent)
    simp only [outward, Option.elim_some, ancestors]
    exact ancestorsUpTo_stable h (by omega) (by omega)

/-- The numbers go down on the way outward. -/
theorem pairwise_ancestors (h : table.Ordered) (hid : id < table.size) :
    (table.ancestors id).Pairwise (· > ·) := by
  induction id using Nat.strongRecOn with
  | ind id ih =>
    rw [ancestors_eq h hid]
    cases hparent : table.parent id with
    | none => exact List.pairwise_singleton _ _
    | some outer =>
      have hlt := h id outer hparent
      have hsize := Nat.lt_trans hlt hid
      have hpairwise := ih outer hlt hsize
      refine List.pairwise_cons.mpr ⟨fun other hother => ?_, hpairwise⟩
      simp only [outward, Option.elim_some] at hother
      rw [ancestors_eq h hsize] at hother hpairwise
      rcases List.mem_cons.mp hother with rfl | hother
      · exact hlt
      · exact Nat.lt_trans ((List.pairwise_cons.mp hpairwise).1 other hother) hlt

theorem le_of_mem_ancestors (h : table.Ordered) (hid : id < table.size) {other : Nat}
    (hother : other ∈ table.ancestors id) : other ≤ id := by
  have hpairwise := pairwise_ancestors h hid
  rw [ancestors_eq h hid] at hother hpairwise
  rcases List.mem_cons.mp hother with rfl | hother
  · exact Nat.le_refl _
  · exact Nat.le_of_lt ((List.pairwise_cons.mp hpairwise).1 other hother)

/-- A table that has grown: the scopes that were there have the names and parents that they had. -/
structure Extends (table later : ScopeTable) : Prop where
  size_le : table.size ≤ later.size
  name?_eq : ∀ id : Nat, id < table.size → later.name? id = table.name? id
  parent_eq : ∀ id : Nat, id < table.size → later.parent id = table.parent id

theorem Extends.refl (table : ScopeTable) : Extends table table :=
  ⟨Nat.le_refl _, fun _ _ => rfl, fun _ _ => rfl⟩

theorem Extends.trans {later last : ScopeTable} (h : Extends table later) (h' : Extends later last) :
    Extends table last where
  size_le := Nat.le_trans h.size_le h'.size_le
  name?_eq id hid :=
    (h'.name?_eq id (Nat.lt_of_lt_of_le hid h.size_le)).trans (h.name?_eq id hid)
  parent_eq id hid :=
    (h'.parent_eq id (Nat.lt_of_lt_of_le hid h.size_le)).trans (h.parent_eq id hid)

theorem extends_create : Extends table (table.create kind name parent) where
  size_le := by
    rw [size_create]
    omega
  name?_eq id hid := by rw [name?_create, if_neg (by omega)]
  parent_eq id hid := by rw [parent_create, if_neg (by omega)]

theorem Extends.ancestors_eq {later : ScopeTable} (h : Extends table later) (hordered : table.Ordered)
    (hlater : later.Ordered) (hid : id < table.size) : later.ancestors id = table.ancestors id := by
  induction id using Nat.strongRecOn with
  | ind id ih =>
    rw [ScopeTable.ancestors_eq hordered hid,
      ScopeTable.ancestors_eq hlater (Nat.lt_of_lt_of_le hid h.size_le), h.parent_eq id hid]
    cases hparent : table.parent id with
    | none => rfl
    | some outer =>
      have hlt := hordered id outer hparent
      simp only [outward, Option.elim_some]
      rw [ih outer hlt (by omega)]

end ScopeCheck.ScopeTable
