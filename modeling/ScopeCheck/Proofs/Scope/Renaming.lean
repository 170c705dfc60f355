import ScopeCheck.Proofs.Scope.Children

namespace ScopeCheck

def Scope.rename (f : String → String) (scope : Scope) : Scope := { scope with name := f scope.name }

namespace ScopeTable

/-- The scope is that of a function, or it stands inside one. -/
def inFunction (table : ScopeTable) (id : ScopeId) : Bool :=
  (table.ancestors id).any fun outer => table.kind? outer = some .function

/-- The table with other names of functions. -/
def rename (f : String → String) (table : ScopeTable) : ScopeTable :=
  { table with scopes :=
      table.scopes.mapIdx fun id scope => if table.inFunction id then scope.rename f else scope }

variable {table : ScopeTable} {kind : ScopeKind} {name : String} {parent : Option ScopeId}
  {id : Nat} (f : String → String)

theorem get?_rename : (table.rename f).get? id =
    (table.get? id).map fun scope => if table.inFunction id then scope.rename f else scope := by
  simp [rename, get?]

theorem size_rename : (table.rename f).size = table.size := by
  simp [rename, size]

theorem name?_rename : (table.rename f).name? id =
    (table.name? id).map fun name => if table.inFunction id then f name else name := by
  rw [name?, name?, get?_rename, Option.map_map, Option.map_map]
  congr 1
  funext scope
  simp only [Function.comp_apply]
  split <;> rfl

theorem ext_get? {other : ScopeTable} (hroot : table.root = other.root)
    (h : ∀ id : Nat, table.get? id = other.get? id) : table = other := by
  obtain ⟨scopes, root⟩ := table
  obtain ⟨others, otherRoot⟩ := other
  cases hroot
  exact congrArg (mk · root) (Array.ext_getElem? h)

theorem rename_id : table.rename (fun name => name) = table := by
  refine ext_get? rfl fun id => ?_
  simp [get?_rename, Scope.rename]

theorem get?_create (hparent : ∀ outer : Nat, parent = some outer → outer < table.size) :
    (table.create kind name parent).get? id =
      if id = table.size then some ⟨kind, name, parent, #[]⟩
      else (table.get? id).map fun scope =>
        if parent = some id then { scope with children := scope.children.push table.size }
        else scope := by
  have hpush : (table.scopes.push ⟨kind, name, parent, #[]⟩)[id]? =
      if id = table.size then some ⟨kind, name, parent, #[]⟩ else table.get? id :=
    Array.getElem?_push
  cases parent with
  | none => simpa [create, get?] using hpush
  | some outer =>
    have hne := Nat.ne_of_lt (hparent outer rfl)
    simp only [create, addChild, get?, Array.getElem?_modify, hpush, Option.some.injEq]
    by_cases heq : outer = id
    · subst heq
      simp [hne]
    · simp [heq]

theorem inFunction_create (h : table.Ordered)
    (hparent : ∀ outer : Nat, parent = some outer → outer < table.size) (hid : id < table.size) :
    (table.create kind name parent).inFunction id = table.inFunction id := by
  have hancestors : (table.create kind name parent).ancestors id = table.ancestors id :=
    extends_create.ancestors_eq h (ordered_create h hparent) hid
  rw [Bool.eq_iff_iff, inFunction, inFunction, hancestors, List.any_eq_true, List.any_eq_true]
  refine exists_congr fun outer => and_congr_right fun houter => ?_
  have hle : outer ≤ id := by
    have hpairwise := pairwise_ancestors h hid
    rw [ancestors_eq h hid] at houter hpairwise
    rcases List.mem_cons.mp houter with rfl | houter
    · exact Nat.le_refl _
    · exact Nat.le_of_lt ((List.pairwise_cons.mp hpairwise).1 outer houter)
  rw [kind?_create, if_neg (Nat.ne_of_lt (Nat.lt_of_le_of_lt hle hid))]

theorem inFunction_create_self (h : table.Ordered)
    (hparent : ∀ outer : Nat, parent = some outer → outer < table.size) :
    (table.create kind name parent).inFunction table.size =
      (kind = .function || parent.any table.inFunction) := by
  have hlt : table.size < (table.create kind name parent).size := by
    rw [size_create]
    exact Nat.lt_succ_self _
  rw [inFunction, ancestors_eq (ordered_create h hparent) hlt, parent_create, if_pos rfl,
    List.any_cons, kind?_create, if_pos rfl]
  cases parent with
  | none => simp [outward]
  | some outer =>
    have houter := @inFunction_create table kind name _ _ h hparent (hparent outer rfl)
    simp only [Option.some.injEq, Option.any_some, ← houter]
    rfl

theorem rename_create (h : table.Ordered)
    (hparent : ∀ outer : Nat, parent = some outer → outer < table.size) :
    (table.create kind name parent).rename f =
      (table.rename f).create kind
        (if kind = .function ∨ parent.any table.inFunction then f name else name) parent := by
  have hroot : ((table.create kind name parent).rename f).root =
      ((table.rename f).create kind
        (if kind = .function ∨ parent.any table.inFunction then f name else name) parent).root := by
    rw [root_create]
    simp only [rename, root_create, size, Array.size_mapIdx]
  refine ext_get? hroot fun id => ?_
  have hparent' : ∀ outer : Nat, parent = some outer → outer < (table.rename f).size := by
    rwa [size_rename]
  rw [get?_rename, get?_create hparent, get?_create hparent', size_rename, get?_rename]
  by_cases hid : id = table.size
  · subst hid
    rw [if_pos rfl, if_pos rfl, Option.map_some, inFunction_create_self h hparent]
    simp only [Bool.or_eq_true, decide_eq_true_eq]
    split <;> rfl
  · rw [if_neg hid, if_neg hid, Option.map_map, Option.map_map]
    cases hscope : table.get? id with
    | none => rfl
    | some scope =>
      have hlt : id < table.size := by
        refine Nat.lt_of_not_le fun hle => ?_
        rw [get?_eq_none_iff.mpr hle] at hscope
        cases hscope
      simp only [Option.map_some, Function.comp_apply, inFunction_create h hparent hlt]
      split <;> split <;> rfl

end ScopeTable

end ScopeCheck
