import ScopeCheck.Proofs.Scope.Ancestors

namespace ScopeCheck.ScopeTable

variable {table : ScopeTable} {kind : ScopeKind} {name : String} {parent : Option ScopeId}
  {id : Nat}

def kind? (table : ScopeTable) (id : ScopeId) : Option ScopeKind := (table.get? id).map Scope.kind

theorem kind?_create :
    (table.create kind name parent).kind? id =
      if id = table.size then some kind else table.kind? id :=
  get?_create_map Scope.kind fun _ _ => rfl

theorem children_eq (table : ScopeTable) (id : ScopeId) :
    table.children id = (table.get? id).elim [] fun scope => scope.children.toList := by
  rw [children]
  cases table.get? id <;> rfl

theorem children_eq_nil (h : table.size ≤ id) : table.children id = [] := by
  rw [children_eq, get?_eq_none_iff.mpr h]
  rfl

theorem children_addChild {outer child : Nat} (h : outer < table.size) :
    (table.addChild outer child).children id =
      if outer = id then table.children id ++ [child] else table.children id := by
  have houter : table.get? outer = some table.scopes[outer] := Array.getElem?_eq_getElem h
  simp only [children_eq, addChild, get?, Array.getElem?_modify] at houter ⊢
  split
  · rename_i heq
    subst heq
    simp [houter]
  · rfl

/-- A table with one more scope, which no scope knows yet. -/
def push (table : ScopeTable) (scope : Scope) : ScopeTable :=
  { table with scopes := table.scopes.push scope }

theorem children_push (scope : Scope) (hscope : scope.children = #[]) :
    (table.push scope).children id = table.children id := by
  by_cases hid : id = table.size
  · rw [hid, children_eq_nil (Nat.le_refl _), children_eq]
    simp [push, get?, size, hscope]
  · have hold : (table.push scope).get? id = table.get? id := by
      rw [get?, push, Array.getElem?_push]
      exact if_neg hid
    rw [children_eq, children_eq, hold]

theorem children_create (hparent : ∀ outer : Nat, parent = some outer → outer < table.size) :
    (table.create kind name parent).children id =
      if parent = some id then table.children id ++ [table.size] else table.children id := by
  have hpush := @children_push table id ⟨kind, name, parent, #[]⟩ rfl
  cases parent with
  | none => exact hpush
  | some outer =>
    have hlt : outer < (table.push ⟨kind, name, some outer, #[]⟩).size := by
      rw [size, push, Array.size_push]
      exact Nat.lt_succ_of_lt (hparent outer rfl)
    simp only [Option.some.injEq, ← hpush]
    exact children_addChild hlt

/-- The children of a scope are the scopes that it is the parent of, in the order they are created. -/
def Linked (table : ScopeTable) : Prop :=
  ∀ id : Nat, table.children id =
    (List.range table.size).filter fun child => table.parent child = some id

theorem linked_empty : empty.Linked := fun _ => rfl

theorem linked_create (h : table.Linked)
    (hparent : ∀ outer : Nat, parent = some outer → outer < table.size) :
    (table.create kind name parent).Linked := by
  intro id
  have hold : (List.range table.size).filter
      (fun child => (table.create kind name parent).parent child = some id) =
        table.children id := by
    rw [h id]
    refine List.filter_congr fun child hchild => ?_
    rw [parent_create, if_neg (Nat.ne_of_lt (List.mem_range.mp hchild))]
  rw [children_create hparent, size_create, List.range_succ, List.filter_append, hold]
  by_cases hid : parent = some id
  · simp [parent_create, hid]
  · simp [parent_create, hid]

end ScopeCheck.ScopeTable
