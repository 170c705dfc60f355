import ScopeCheck.NodeFacts

namespace ScopeCheck.IndexMap

variable {α β : Type} (f : α → β)

/-- The map with other values at the same numbers. -/
def map (values : IndexMap α) : IndexMap β := ⟨values.cells.map (Option.map f)⟩

theorem get?_map (values : IndexMap α) (i : Nat) : (values.map f).get? i = (values.get? i).map f := by
  simp only [map, get?, Array.getElem?_map]
  rcases values.cells[i]? with _ | _ | value <;> rfl

theorem map_empty : (empty : IndexMap α).map f = empty := by
  simp [map, empty]

theorem map_insert (values : IndexMap α) (i : Nat) (value : α) :
    (values.insert i value).map f = (values.map f).insert i (f value) := by
  simp [map, insert, grow, Array.map_append, Array.map_setIfInBounds]

theorem map_id (values : IndexMap α) : values.map (fun value => value) = values := by
  simp [map]

end ScopeCheck.IndexMap

namespace ScopeCheck.NodeFacts

variable (facts : NodeFacts) (id other : NodeId)

theorem typeOf_setType (type : ValueType) :
    (facts.setType id type).typeOf other = if id = other then some type else facts.typeOf other :=
  IndexMap.get?_insert ..

@[simp]
theorem scopeOf_setType (type : ValueType) :
    (facts.setType id type).scopeOf other = facts.scopeOf other := rfl

@[simp]
theorem resolution_setType (type : ValueType) :
    (facts.setType id type).resolution other = facts.resolution other := rfl

theorem scopeOf_bindScope (scope : ScopeId) :
    (facts.bindScope id scope).scopeOf other =
      if id = other ∧ facts.scopeOf id = none then some scope else facts.scopeOf other := by
  by_cases hbound : facts.scopes.get? id = none
  · simp [bindScope, scopeOf, IndexMap.contains, IndexMap.get?_insert, hbound]
  · have hsome : (facts.scopes.get? id).isSome := Option.isSome_iff_ne_none.mpr hbound
    simp [bindScope, scopeOf, IndexMap.contains, hbound, hsome]

@[simp]
theorem types_bindScope (scope : ScopeId) : (facts.bindScope id scope).types = facts.types := by
  simp only [bindScope]
  split <;> rfl

@[simp]
theorem typeOf_bindScope (scope : ScopeId) :
    (facts.bindScope id scope).typeOf other = facts.typeOf other := by
  simp only [typeOf, types_bindScope]

@[simp]
theorem resolution_bindScope (scope : ScopeId) :
    (facts.bindScope id scope).resolution other = facts.resolution other := by
  simp only [bindScope]
  split <;> rfl

@[simp]
theorem declared_bindScope (scope : ScopeId) :
    (facts.bindScope id scope).declared other = facts.declared other := by
  simp only [bindScope]
  split <;> rfl

@[simp]
theorem declared_resolve (symbol : SymbolId) :
    (facts.resolve id symbol).declared other = facts.declared other := rfl

theorem declared_recordDeclaration (symbol : SymbolId) :
    (facts.recordDeclaration id symbol).declared other =
      if id = other then some symbol else facts.declared other :=
  IndexMap.get?_insert ..

theorem resolution_resolve (symbol : SymbolId) :
    (facts.resolve id symbol).resolution other =
      if id = other then some symbol else facts.resolution other :=
  IndexMap.get?_insert ..

@[simp]
theorem scopeOf_resolve (symbol : SymbolId) :
    (facts.resolve id symbol).scopeOf other = facts.scopeOf other := rfl

@[simp]
theorem typeOf_resolve (symbol : SymbolId) :
    (facts.resolve id symbol).typeOf other = facts.typeOf other := rfl

@[simp]
theorem scopeOf_recordDeclaration (symbol : SymbolId) :
    (facts.recordDeclaration id symbol).scopeOf other = facts.scopeOf other := rfl

@[simp]
theorem resolution_recordDeclaration (symbol : SymbolId) :
    (facts.recordDeclaration id symbol).resolution other = facts.resolution other := rfl

@[simp]
theorem typeOf_recordDeclaration (symbol : SymbolId) :
    (facts.recordDeclaration id symbol).typeOf other = facts.typeOf other := rfl

section Renumber

variable (number : SymbolId → SymbolId)

/-- The facts where the symbols have other numbers. -/
def renumber : NodeFacts :=
  { facts with
    resolutions := facts.resolutions.map number
    declarations := facts.declarations.map number }

theorem eq_renumber {facts other : NodeFacts} (htypes : other.types = facts.types)
    (hscopes : other.scopes = facts.scopes)
    (hresolutions : other.resolutions = facts.resolutions.map number)
    (hdeclarations : other.declarations = facts.declarations.map number) :
    other = facts.renumber number := by
  obtain ⟨types, scopes, resolutions, declarations⟩ := other
  simp only at htypes hscopes hresolutions hdeclarations
  rw [htypes, hscopes, hresolutions, hdeclarations]
  rfl

theorem renumber_empty : NodeFacts.empty.renumber number = .empty := by
  simp [renumber, empty, IndexMap.map_empty]

theorem renumber_id : facts.renumber (fun symbol => symbol) = facts := by
  rw [renumber, IndexMap.map_id, IndexMap.map_id]

theorem resolution_renumber :
    (facts.renumber number).resolution id = (facts.resolution id).map number :=
  IndexMap.get?_map ..

theorem declared_renumber :
    (facts.renumber number).declared id = (facts.declared id).map number :=
  IndexMap.get?_map ..

theorem renumber_resolve (symbol : SymbolId) :
    (facts.resolve id symbol).renumber number =
      (facts.renumber number).resolve id (number symbol) := by
  simp only [renumber, resolve, IndexMap.map_insert]

theorem renumber_recordDeclaration (symbol : SymbolId) :
    (facts.recordDeclaration id symbol).renumber number =
      (facts.renumber number).recordDeclaration id (number symbol) := by
  simp only [renumber, recordDeclaration, IndexMap.map_insert]

theorem renumber_bindScope (scope : ScopeId) :
    (facts.bindScope id scope).renumber number = (facts.renumber number).bindScope id scope := by
  simp only [bindScope, apply_ite (renumber · number)]
  rfl

end Renumber

end ScopeCheck.NodeFacts
