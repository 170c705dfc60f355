import ScopeCheck.Symbol.Table

namespace ScopeCheck.SymbolTable

variable {table : SymbolTable} {scope : ScopeId} {slot : UInt32} {definition : Definition}
  {id : SymbolId} {line : UInt32}

/-- A symbol is declared in a scope under a name. -/
def Has (table : SymbolTable) (name : String) (scope : ScopeId) (id : SymbolId) : Prop :=
  ∃ symbol, table.get? id = some symbol ∧ symbol.name = name ∧ symbol.scope = scope

/-- The names of the scopes are those of the symbols, and no scope has a name twice. -/
def Indexed (table : SymbolTable) : Prop :=
  ∀ name scope id, table.lookupLocal name scope = some id ↔ table.Has name scope id

theorem indexed_empty : empty.Indexed := by
  intro name scope id
  simp [lookupLocal, namesOf, empty, Has, get?]

theorem get?_declare :
    (table.declare scope slot definition).get? id =
      if id = table.size then some { definition with scope, slot, references := #[] }
      else table.get? id :=
  Array.getElem?_push

theorem lookupLocal_declare (name : String) (other : ScopeId) :
    (table.declare scope slot definition).lookupLocal name other =
      if other = scope ∧ name = definition.name then some table.size
      else table.lookupLocal name other := by
  simp only [lookupLocal, namesOf, declare, IndexMap.get?_insert]
  by_cases hscope : scope = other
  · subst hscope
    by_cases hname : name = definition.name
    · simp [hname]
    · simp [hname, List.lookup_cons, beq_eq_false_iff_ne.mpr hname]
  · simp [hscope, Ne.symm hscope]

theorem get?_lt_size {symbol : Symbol} (h : table.get? id = some symbol) : id < table.size := by
  obtain ⟨hlt, -⟩ := Array.getElem?_eq_some_iff.mp h
  exact hlt

theorem has_declare (name : String) (other : ScopeId) :
    (table.declare scope slot definition).Has name other id ↔
      (id = table.size ∧ definition.name = name ∧ scope = other) ∨ table.Has name other id := by
  simp only [Has, get?_declare]
  by_cases hid : id = table.size
  · subst hid
    have hnone : table.get? table.size = none := by simp [get?, size]
    simp [hnone]
  · simp [hid]

theorem indexed_declare (h : table.Indexed) (hnew : table.lookupLocal definition.name scope = none) :
    (table.declare scope slot definition).Indexed := by
  intro name other id
  rw [lookupLocal_declare, has_declare]
  split
  · rename_i heq
    obtain ⟨rfl, rfl⟩ := heq
    have hnone : ¬ table.Has definition.name other id := by
      rw [← h, hnew]
      nofun
    simp [hnone, eq_comm]
  · rename_i hne
    rw [h]
    constructor
    · exact .inr
    · rintro (⟨-, rfl, rfl⟩ | hhas)
      · exact absurd ⟨rfl, rfl⟩ hne
      · exact hhas

/-- A table that has grown: the symbols that were there have the definitions and scopes that they
had. -/
def Extends (table later : SymbolTable) : Prop :=
  ∀ id symbol, table.get? id = some symbol → ∃ newer, later.get? id = some newer ∧
    newer.toDefinition = symbol.toDefinition ∧ newer.scope = symbol.scope

theorem Extends.refl (table : SymbolTable) : Extends table table :=
  fun _ symbol h => ⟨symbol, h, rfl, rfl⟩

theorem Extends.trans {later last : SymbolTable} (h : Extends table later)
    (h' : Extends later last) : Extends table last := by
  intro id symbol hsymbol
  obtain ⟨newer, hnewer, hdefinition, hscope⟩ := h id symbol hsymbol
  obtain ⟨newest, hnewest, hdefinition', hscope'⟩ := h' id newer hnewer
  exact ⟨newest, hnewest, hdefinition'.trans hdefinition, hscope'.trans hscope⟩

theorem extends_declare : Extends table (table.declare scope slot definition) := by
  intro id symbol hsymbol
  have hlt := get?_lt_size hsymbol
  refine ⟨symbol, ?_, rfl, rfl⟩
  rw [get?_declare, if_neg (Nat.ne_of_lt hlt)]
  exact hsymbol

theorem size_addReference : (table.addReference id line).size = table.size := by
  simp [addReference, size]

theorem get?_addReference (other : SymbolId) :
    (table.addReference id line).get? other =
      if id = other then
        (table.get? other).map fun symbol =>
          { symbol with references := symbol.references.push line }
      else table.get? other := by
  simp only [addReference, get?, Array.getElem?_modify]

theorem extends_addReference : Extends table (table.addReference id line) := by
  intro other symbol hsymbol
  rw [get?_addReference, hsymbol]
  split
  · exact ⟨_, rfl, rfl, rfl⟩
  · exact ⟨_, rfl, rfl, rfl⟩

theorem has_addReference (name : String) (scope : ScopeId) (other : SymbolId) :
    (table.addReference id line).Has name scope other ↔ table.Has name scope other := by
  simp only [Has, get?_addReference]
  split
  · cases table.get? other <;> simp
  · rfl

theorem indexed_addReference (h : table.Indexed) : (table.addReference id line).Indexed := by
  intro name scope other
  rw [has_addReference]
  exact h name scope other

end ScopeCheck.SymbolTable
