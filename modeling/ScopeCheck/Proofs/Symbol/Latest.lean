import ScopeCheck.Proofs.Symbol.Names

namespace ScopeCheck.SymbolTable

variable {table : SymbolTable} {scope : ScopeId} {slot : UInt32} {definition : Definition}
  {id : SymbolId} {line : UInt32} {name : String}

/-- The last symbol that is declared in a scope under a name. -/
def Latest (table : SymbolTable) (name : String) (scope : ScopeId) (id : SymbolId) : Prop :=
  table.Has name scope id ∧ ∀ other, table.Has name scope other → other ≤ id

/-- A scope shows the last symbol under each name that it has. -/
structure UpToDate (table : SymbolTable) : Prop where
  latest : ∀ name scope id, table.lookupLocal name scope = some id → table.Latest name scope id
  found : ∀ name scope id, table.Has name scope id →
    ∃ last, table.lookupLocal name scope = some last

theorem UpToDate.lookupLocal_eq_some_iff (h : table.UpToDate) :
    table.lookupLocal name scope = some id ↔ table.Latest name scope id := by
  refine ⟨h.latest name scope id, fun hlatest => ?_⟩
  obtain ⟨last, hlast⟩ := h.found name scope id hlatest.1
  obtain ⟨hhas, hmost⟩ := h.latest name scope last hlast
  rw [hlast, Nat.le_antisymm (hlatest.2 last hhas) (hmost id hlatest.1)]

theorem UpToDate.lookupLocal_eq_none_iff (h : table.UpToDate) :
    table.lookupLocal name scope = none ↔ ∀ id, ¬ table.Has name scope id := by
  constructor
  · intro hnone id hhas
    obtain ⟨last, hlast⟩ := h.found name scope id hhas
    rw [hnone] at hlast
    cases hlast
  · intro hnever
    exact Option.eq_none_iff_forall_ne_some.mpr fun id hid => hnever id (h.latest name scope id hid).1

theorem upToDate_empty : empty.UpToDate where
  latest := nofun
  found := by
    rintro name scope id ⟨symbol, hsymbol, -⟩
    cases hsymbol

theorem Has.scope_unique {other : ScopeId} (h : table.Has name scope id)
    (h' : table.Has name other id) : scope = other := by
  obtain ⟨symbol, hsymbol, -, rfl⟩ := h
  obtain ⟨symbol', hsymbol', -, rfl⟩ := h'
  cases hsymbol.symm.trans hsymbol'
  rfl

theorem Has.lt_size (h : table.Has name scope id) : id < table.size := by
  obtain ⟨symbol, hsymbol, -⟩ := h
  exact get?_lt_size hsymbol

theorem upToDate_declare (h : table.UpToDate) : (table.declare scope slot definition).UpToDate where
  latest name other id hid := by
    rw [lookupLocal_declare] at hid
    simp only [Latest, has_declare]
    split at hid
    · rename_i heq
      obtain ⟨rfl, rfl⟩ := heq
      cases hid
      refine ⟨.inl ⟨rfl, rfl, rfl⟩, fun older holder => ?_⟩
      rcases holder with ⟨rfl, -⟩ | hhas
      · exact Nat.le_refl _
      · exact Nat.le_of_lt hhas.lt_size
    · rename_i hne
      obtain ⟨hhas, hmost⟩ := h.latest name other id hid
      refine ⟨.inr hhas, fun older holder => ?_⟩
      -- The new symbol has another name or another scope, so it cannot be the later one.
      rcases holder with ⟨-, rfl, rfl⟩ | hhas
      · exact absurd ⟨rfl, rfl⟩ hne
      · exact hmost older hhas
  found name other id hhas := by
    rw [lookupLocal_declare]
    split
    · exact ⟨_, rfl⟩
    · rename_i hne
      rcases (has_declare name other).mp hhas with ⟨-, rfl, rfl⟩ | hhas
      · exact absurd ⟨rfl, rfl⟩ hne
      · exact h.found name other id hhas

theorem upToDate_addReference (h : table.UpToDate) : (table.addReference id line).UpToDate where
  latest name scope other hother := by
    simp only [Latest, has_addReference]
    exact h.latest name scope other hother
  found name scope other hhas := h.found name scope other ((has_addReference name scope other).mp hhas)

end ScopeCheck.SymbolTable
