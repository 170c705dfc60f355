import ScopeCheck.Proofs.Symbol.Names

namespace ScopeCheck.SymbolTable

variable {table : SymbolTable} {scope : ScopeId} {slot : UInt32} {definition : Definition}
  {id : SymbolId} {line : UInt32}

def name? (table : SymbolTable) (id : SymbolId) : Option String :=
  (table.get? id).map fun symbol => symbol.name

def slot? (table : SymbolTable) (id : SymbolId) : Option UInt32 := (table.get? id).map Symbol.slot

theorem size_declare : (table.declare scope slot definition).size = table.size + 1 := by
  simp [declare, size]

theorem mem_inScope : id ∈ table.inScope scope ↔
    ∃ symbol, table.get? id = some symbol ∧ symbol.scope = scope := by
  simp only [inScope, idsWhere, List.mem_filter, List.mem_range]
  constructor
  · rintro ⟨-, hany⟩
    cases hsymbol : table.get? id with
    | none => simp [hsymbol] at hany
    | some symbol => exact ⟨symbol, rfl, by simpa [hsymbol] using hany⟩
  · rintro ⟨symbol, hsymbol, hscope⟩
    exact ⟨get?_lt_size hsymbol, by simp [hsymbol, hscope]⟩

theorem nodup_inScope (table : SymbolTable) (scope : ScopeId) : (table.inScope scope).Nodup :=
  List.nodup_range.filter _

theorem length_inScope_le (table : SymbolTable) (scope : ScopeId) :
    (table.inScope scope).length ≤ table.size := by
  have hle := List.length_filter_le (fun id => (table.get? id).any (·.scope = scope))
    (List.range table.size)
  rwa [List.length_range] at hle

theorem inScope_declare (other : ScopeId) :
    (table.declare scope slot definition).inScope other =
      table.inScope other ++ if scope = other then [table.size] else [] := by
  have hold : (List.range table.size).filter (fun id =>
      ((table.declare scope slot definition).get? id).any (·.scope = other)) =
        table.inScope other := by
    refine List.filter_congr fun id hid => ?_
    rw [get?_declare, if_neg (Nat.ne_of_lt (List.mem_range.mp hid))]
  rw [inScope, idsWhere, size_declare, List.range_succ, List.filter_append, hold]
  by_cases hscope : scope = other
  · simp [get?_declare, hscope]
  · simp [get?_declare, hscope]

theorem slot?_declare :
    (table.declare scope slot definition).slot? id =
      if id = table.size then some slot else table.slot? id := by
  rw [slot?, get?_declare]
  split <;> rfl

theorem slot?_addReference (other : SymbolId) :
    (table.addReference id line).slot? other = table.slot? other := by
  rw [slot?, get?_addReference]
  split
  · cases hsymbol : table.get? other <;> simp [slot?, hsymbol]
  · rfl

theorem inScope_addReference (scope : ScopeId) :
    (table.addReference id line).inScope scope = table.inScope scope := by
  rw [inScope, idsWhere, size_addReference]
  refine List.filter_congr fun other _ => ?_
  rw [get?_addReference]
  split
  · cases table.get? other <;> rfl
  · rfl

/-- The symbols of a scope have the slots from zero on, in order. -/
def Dense (table : SymbolTable) (scope : ScopeId) : Prop :=
  (table.inScope scope).map table.slot? =
    (List.range (table.inScope scope).length).map fun slot => some (UInt32.ofNat slot)

theorem dense_declare {other : ScopeId} (h : table.Dense other)
    (hslot : slot = UInt32.ofNat (table.inScope scope).length) :
    (table.declare scope slot definition).Dense other := by
  have hold : (table.inScope other).map (table.declare scope slot definition).slot? =
      (table.inScope other).map table.slot? := by
    refine List.map_congr_left fun id hid => ?_
    obtain ⟨symbol, hsymbol, -⟩ := mem_inScope.mp hid
    rw [slot?_declare, if_neg (Nat.ne_of_lt (get?_lt_size hsymbol))]
  rw [Dense, inScope_declare, List.map_append, hold, h]
  by_cases hscope : scope = other
  · subst hscope
    simp [slot?_declare, hslot, List.range_succ]
  · simp [hscope]

theorem dense_addReference (h : table.Dense scope) : (table.addReference id line).Dense scope := by
  have hslot : (table.addReference id line).slot? = table.slot? := funext slot?_addReference
  rw [Dense, inScope_addReference, hslot]
  exact h

theorem Dense.map_toNat (h : table.Dense scope) (hsize : table.size ≤ UInt32.size) :
    (table.inScope scope).map (fun id => (table.slot? id).map UInt32.toNat) =
      (List.range (table.inScope scope).length).map some := by
  have hmap := congrArg (List.map (Option.map UInt32.toNat)) h
  rw [List.map_map, List.map_map] at hmap
  refine hmap.trans (List.map_congr_left fun slot hslot => ?_)
  have hlt : slot < UInt32.size :=
    Nat.lt_of_lt_of_le (List.mem_range.mp hslot)
      (Nat.le_trans (table.length_inScope_le scope) hsize)
  simp [UInt32.toNat_ofNat_of_lt' hlt]

theorem Dense.toNat_slot_lt (h : table.Dense scope) (hsize : table.size ≤ UInt32.size)
    {symbol : Symbol} (hsymbol : table.get? id = some symbol) (hscope : symbol.scope = scope) :
    symbol.slot.toNat < table.size := by
  have hmem : some symbol.slot.toNat ∈
      (table.inScope scope).map fun id => (table.slot? id).map UInt32.toNat := by
    apply List.mem_map.mpr
    refine ⟨id, mem_inScope.mpr ⟨symbol, hsymbol, hscope⟩, ?_⟩
    rw [slot?, hsymbol]
    rfl
  rw [h.map_toNat hsize] at hmem
  obtain ⟨slot, hslot, heq⟩ := List.mem_map.mp hmem
  rw [← Option.some.inj heq]
  exact Nat.lt_of_lt_of_le (List.mem_range.mp hslot) (table.length_inScope_le scope)

theorem Indexed.nodup_names (h : table.Indexed) (scope : ScopeId) :
    ((table.inScope scope).map table.name?).Nodup := by
  rw [List.Nodup, List.pairwise_map]
  refine (table.nodup_inScope scope).imp_of_mem fun {id other} hid hother hne heq => hne ?_
  obtain ⟨symbol, hsymbol, hscope⟩ := mem_inScope.mp hid
  obtain ⟨otherSymbol, hotherSymbol, hotherScope⟩ := mem_inScope.mp hother
  rw [name?, name?, hsymbol, hotherSymbol] at heq
  have hfirst := (h symbol.name scope id).mpr ⟨symbol, hsymbol, rfl, hscope⟩
  have hsecond := (h symbol.name scope other).mpr
    ⟨otherSymbol, hotherSymbol, (Option.some.inj heq).symm, hotherScope⟩
  exact Option.some.inj (hfirst.symm.trans hsecond)

theorem has_iff {name : String} :
    table.Has name scope id ↔ id ∈ table.inScope scope ∧ table.name? id = some name := by
  rw [mem_inScope, name?]
  constructor
  · rintro ⟨symbol, hsymbol, hname, hscope⟩
    exact ⟨⟨symbol, hsymbol, hscope⟩, by rw [hsymbol, Option.map_some, hname]⟩
  · rintro ⟨⟨symbol, hsymbol, hscope⟩, hname⟩
    rw [hsymbol] at hname
    exact ⟨symbol, hsymbol, Option.some.inj hname, hscope⟩

/-- The symbols of a scope have different names and the slots from zero on, in the order they are
declared, and a name means the one of them that has it. -/
structure WellKept (table : SymbolTable) (scope : ScopeId) : Prop where
  names : ((table.inScope scope).map table.name?).Nodup
  slots : (table.inScope scope).map (fun id => (table.slot? id).map UInt32.toNat) =
    (List.range (table.inScope scope).length).map some
  lookup : ∀ name id, table.lookupLocal name scope = some id ↔
    id ∈ table.inScope scope ∧ table.name? id = some name

theorem wellKept (hindexed : table.Indexed) (hdense : table.Dense scope)
    (hsize : table.size ≤ UInt32.size) : table.WellKept scope where
  names := hindexed.nodup_names scope
  slots := hdense.map_toNat hsize
  lookup name id := (hindexed name scope id).trans has_iff

end ScopeCheck.SymbolTable
