import ScopeCheck.Proofs.Scope.Forest
import ScopeCheck.Proofs.Symbol.Latest
import ScopeCheck.Proofs.Symbol.Slots

namespace ScopeCheck

/-- What is done to a table of symbols. -/
inductive SymbolOperation where
  | declare (scope : ScopeId) (slot : UInt32) (definition : Definition)
  | addReference (id : SymbolId) (line : UInt32)

namespace SymbolOperation

def declared? : SymbolOperation → Option Symbol
  | declare scope slot definition => some { definition with scope, slot, references := #[] }
  | addReference _ _ => none

def lineFor? (id : SymbolId) : SymbolOperation → Option UInt32
  | declare _ _ _ => none
  | addReference other line => if other = id then some line else none

/-- A scope is given a name. -/
def Names (operation : SymbolOperation) (name : String) (scope : ScopeId) : Prop :=
  ∃ symbol, operation.declared? = some symbol ∧ symbol.name = name ∧ symbol.scope = scope

def declared (operations : List SymbolOperation) : List Symbol := operations.filterMap declared?

def linesFor (id : SymbolId) (operations : List SymbolOperation) : List UInt32 :=
  operations.filterMap (lineFor? id)

/-- The declaration with a number gives a scope a name. -/
def NamesAt (operations : List SymbolOperation) (name : String) (scope : ScopeId) (id : SymbolId) :
    Prop :=
  ∃ symbol, (declared operations)[id]? = some symbol ∧ symbol.name = name ∧ symbol.scope = scope

/-- The last of the declarations that give a scope a name. -/
def NamesLast (operations : List SymbolOperation) (name : String) (scope : ScopeId) (id : SymbolId) :
    Prop :=
  NamesAt operations name scope id ∧ ∀ other, NamesAt operations name scope other → other ≤ id

end SymbolOperation

open SymbolOperation (declared linesFor NamesAt NamesLast)

namespace SymbolTable

variable {table later : SymbolTable} {operation : SymbolOperation}
  {operations more : List SymbolOperation} {scopes : ScopeTable} {name : String} {scope : ScopeId}
  {id : SymbolId}

def perform (table : SymbolTable) : SymbolOperation → SymbolTable
  | .declare scope slot definition => table.declare scope slot definition
  | .addReference id line => table.addReference id line

/-- Lines are added to symbols that are there. -/
def Allows (table : SymbolTable) : SymbolOperation → Prop
  | .declare _ _ _ => True
  | .addReference id _ => id < table.size

/-- Operations lead from one table to another, each allowed when its turn comes. -/
inductive Performs : SymbolTable → List SymbolOperation → SymbolTable → Prop where
  | nil (table : SymbolTable) : Performs table [] table
  | cons {table later : SymbolTable} {operation : SymbolOperation}
    {operations : List SymbolOperation} :
    table.Allows operation → Performs (table.perform operation) operations later →
      Performs table (operation :: operations) later

/-- What a table has come to by some operations. -/
structure Reflects (table : SymbolTable) (operations : List SymbolOperation) : Prop where
  symbols : ∀ id, table.get? id = (declared operations)[id]?.map fun symbol =>
    { symbol with references := (linesFor id operations).toArray }
  known : ∀ id line, .addReference id line ∈ operations → id < (declared operations).length
  upToDate : table.UpToDate

namespace Reflects

theorem size_eq (h : table.Reflects operations) : table.size = (declared operations).length := by
  have hnone : ∀ id, table.size ≤ id ↔ (declared operations).length ≤ id := by
    intro id
    have hsymbol := h.symbols id
    rw [← List.getElem?_eq_none_iff, ← Option.map_eq_none_iff, ← hsymbol, get?,
      Array.getElem?_eq_none_iff, size]
  exact Nat.le_antisymm ((hnone _).mpr (Nat.le_refl _)) ((hnone _).mp (Nat.le_refl _))

theorem has_iff (h : table.Reflects operations) :
    table.Has name scope id ↔ NamesAt operations name scope id := by
  rw [Has, NamesAt, h.symbols id]
  cases (declared operations)[id]? <;> simp

theorem linesFor_eq_nil (h : table.Reflects operations)
    (hid : (declared operations).length ≤ id) : linesFor id operations = [] := by
  refine List.filterMap_eq_nil_iff.mpr fun operation hoperation => ?_
  cases operation with
  | declare => rfl
  | addReference other line =>
    have hlt := h.known other line hoperation
    exact if_neg (Nat.ne_of_lt (Nat.lt_of_lt_of_le hlt hid))

theorem declare (h : table.Reflects operations) (slot : UInt32) (definition : Definition) :
    (table.declare scope slot definition).Reflects
      (operations ++ [.declare scope slot definition]) := by
  have hdeclared : declared (operations ++ [.declare scope slot definition]) =
      declared operations ++ [{ definition with scope, slot, references := #[] }] :=
    List.filterMap_append
  refine ⟨fun id => ?_, fun id line hmem => ?_, upToDate_declare h.upToDate⟩
  · have hlines : linesFor id (operations ++ [.declare scope slot definition]) =
        linesFor id operations :=
      List.filterMap_append.trans (List.append_nil _)
    rw [get?_declare, hdeclared, hlines, h.size_eq]
    rcases Nat.lt_trichotomy id (declared operations).length with hlt | rfl | hgt
    · rw [if_neg (Nat.ne_of_lt hlt), List.getElem?_append_left hlt, h.symbols id]
    · rw [if_pos rfl, List.getElem?_concat_length, h.linesFor_eq_nil (Nat.le_refl _)]
      rfl
    · rw [if_neg (Nat.ne_of_gt hgt), h.symbols id, List.getElem?_eq_none (Nat.le_of_lt hgt),
        List.getElem?_eq_none (by rw [List.length_append]; exact hgt)]
  · rw [hdeclared, List.length_append]
    rcases List.mem_append.mp hmem with hmem | hmem
    · exact Nat.lt_add_right _ (h.known id line hmem)
    · cases List.mem_singleton.mp hmem

theorem addReference (h : table.Reflects operations) (hid : id < table.size) (line : UInt32) :
    (table.addReference id line).Reflects (operations ++ [.addReference id line]) := by
  have hdeclared : declared (operations ++ [.addReference id line]) = declared operations :=
    List.filterMap_append.trans (List.append_nil _)
  refine ⟨fun other => ?_, fun other line' hmem => ?_, upToDate_addReference h.upToDate⟩
  · have hlines : linesFor other (operations ++ [.addReference id line]) =
        linesFor other operations ++ if id = other then [line] else [] := by
      refine List.filterMap_append.trans (congrArg _ ?_)
      by_cases hother : id = other <;> simp [SymbolOperation.lineFor?, hother]
    rw [get?_addReference, hdeclared, hlines, h.symbols other]
    by_cases hother : id = other
    · cases (declared operations)[other]? <;> simp [hother]
    · rw [if_neg hother, if_neg hother, List.append_nil]
  · rw [hdeclared]
    rcases List.mem_append.mp hmem with hmem | hmem
    · exact h.known other line' hmem
    · cases List.mem_singleton.mp hmem
      rwa [← h.size_eq]

theorem perform (h : table.Reflects operations) (hallows : table.Allows operation) :
    (table.perform operation).Reflects (operations ++ [operation]) := by
  cases operation with
  | declare scope slot definition => exact h.declare slot definition
  | addReference id line => exact h.addReference hallows line

end Reflects

theorem reflects_empty : empty.Reflects [] where
  symbols _ := rfl
  known := nofun
  upToDate := upToDate_empty

theorem Performs.reflects (h : Performs table more later) (htable : table.Reflects operations) :
    later.Reflects (operations ++ more) := by
  induction h generalizing operations with
  | nil => rwa [List.append_nil]
  | cons hallows _ ih =>
    have hlater := ih (htable.perform hallows)
    rwa [List.append_assoc] at hlater

theorem Reflects.map_inScope (h : table.Reflects operations) (scope : ScopeId) :
    (table.inScope scope).map (fun id => (declared operations)[id]?) =
      ((declared operations).filter (·.scope = scope)).map some := by
  have hall : (List.range table.size).map (fun id => (declared operations)[id]?) =
      (declared operations).map some := by
    refine List.ext_getElem? fun id => ?_
    rw [h.size_eq]
    by_cases hid : id < (declared operations).length <;> simp [hid]
  have hscope : table.inScope scope = (List.range table.size).filter
      ((Option.any (·.scope = scope)) ∘ fun id => (declared operations)[id]?) := by
    refine List.filter_congr fun id _ => ?_
    rw [h.symbols id]
    cases hsymbol : (declared operations)[id]? <;> simp [hsymbol]
  rw [hscope, ← List.filter_map, hall, List.filter_map]
  rfl

theorem pairwise_lt_inScope (table : SymbolTable) (scope : ScopeId) :
    (table.inScope scope).Pairwise (· < ·) :=
  List.pairwise_lt_range.filter _

/-- An operation leaves everything as it is that it is not about: the other symbols, the other names
and scopes, and what names mean in scopes that do not stand inside the one that is given a name. -/
structure Spares (table : SymbolTable) (operation : SymbolOperation) : Prop where
  symbols : ∀ id, id < table.size → (∀ line, operation ≠ .addReference id line) →
    (table.perform operation).get? id = table.get? id
  lookupLocal : ∀ name scope, ¬ operation.Names name scope →
    (table.perform operation).lookupLocal name scope = table.lookupLocal name scope
  inScope : ∀ scope, (∀ name, ¬ operation.Names name scope) →
    (table.perform operation).inScope scope = table.inScope scope
  lookup : ∀ (scopes : ScopeTable) name scope,
    (∀ outer ∈ scopes.ancestors scope, ¬ operation.Names name outer) →
      (table.perform operation).lookup scopes name scope = table.lookup scopes name scope

theorem lookupLocal_perform (h : ¬ operation.Names name scope) :
    (table.perform operation).lookupLocal name scope = table.lookupLocal name scope := by
  cases operation with
  | declare other slot definition =>
    rw [perform, lookupLocal_declare]
    refine if_neg ?_
    rintro ⟨rfl, rfl⟩
    exact h ⟨_, rfl, rfl, rfl⟩
  | addReference => rfl

theorem spares (table : SymbolTable) (operation : SymbolOperation) : table.Spares operation where
  symbols id hid hother := by
    cases operation with
    | declare => rw [perform, get?_declare, if_neg (Nat.ne_of_lt hid)]
    | addReference other line =>
      rw [perform, get?_addReference]
      refine if_neg ?_
      rintro rfl
      exact hother line rfl
  lookupLocal _ _ := lookupLocal_perform
  inScope scope hother := by
    cases operation with
    | declare other slot definition =>
      rw [perform, inScope_declare, if_neg, List.append_nil]
      rintro rfl
      exact hother _ ⟨_, rfl, rfl, rfl⟩
    | addReference => exact inScope_addReference scope
  lookup scopes name scope hother := by
    unfold lookup
    generalize scopes.ancestors scope = path at hother
    induction path with
    | nil => rfl
    | cons outer path ih =>
      rw [List.findSome?_cons, List.findSome?_cons,
        lookupLocal_perform (hother outer List.mem_cons_self),
        ih fun other hmem => hother other (List.mem_cons_of_mem _ hmem)]

/-- A table is the list of its declarations, read in one way or another. -/
structure Refines (table : SymbolTable) (operations : List SymbolOperation) (scopes : ScopeTable) :
    Prop where
  /-- The next symbol gets the place behind the list for its number. -/
  size : table.size = (declared operations).length
  symbols : ∀ id, table.get? id = (declared operations)[id]?.map fun symbol =>
    { symbol with references := (linesFor id operations).toArray }
  found : ∀ name scope id,
    table.lookupLocal name scope = some id ↔ NamesLast operations name scope id
  missing : ∀ name scope,
    table.lookupLocal name scope = none ↔ ∀ id, ¬ NamesAt operations name scope id
  /-- Every scope has a way outward, and the nearest scope on it that has a name says what the name
  means. -/
  path : ∀ scope, scope < scopes.size → ∃ path, scopes.WayOut scope path
  foundOutward : ∀ scope path, scopes.WayOut scope path → ∀ name id,
    table.lookup scopes name scope = some id ↔
      ∃ inner nearest outer, path = inner ++ nearest :: outer ∧
        table.lookupLocal name nearest = some id ∧
          ∀ other ∈ inner, ∀ found, ¬ NamesAt operations name other found
  missingOutward : ∀ scope path, scopes.WayOut scope path → ∀ name,
    table.lookup scopes name scope = none ↔
      ∀ other ∈ path, ∀ found, ¬ NamesAt operations name other found
  inScope : ∀ scope, (table.inScope scope).map (fun id => (declared operations)[id]?) =
    ((declared operations).filter (·.scope = scope)).map some
  inOrder : ∀ scope, (table.inScope scope).Pairwise (· < ·)

theorem Reflects.refines (h : table.Reflects operations) (hscopes : scopes.Ordered) :
    table.Refines operations scopes where
  size := h.size_eq
  symbols := h.symbols
  found name scope id := by
    rw [h.upToDate.lookupLocal_eq_some_iff, Latest, NamesLast]
    simp only [h.has_iff]
  missing name scope := by
    rw [h.upToDate.lookupLocal_eq_none_iff]
    simp only [h.has_iff]
  path _ hscope := ⟨_, ScopeTable.wayOut_ancestors hscopes hscope⟩
  foundOutward scope path hpath name id := by
    rw [lookup, hpath.ancestors_eq hscopes, List.findSome?_eq_some_iff]
    simp only [h.upToDate.lookupLocal_eq_none_iff, h.has_iff]
  missingOutward scope path hpath name := by
    rw [lookup, hpath.ancestors_eq hscopes, List.findSome?_eq_none_iff]
    simp only [h.upToDate.lookupLocal_eq_none_iff, h.has_iff]
  inScope := h.map_inScope
  inOrder := table.pairwise_lt_inScope

/-- Whatever is declared and used, a table of symbols refines the list of its declarations, and the
next operation changes nothing that it is not about. -/
theorem refines_declarations {added : List NewScope}
    (hscopes : ScopeTable.Creates .empty added scopes) (h : Performs empty operations table) :
    table.Refines operations scopes ∧ ∀ operation, table.Spares operation :=
  ⟨(h.reflects reflects_empty).refines (hscopes.ordered ScopeTable.ordered_empty), table.spares⟩

/-- A name is declared outside, declared twice further inside, and used in between. -/
def shadowingOperations : List SymbolOperation := [
  .declare 0 0 ⟨"x", .variable, .integer, 1, .node 0⟩,
  .declare 1 0 ⟨"x", .parameter, .array, 2, .node 1⟩,
  .addReference 0 5,
  .declare 1 1 ⟨"x", .variable, .integer, 3, .node 2⟩,
  .addReference 2 6,
  .addReference 0 4]

theorem refines_shadowingOperations :
    ∃ scopes table,
      ScopeTable.Creates .empty
        [⟨.global, "Global", none⟩, ⟨.function, "f", some 0⟩, ⟨.block, "f", some 1⟩] scopes ∧
      Performs empty shadowingOperations table ∧ scopes.WayOut 2 [2, 1, 0] ∧ table.size = 3 ∧
      (table.get? 0).map Symbol.references = some #[5, 4] ∧
      table.lookup scopes "x" 2 = some 2 ∧ table.lookup scopes "y" 2 = none ∧
      (table.inScope 1).map (fun id => (declared shadowingOperations)[id]?) =
        [some ⟨⟨"x", .parameter, .array, 2, .node 1⟩, 1, 0, #[]⟩,
          some ⟨⟨"x", .variable, .integer, 3, .node 2⟩, 1, 1, #[]⟩] ∧
      (table.perform (.declare 2 0 ⟨"x", .variable, .array, 7, .node 3⟩)).lookupLocal "x" 1 =
        some 2 := by
  obtain ⟨scopes, hcreates, hscopes⟩ : ∃ scopes, ScopeTable.Creates .empty
      [⟨.global, "Global", none⟩, ⟨.function, "f", some 0⟩, ⟨.block, "f", some 1⟩] scopes ∧
        scopes = ((ScopeTable.empty.create .global "Global" none).create .function "f"
          (some 0)).create .block "f" (some 1) := by
    refine ⟨_, .cons nofun (.cons ?_ (.cons ?_ (.nil _))), rfl⟩
    all_goals
      rintro _ ⟨⟩
      decide
  obtain ⟨table, hperforms, htable⟩ : ∃ table, Performs empty shadowingOperations table ∧
      table = shadowingOperations.foldl perform empty :=
    ⟨_, .cons trivial (.cons trivial (.cons Nat.two_pos (.cons trivial (.cons (Nat.lt_succ_self 2)
      (.cons (Nat.succ_pos 2) (.nil _)))))), rfl⟩
  obtain ⟨hrefines, hspares⟩ := refines_declarations hcreates hperforms
  have hway : scopes.WayOut 2 [2, 1, 0] := by
    have hancestors : scopes.ancestors 2 = [2, 1, 0] := by rw [hscopes]; decide
    rw [← hancestors]
    exact ScopeTable.wayOut_ancestors (hcreates.ordered ScopeTable.ordered_empty)
      (by rw [hscopes]; decide)
  have hnearest : table.lookupLocal "x" 1 = some 2 := by rw [htable]; decide
  refine ⟨scopes, table, hcreates, hperforms, hway, hrefines.size, ?_, ?_, ?_,
    hrefines.inScope 1, ?_⟩
  · rw [hrefines.symbols]
    rfl
  · refine (hrefines.foundOutward 2 _ hway "x" 2).mpr ⟨[2], 1, [0], rfl, hnearest, ?_⟩
    intro other hother
    obtain rfl := List.mem_singleton.mp hother
    exact (hrefines.missing "x" 2).mp (by rw [htable]; decide)
  · refine (hrefines.missingOutward 2 _ hway "y").mpr fun other _ => ?_
    have hnames : ∀ symbol ∈ declared shadowingOperations, symbol.name = "x" := by decide
    rintro found ⟨symbol, hsymbol, hname, -⟩
    have hx := hnames symbol (List.mem_of_getElem? hsymbol)
    rw [hname] at hx
    exact absurd hx (by decide)
  · rw [(hspares _).lookupLocal, hnearest]
    rintro ⟨symbol, hsymbol, -, hscope⟩
    cases hsymbol
    cases hscope

end SymbolTable

end ScopeCheck
