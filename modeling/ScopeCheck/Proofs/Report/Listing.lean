import ScopeCheck.Report.Listing
import ScopeCheck.Proofs.Analysis.ScopeTree
import ScopeCheck.Proofs.Analysis.Slots
import ScopeCheck.Proofs.Scope.Depth

namespace ScopeCheck

/-- A row is all that a listing says about a symbol. -/
def Model.Shows (model : Model) (id : SymbolId) (row : SymbolRow) : Prop :=
  ∃ symbol scope, model.symbols.get? id = some symbol ∧
    model.scopes.get? symbol.scope = some scope ∧
    row = {
      name := symbol.name
      kind := symbol.kind
      type := symbol.type
      slot := symbol.slot
      scope := scope.name
      depth := model.scopes.depth symbol.scope
      lines := symbol.line :: symbol.references.toList }

/-- A use of a name that has been resolved. -/
def Model.Resolves (model : Model) (tree : Tree) (id : NodeId) : Prop :=
  ∃ node name symbol, tree.Reachable id ∧ tree.node? id = some node ∧
    node.label.uses? = some name ∧ model.facts.resolution id = some symbol

namespace SymbolTable

/-- The first of two symbols has the earlier scope, or the lower slot in the same scope. -/
def Before (table : SymbolTable) (id other : SymbolId) : Prop :=
  ∃ symbol later, table.get? id = some symbol ∧ table.get? other = some later ∧
    (symbol.scope < later.scope ∨ symbol.scope = later.scope ∧ symbol.slot < later.slot)

/-- The slots that some symbols have in a scope. -/
def slotsIn (table : SymbolTable) (scope : ScopeId) (ids : List SymbolId) : List Nat :=
  ((ids.filterMap table.get?).filter (·.scope = scope)).map (·.slot.toNat)

/-- The symbols of the first scopes, scope by scope. -/
def byScope (table : SymbolTable) (count : Nat) : List SymbolId :=
  (List.range count).flatMap table.inScope

variable {table : SymbolTable} {count : Nat} {scope : ScopeId} {id : SymbolId}

theorem mem_byScope :
    id ∈ table.byScope count ↔ ∃ symbol, table.get? id = some symbol ∧ symbol.scope < count := by
  simp only [byScope, List.mem_flatMap, List.mem_range, mem_inScope]
  constructor
  · rintro ⟨scope, hlt, symbol, hsymbol, rfl⟩
    exact ⟨symbol, hsymbol, hlt⟩
  · rintro ⟨symbol, hsymbol, hlt⟩
    exact ⟨symbol.scope, hlt, symbol, hsymbol, rfl⟩

theorem pairwise_inScope (h : table.Dense scope) (hsize : table.size ≤ UInt32.size) :
    (table.inScope scope).Pairwise table.Before := by
  have hslots : ((table.inScope scope).map fun id => (table.slot? id).map UInt32.toNat).Pairwise
      fun slot later => ∀ m n, slot = some m → later = some n → m < n := by
    rw [h.map_toNat hsize, List.pairwise_map]
    refine List.pairwise_lt_range.imp fun hlt m n hm hn => ?_
    cases hm
    cases hn
    exact hlt
  rw [List.pairwise_map] at hslots
  refine hslots.imp_of_mem fun {id other} hid hother hlt => ?_
  obtain ⟨symbol, hsymbol, hscope⟩ := mem_inScope.mp hid
  obtain ⟨later, hlater, hlaterScope⟩ := mem_inScope.mp hother
  refine ⟨symbol, later, hsymbol, hlater, .inr ⟨hscope.trans hlaterScope.symm, ?_⟩⟩
  exact hlt _ _ (by rw [slot?, hsymbol]; rfl) (by rw [slot?, hlater]; rfl)

theorem pairwise_byScope (h : ∀ scope, table.Dense scope) (hsize : table.size ≤ UInt32.size) :
    (table.byScope count).Pairwise table.Before := by
  refine List.pairwise_flatMap.mpr ⟨fun scope _ => pairwise_inScope (h scope) hsize, ?_⟩
  refine List.pairwise_lt_range.imp fun {scope outer} hlt id hid other hother => ?_
  obtain ⟨symbol, hsymbol, rfl⟩ := mem_inScope.mp hid
  obtain ⟨later, hlater, rfl⟩ := mem_inScope.mp hother
  exact ⟨symbol, later, hsymbol, hlater, .inl hlt⟩

theorem not_before_of_before {other : SymbolId} (h : table.Before id other) :
    ¬ table.Before other id := by
  obtain ⟨symbol, later, hsymbol, hlater, hlt⟩ := h
  rintro ⟨symbol', later', hsymbol', hlater', hgt⟩
  cases hlater'.symm.trans hsymbol
  cases hsymbol'.symm.trans hlater
  rcases hlt with hlt | ⟨heq, hlt⟩
  · rcases hgt with hgt | ⟨heq, -⟩
    · exact Nat.lt_asymm hlt hgt
    · exact Nat.ne_of_gt hlt heq
  · rcases hgt with hgt | ⟨-, hgt⟩
    · exact Nat.ne_of_gt hgt heq
    · exact UInt32.lt_asymm hlt hgt

theorem perm_byScope (h : ∀ scope, table.Dense scope) (hsize : table.size ≤ UInt32.size)
    (howned : ∀ id symbol, table.get? id = some symbol → symbol.scope < count) :
    (table.byScope count).Perm (List.range table.size) := by
  -- The symbols come in a strict order, so none comes twice.
  have hnodup : (table.byScope count).Nodup := by
    refine (pairwise_byScope h hsize).imp ?_
    rintro id _ hbefore rfl
    exact not_before_of_before hbefore hbefore
  refine (List.perm_ext_iff_of_nodup hnodup List.nodup_range).mpr fun id => ?_
  rw [mem_byScope, List.mem_range]
  constructor
  · rintro ⟨symbol, hsymbol, -⟩
    exact get?_lt_size hsymbol
  · intro hlt
    have hsymbol : table.get? id = some table.symbols[id] := Array.getElem?_eq_getElem hlt
    exact ⟨_, hsymbol, howned id _ hsymbol⟩

theorem filter_byScope (h : ∀ scope, table.Dense scope) (hsize : table.size ≤ UInt32.size)
    (howned : ∀ id symbol, table.get? id = some symbol → symbol.scope < count) (scope : ScopeId) :
    (table.byScope count).filter (fun id => (table.get? id).any (·.scope = scope)) =
      table.inScope scope := by
  have hperm : ((table.byScope count).filter
      fun id => (table.get? id).any (·.scope = scope)).Perm (table.inScope scope) :=
    (perm_byScope h hsize howned).filter _
  -- Both lists are in the strict order, so a permutation leaves nothing to move.
  refine hperm.eq_of_pairwise (fun id other _ _ hbefore hafter => ?_)
    ((pairwise_byScope h hsize).filter _) (pairwise_inScope (h scope) hsize)
  exact absurd hafter (not_before_of_before hbefore)

theorem map_slotsIn (ids : List SymbolId) :
    (table.slotsIn scope ids).map some =
      (ids.filter fun id => (table.get? id).any (·.scope = scope)).map
        fun id => (table.slot? id).map UInt32.toNat := by
  induction ids with
  | nil => rfl
  | cons id ids ih =>
    simp only [slotsIn] at ih ⊢
    cases hsymbol : table.get? id with
    | none => simp [hsymbol, ih]
    | some symbol => by_cases hscope : symbol.scope = scope <;> simp [hsymbol, hscope, slot?, ih]

theorem slotsIn_byScope (h : ∀ scope, table.Dense scope) (hsize : table.size ≤ UInt32.size)
    (howned : ∀ id symbol, table.get? id = some symbol → symbol.scope < count) (scope : ScopeId) :
    table.slotsIn scope (table.byScope count) = List.range (table.inScope scope).length := by
  apply List.map_injective_iff.mpr (Option.some_injective Nat)
  rw [map_slotsIn, filter_byScope h hsize howned, (h scope).map_toNat hsize]

end SymbolTable

namespace Model

variable {model : Model}

theorem shows_rowsOf {scope : ScopeId} {found : Scope} (hscope : model.scopes.get? scope = some found)
    {ids : List SymbolId}
    (h : ∀ id ∈ ids, ∃ symbol, model.symbols.get? id = some symbol ∧ symbol.scope = scope) :
    List.Forall₂ model.Shows ids ((ids.filterMap model.symbols.get?).map
      (.ofSymbol found.name (model.scopes.depth scope))) := by
  induction ids with
  | nil => exact .nil
  | cons id ids ih =>
    obtain ⟨symbol, hsymbol, rfl⟩ := h id List.mem_cons_self
    rw [List.filterMap_cons_some hsymbol, List.map_cons]
    exact .cons ⟨symbol, found, hsymbol, hscope, rfl⟩
      (ih fun other hother => h other (List.mem_cons_of_mem id hother))

theorem shows_listing (model : Model) :
    List.Forall₂ model.Shows (model.symbols.byScope model.scopes.size) model.listing := by
  have hsame : List.Forall₂ (fun scope other => scope = other ∧ scope < model.scopes.size)
      (List.range model.scopes.size) (List.range model.scopes.size) :=
    List.forall₂_same.mpr fun scope hscope => ⟨rfl, List.mem_range.mp hscope⟩
  refine List.rel_flatMap hsame ?_
  rintro scope _ ⟨rfl, hlt⟩
  have hscope : model.scopes.get? scope = some model.scopes.scopes[scope] :=
    Array.getElem?_eq_getElem hlt
  rw [rowsOf, hscope]
  exact shows_rowsOf hscope fun id hid => SymbolTable.mem_inScope.mp hid

/-- The rows show the symbols in some order. Each symbol comes once, the scopes come as they were
created, and the slots of a scope run from zero on. -/
structure ListsBy (model : Model) (order : List SymbolId) (rows : List SymbolRow) : Prop where
  complete : order.Perm (List.range model.symbols.size)
  rows : List.Forall₂ model.Shows order rows
  ordered : order.Pairwise model.symbols.Before
  slots : ∀ scope, ∃ count, model.symbols.slotsIn scope order = List.range count

theorem listsBy_byScope (hdense : ∀ scope, model.symbols.Dense scope)
    (hsize : model.symbols.size ≤ UInt32.size)
    (howned : ∀ id symbol, model.symbols.get? id = some symbol → symbol.scope < model.scopes.size) :
    model.ListsBy (model.symbols.byScope model.scopes.size) model.listing where
  complete := SymbolTable.perm_byScope hdense hsize howned
  rows := model.shows_listing
  ordered := SymbolTable.pairwise_byScope hdense hsize
  slots scope := ⟨_, SymbolTable.slotsIn_byScope hdense hsize howned scope⟩

/-- Each row has the line of the declaration and the lines of the uses. -/
theorem ListsBy.sum_lines {order : List SymbolId} {rows : List SymbolRow}
    (h : model.ListsBy order rows) {uses : SymbolId → Nat}
    (huses : ∀ id symbol, model.symbols.get? id = some symbol →
      symbol.references.toList.length = uses id) :
    (rows.map (·.lines.length)).sum =
      model.symbols.size + ((List.range model.symbols.size).map uses).sum := by
  have hlines : order.map (fun id => 1 + uses id) = rows.map (·.lines.length) := by
    rw [← List.forall₂_eq_eq_eq, List.forall₂_map_left_iff, List.forall₂_map_right_iff]
    refine h.rows.imp fun id row => ?_
    rintro ⟨symbol, scope, hsymbol, -, rfl⟩
    rw [← huses id symbol hsymbol, List.length_cons, Nat.add_comm]
  rw [← hlines, (h.complete.map _).sum_eq, List.sum_map_add]
  simp

end Model

namespace Resolution

variable {tree : Tree}

theorem rooted_run (builtins : Bool) {before : List Event} (hbefore : before <+: tree.events) :
    (run (.start builtins) before).scopes.Rooted := by
  induction before using List.reverseRecOn with
  | nil =>
    intro id hid hne
    have hone : (State.start builtins).scopes.size = 1 := by cases builtins <;> rfl
    rw [run_nil, hone] at hid
    omega
  | append_singleton before event ih =>
    have hprefix := (List.prefix_append _ _).trans hbefore
    -- Some scope is active at any time of a walk, so a scope that is created has a parent.
    rw [run_concat]
    rcases scopes_step (run (.start builtins) before) event with hsame | ⟨kind, name, hcreated⟩
    · rw [hsame]
      exact ih hprefix
    · rw [hcreated]
      exact ScopeTable.rooted_create (ih hprefix)
        (Option.isSome_iff_exists.mpr (exists_top builtins hprefix))

theorem layered_run (builtins : Bool) :
    (run (.start builtins) tree.events).scopes.Layered := by
  have hprefix := List.prefix_refl tree.events
  have hsound := sound_run (State.sound_start builtins) tree.events
  obtain ⟨top, htop⟩ := exists_top builtins hprefix
  exact ScopeTable.layered hsound.ordered (rooted_run builtins hprefix)
    (Nat.zero_lt_of_lt (hsound.lt_size top htop))

end Resolution

namespace Model

variable {tree : Tree}

def uses (model : Model) (tree : Tree) : List NodeId :=
  (tree.entered.filter fun item => (model.facts.resolution item.1).isSome).map Prod.fst

theorem nodup_uses (hwell : tree.WellLinked) (model : Model) : (model.uses tree).Nodup := by
  have hnodup : (tree.entered.map Prod.fst).Nodup := by
    rw [Tree.entered_eq]
    exact hwell.nodup_ids
  exact hnodup.sublist (List.filter_sublist.map _)

theorem mem_uses_iff {model : Model} {id : NodeId} : id ∈ model.uses tree ↔
    ∃ node symbol, (id, node) ∈ tree.entered ∧ model.facts.resolution id = some symbol := by
  simp only [uses, List.mem_map, List.mem_filter, Option.isSome_iff_exists]
  constructor
  · rintro ⟨⟨id, node⟩, ⟨hmem, symbol, hsymbol⟩, rfl⟩
    exact ⟨node, symbol, hmem, hsymbol⟩
  · rintro ⟨node, symbol, hmem, hsymbol⟩
    exact ⟨(id, node), ⟨hmem, symbol, hsymbol⟩, rfl⟩

end Model

namespace Typing.SameNames

variable {tree : Tree} {builtins : Bool} {last : State}
  (hsame : SameNames (Resolution.run (.start builtins) tree.events) last)

include hsame

theorem listsBy_byScope (hwell : tree.WellLinked) (hsize : tree.size < 2 ^ 32 - 2) :
    last.toModel.ListsBy (last.toModel.symbols.byScope last.toModel.scopes.size)
      last.toModel.listing := by
  have hslotted := Resolution.slotted_run (State.slotted_start builtins)
    (State.sound_start builtins) tree.events
  have hcount := Resolution.size_symbols_run_le hwell builtins
  have hfew : last.symbols.size ≤ UInt32.size := by
    rw [hsame.symbols, show UInt32.size = 2 ^ 32 from rfl]
    omega
  refine Model.listsBy_byScope ?_ hfew ?_
  · simp only [State.toModel, hsame.symbols]
    exact hslotted.dense
  · simp only [State.toModel, hsame.symbols, hsame.scopes]
    exact hslotted.owned

theorem mem_uses_iff_resolves (hwell : tree.WellLinked) {id : NodeId} :
    id ∈ last.toModel.uses tree ↔ last.toModel.Resolves tree id := by
  rw [Model.mem_uses_iff]
  constructor
  · rintro ⟨-, symbol, -, hsymbol⟩
    obtain ⟨node, name, -, hmem, huses, -, -⟩ :=
      Resolution.exists_resolved hwell ((hsame.resolution_eq id).symm.trans hsymbol)
    obtain ⟨hid, hnode⟩ := hwell.mem_entered_iff.mp hmem
    exact ⟨node, name, symbol, hid, hnode, huses, hsymbol⟩
  · rintro ⟨node, name, symbol, hid, hnode, -, hsymbol⟩
    exact ⟨node, symbol, hwell.mem_entered_iff.mpr ⟨hid, hnode⟩, hsymbol⟩

/-- The references of a symbol are the uses that are resolved to it, so together they are all the
uses that are resolved. -/
theorem sum_references (hwell : tree.WellLinked) {order : List SymbolId} {rows : List SymbolRow}
    (hlists : last.toModel.ListsBy order rows) :
    (rows.map (·.lines.length)).sum =
      last.toModel.symbols.size + (last.toModel.uses tree).length := by
  have haccounts := Resolution.accounts_run hwell builtins (List.prefix_refl tree.events)
  have huses : ∀ id symbol, last.toModel.symbols.get? id = some symbol →
      symbol.references.toList.length =
        tree.entered.countP fun item => last.facts.resolution item.1 = some id := by
    intro id symbol hsymbol
    rw [State.toModel, hsame.symbols] at hsymbol
    rw [haccounts.references id symbol hsymbol, List.length_map, ← List.countP_eq_length_filter]
    simp only [hsame.resolution_eq]
    rfl
  have hresolved : ∀ item ∈ tree.entered, ∀ id, last.facts.resolution item.1 = some id →
      id < last.toModel.symbols.size := by
    intro item hitem id hid
    rw [State.toModel, hsame.symbols]
    exact haccounts.resolved item hitem id ((hsame.resolution_eq item.1).symm.trans hid)
  rw [hlists.sum_lines huses, sum_countP_eq _ hresolved, Model.uses, List.length_map,
    List.countP_eq_length_filter]
  rfl

end Typing.SameNames

/-- The listing of a model is complete and in order, and it has a line for each symbol and each use
that is resolved. -/
theorem listing_of_analyze {text : String} {tree : Tree} (h : Tree.ofText text = .ok tree)
    (hsize : tree.size < 2 ^ 32 - 2) {builtins : Bool} {model : Model}
    (hmodel : analyze builtins tree = .ok model) :
    model.scopes.kind? State.global = some .global ∧ model.scopes.Layered ∧
    (∃ order, model.ListsBy order model.listing) ∧
    ∃ uses : List NodeId, uses.Nodup ∧ (∀ id, id ∈ uses ↔ model.Resolves tree id) ∧
      (model.listing.map (·.lines.length)).sum = model.symbols.size + uses.length := by
  have hwell := Tree.wellLinked_of_ofText h
  obtain ⟨-, typed, hrun, -, rfl⟩ := analyze_eq_ok_iff.mp hmodel
  have hsame := Typing.sameNames_run hrun
  have hlists := hsame.listsBy_byScope hwell hsize
  rw [show typed.base.toModel.scopes = _ from hsame.scopes]
  exact ⟨(Resolution.outermost_run builtins tree.events).1, Resolution.layered_run builtins,
    ⟨_, hlists⟩, typed.base.toModel.uses tree, Model.nodup_uses hwell _,
    fun _ => hsame.mem_uses_iff_resolves hwell, hsame.sum_references hwell hlists⟩

/-- The parameter is declared before the last variable, and listed after it. -/
def mingledText : String :=
  "[0,[\x7b\"kind\":\"fun\",\"name\":\"f\",\"type\":\"void\",\"line\":1,\"children\":[1,2],\"sibling\":4\x7d,"
    ++ "\x7b\"kind\":\"param\",\"name\":\"x\",\"type\":\"integer\",\"line\":2\x7d,"
    ++ "\x7b\"kind\":\"compound\",\"children\":[3]\x7d,"
    ++ "\x7b\"kind\":\"id\",\"name\":\"x\",\"line\":3\x7d,"
    ++ "\x7b\"kind\":\"var\",\"name\":\"y\",\"type\":\"array\",\"line\":5\x7d]]"

def mingledTree : Tree where
  nodes := #[
    ⟨.declaration ⟨.function, "f", .void, none⟩, 1, ⟨some 1, some 2, none⟩, some 4⟩,
    .leaf (.declaration ⟨.parameter, "x", .integer, none⟩) 2,
    ⟨.statement .block, 0, ⟨some 3, none, none⟩, none⟩,
    .leaf (.expression (.identifier "x")) 3,
    .leaf (.declaration ⟨.variable, "y", .array, none⟩) 5]
  root := some 0

theorem ofText_mingledText : Tree.ofText mingledText = .ok mingledTree :=
  Tree.ofText_eq_ok
    (ofList_append (ofList_append (ofList_append (ofList_append rfl rfl) rfl) rfl) rfl)
    (by decide +kernel)

theorem listing_mingledTree :
    Tree.ofText mingledText = .ok mingledTree ∧ mingledTree.size < 2 ^ 32 - 2 ∧
      ∃ model, analyze false mingledTree = .ok model ∧
        (∃ order, model.ListsBy order model.listing) ∧ model.scopes.Layered ∧
        model.listing = [⟨"f", .function, .void, 0, "Global", 0, [1]⟩,
          ⟨"y", .variable, .array, 1, "Global", 0, [5]⟩,
          ⟨"x", .parameter, .integer, 0, "f", 1, [2, 3]⟩] ∧
        ∃ uses : List NodeId, uses.Nodup ∧ (∀ id, id ∈ uses ↔ model.Resolves mingledTree id) ∧
          uses.length = 1 := by
  obtain ⟨model, hmodel⟩ : ∃ model, analyze false mingledTree = .ok model := ⟨_, rfl⟩
  have hsize : mingledTree.size < 2 ^ 32 - 2 := by decide
  obtain ⟨-, hlayered, hlists, uses, hnodup, hmem, hsum⟩ :=
    listing_of_analyze ofText_mingledText hsize hmodel
  have hlisting : model.listing = [⟨"f", .function, .void, 0, "Global", 0, [1]⟩,
      ⟨"y", .variable, .array, 1, "Global", 0, [5]⟩,
      ⟨"x", .parameter, .integer, 0, "f", 1, [2, 3]⟩] := by
    cases hmodel
    decide +kernel
  have hsymbols : model.symbols.size = 3 := by
    cases hmodel
    rfl
  refine ⟨ofText_mingledText, hsize, model, hmodel, hlists, hlayered, hlisting, uses, hnodup, hmem, ?_⟩
  rw [hlisting, hsymbols] at hsum
  simp only [List.map_cons, List.map_nil, List.length_cons, List.length_nil, List.sum_cons,
    List.sum_nil] at hsum
  omega

end ScopeCheck
