import ScopeCheck.Proofs.Analysis.Interior
import ScopeCheck.Proofs.Analysis.ScopeCreation
import ScopeCheck.Proofs.Scope.Renaming
import ScopeCheck.Proofs.Tree.Appending

namespace ScopeCheck

namespace ScopeTable

/-- The scopes of one table are the first ones of a later one, where the global scope may have more
children. -/
def IsStartOf (table later : ScopeTable) : Prop :=
  ∀ (id : Nat) scope, table.get? id = some scope → ∃ added : Array ScopeId,
    later.get? id = some { scope with children := scope.children ++ added } ∧
      (id ≠ State.global → added = #[])

namespace IsStartOf

variable {table later : ScopeTable} {kind : ScopeKind} {name : String} {parent : Option ScopeId}

theorem refl (table : ScopeTable) : table.IsStartOf table := by
  intro id scope hscope
  refine ⟨#[], ?_, fun _ => rfl⟩
  rw [Array.append_empty]
  exact hscope

theorem create (h : table.IsStartOf later) (hsize : table.size ≤ later.size)
    (hparent : ∀ outer : Nat, parent = some outer → outer < later.size)
    (houter : ∀ outer : Nat, parent = some outer → outer = State.global ∨ table.size ≤ outer) :
    table.IsStartOf (later.create kind name parent) := by
  intro id scope hscope
  obtain ⟨added, hlater, hadded⟩ := h id scope hscope
  have hlt : id < table.size := Nat.lt_of_not_le fun hle => by
    rw [get?_eq_none_iff.mpr hle] at hscope
    cases hscope
  rw [get?_create hparent, if_neg (Nat.ne_of_lt (Nat.lt_of_lt_of_le hlt hsize)), hlater,
    Option.map_some]
  by_cases hid : parent = some id
  · -- An old scope is the parent of a new one only if it is the global scope.
    have hglobal : id = State.global := (houter id hid).resolve_right (Nat.not_le_of_gt hlt)
    refine ⟨added.push later.size, ?_, fun hne => absurd hglobal hne⟩
    rw [if_pos hid, Array.append_push]
  · exact ⟨added, by rw [if_neg hid], hadded⟩

end IsStartOf

end ScopeTable

namespace SymbolTable

/-- The symbols of one table are the first ones of a later one, where they may be referred to from
more lines. -/
def IsStartOf (table later : SymbolTable) : Prop :=
  ∀ id symbol, table.get? id = some symbol → ∃ lines : Array UInt32,
    later.get? id = some { symbol with references := symbol.references ++ lines }

namespace IsStartOf

variable {table later : SymbolTable}

theorem refl (table : SymbolTable) : table.IsStartOf table := by
  intro id symbol hsymbol
  refine ⟨#[], ?_⟩
  rw [Array.append_empty]
  exact hsymbol

theorem declare (h : table.IsStartOf later) (scope : ScopeId) (slot : UInt32)
    (definition : Definition) : table.IsStartOf (later.declare scope slot definition) := by
  intro id symbol hsymbol
  obtain ⟨lines, hlater⟩ := h id symbol hsymbol
  refine ⟨lines, ?_⟩
  rw [get?_declare, if_neg (Nat.ne_of_lt (get?_lt_size hlater)), hlater]

theorem addReference (h : table.IsStartOf later) (id : SymbolId) (line : UInt32) :
    table.IsStartOf (later.addReference id line) := by
  intro other symbol hsymbol
  obtain ⟨lines, hlater⟩ := h other symbol hsymbol
  rw [get?_addReference, hlater]
  by_cases hid : id = other
  · refine ⟨lines.push line, ?_⟩
    rw [if_pos hid, Option.map_some, Array.append_push]
  · exact ⟨lines, if_neg hid⟩

end IsStartOf

end SymbolTable

namespace Resolution

variable {state : State}

/-- What a step does to the symbols: one is declared, or one is referred to, or nothing happens. -/
theorem symbols_step (state : State) (event : Event) :
    (step state event).symbols = state.symbols ∨
      (∃ scope slot definition,
        (step state event).symbols = state.symbols.declare scope slot definition) ∨
      ∃ id line, (step state event).symbols = state.symbols.addReference id line := by
  cases event with
  | leave id node => exact .inl (keepsNames_leave state id node).symbols
  | enter id node =>
    cases hdeclares : node.label.declares? with
    | some decl =>
      rw [(keepsNames_enter_declaration hdeclares).symbols]
      simp only [declareUnique]
      split
      · exact .inl rfl
      · simp only [State.declare]
        split
        · exact .inr (.inl ⟨_, _, _, rfl⟩)
        · exact .inl rfl
    | none =>
      cases huses : node.label.uses? with
      | none => exact .inl (keepsNames_enter_silent hdeclares huses).symbols
      | some name =>
        rw [enter_use state id huses, resolve]
        split
        · exact .inr (.inr ⟨_, _, rfl⟩)
        · exact .inl rfl

theorem symbols_isStartOf_run (events : List Event) :
    state.symbols.IsStartOf (run state events).symbols := by
  induction events using List.reverseRecOn with
  | nil => exact .refl _
  | append_singleton before event ih =>
    rw [run_concat]
    rcases symbols_step (run state before) event with hsame | ⟨scope, slot, definition, hdeclared⟩ |
      ⟨id, line, hreferred⟩
    · rwa [hsame]
    · rw [hdeclared]
      exact ih.declare scope slot definition
    · rw [hreferred]
      exact ih.addReference id line

/-- A walk that starts in the global scope makes scopes in there and in scopes that it has made. -/
theorem scopes_isStartOf_run (hsound : state.Sound) (hglobal : state.active.scopes = [State.global])
    (events : List Event) : state.scopes.IsStartOf (run state events).scopes := by
  induction events using List.reverseRecOn with
  | nil => exact .refl _
  | append_singleton before event ih =>
    rw [run_concat]
    rcases scopes_step (run state before) event with hsame | ⟨kind, name, hcreated⟩
    · rwa [hsame]
    · rw [hcreated]
      refine ih.create (grows_run before).scopes.size_le (sound_run hsound before).lt_size ?_
      intro outer houter
      -- Whatever is active is the global scope, or it has been made on this walk.
      have hmem : outer ∈ (run state before).active.scopes := by
        rw [State.top_eq_head?] at houter
        exact List.mem_of_head? houter
      rcases mem_scopes_run hmem with hold | hnew
      · rw [hglobal] at hold
        exact .inl (List.mem_singleton.mp hold)
      · exact .inr hnew

theorem run_relink (state : State) (last next : NodeId) (events : List Event) :
    run state (events.map (Event.mapNode (Node.relink last next))) = run state events := by
  induction events generalizing state with
  | nil => rfl
  | cons event events ih =>
    have hstep : step state (event.mapNode (Node.relink last next)) = step state event := by
      cases event with
      | enter id node =>
        simp only [Event.mapNode, step, enter, Node.relink_label, Node.relink_line]
      | leave id node => simp only [Event.mapNode, step, leave, Node.relink_label]
    rw [List.map_cons, run_cons, run_cons, hstep, ih]

end Resolution

namespace Tree.ContinuedBy

variable {tree later : Tree} {last next : NodeId} (h : tree.ContinuedBy later last next)
  (hwell : tree.WellLinked) (hlater : later.WellLinked) {builtins : Bool} {id : NodeId}

include h hwell hlater

theorem run_eq : Resolution.run (.start builtins) later.events =
    Resolution.run (Resolution.run (.start builtins) tree.events) (later.eventsFrom (some next)) := by
  rw [h.events_eq hwell hlater, Resolution.run_append, Resolution.run_relink]

theorem not_mem_enter (hid : id < tree.size) (node : Node) :
    .enter id node ∉ later.eventsFrom (some next) := by
  intro hmem
  rw [eventsFrom, ← events_forestUpTo, ← Forest.mem_entered] at hmem
  exact Nat.not_le_of_gt hid (h.size_le_of_next hwell hlater (Forest.id_mem_ids hmem))

/-- What is found out about the old nodes is settled when the walk comes to the new ones. -/
theorem facts_eq (hid : id < tree.size) :
    (Resolution.run (.start builtins) later.events).facts.scopeOf id =
        (Resolution.run (.start builtins) tree.events).facts.scopeOf id ∧
      (Resolution.run (.start builtins) later.events).facts.resolution id =
        (Resolution.run (.start builtins) tree.events).facts.resolution id ∧
      (Resolution.run (.start builtins) later.events).facts.declared id =
        (Resolution.run (.start builtins) tree.events).facts.declared id := by
  have hnever := h.not_mem_enter hwell hlater hid
  rw [h.run_eq hwell hlater]
  exact ⟨Resolution.scopeOf_run_of_not_mem hnever, Resolution.resolution_run_of_not_mem hnever,
    Resolution.declared_run_of_not_mem hnever⟩

theorem symbols_isStartOf :
    (Resolution.run (.start builtins) tree.events).symbols.IsStartOf
      (Resolution.run (.start builtins) later.events).symbols := by
  rw [h.run_eq hwell hlater]
  exact Resolution.symbols_isStartOf_run _

theorem scopes_isStartOf (hleaks : tree.leakCount = 0) :
    (Resolution.run (.start builtins) tree.events).scopes.IsStartOf
      (Resolution.run (.start builtins) later.events).scopes := by
  rw [h.run_eq hwell hlater]
  exact Resolution.scopes_isStartOf_run (Resolution.sound_run (State.sound_start builtins) _)
    (Resolution.balanced_run builtins hwell hleaks).2 _

end Tree.ContinuedBy

end ScopeCheck
