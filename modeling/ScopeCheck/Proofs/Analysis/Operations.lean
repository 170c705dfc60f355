import ScopeCheck.Proofs.Analysis.ActivePath
import ScopeCheck.Proofs.Symbol.Latest

namespace ScopeCheck

/-- What is done to the shared state in the course of an analysis. -/
inductive Operation where
  | openScope (kind : ScopeKind)
  | enterFunction (name : String)
  | push (scope : ScopeId)
  | pop
  | declare (node : Option NodeId) (definition : Definition)
  | addReference (node : NodeId) (symbol : SymbolId) (line : UInt32)
  | report (diagnostic : Diagnostic)
  | expect (entry : BlockEntry)

namespace State

def perform (state : State) : Operation → State
  | .openScope kind => state.openScope kind
  | .enterFunction name => state.enterFunction name
  | .push scope => state.push scope
  | .pop => state.pop
  | .declare node definition => state.declare node definition
  | .addReference node symbol line => state.addReference node symbol line
  | .report diagnostic => state.report diagnostic
  | .expect entry => state.expect entry

/-- An operation is about a scope or a symbol that is there. -/
def Allows (state : State) : Operation → Prop
  | .push scope => scope < state.scopes.size
  | .addReference _ symbol _ => symbol < state.symbols.size
  | _ => True

/-- Operations lead from one state to another, each allowed when its turn comes. -/
inductive Performs : State → List Operation → State → Prop where
  | nil (state : State) : Performs state [] state
  | cons {state later : State} {operation : Operation} {operations : List Operation} :
    state.Allows operation → Performs (state.perform operation) operations later →
      Performs state (operation :: operations) later

variable {state later : State} {operation : Operation} {operations : List Operation}

theorem Performs.exists_between {before after : List Operation}
    (h : Performs state (before ++ after) later) :
    ∃ between, Performs state before between ∧ Performs between after later := by
  induction before generalizing state with
  | nil => exact ⟨state, .nil state, h⟩
  | cons operation before ih =>
    obtain _ | ⟨hallows, hrest⟩ := h
    obtain ⟨between, hbefore, hafter⟩ := ih hrest
    exact ⟨between, .cons hallows hbefore, hafter⟩

theorem Performs.unique {other : State} (h : Performs state operations later)
    (h' : Performs state operations other) : later = other := by
  induction h with
  | nil => cases h'; rfl
  | cons _ _ ih =>
    obtain _ | ⟨-, hrest⟩ := h'
    exact ih hrest

/-- Only opening, leaving and pushing change which scopes there are and which are active. -/
theorem perform_cases (state : State) (operation : Operation) :
    (∃ scope, operation = .push scope) ∨ operation = .pop ∨
    (∃ name kind,
      state.perform operation = ({ state with function := name } : State).openScope kind) ∨
    ((state.perform operation).scopes = state.scopes ∧
      (state.perform operation).active.scopes = state.active.scopes ∧
      (state.perform operation).function = state.function) := by
  cases operation with
  | push scope => exact .inl ⟨scope, rfl⟩
  | pop => exact .inr (.inl rfl)
  | openScope kind => exact .inr (.inr (.inl ⟨state.function, kind, rfl⟩))
  | enterFunction name => exact .inr (.inr (.inl ⟨name, .function, rfl⟩))
  | declare node definition =>
    exact .inr (.inr (.inr ⟨state.declare_scopes node definition,
      state.declare_scopes_active node definition, state.declare_function node definition⟩))
  | addReference | report | expect => exact .inr (.inr (.inr ⟨rfl, rfl, rfl⟩))

theorem named_perform (h : state.Named) (hallows : state.Allows operation) :
    (state.perform operation).Named := by
  rcases state.perform_cases operation with
    ⟨scope, rfl⟩ | rfl | ⟨name, kind, hopens⟩ | ⟨hscopes, hactive, hfunction⟩
  · exact h.push hallows
  · exact h.pop
  · rw [hopens]
    exact h.openNamed name kind
  · exact h.of_same hscopes hactive hfunction

theorem placed_perform (h : state.Placed) (hpush : ∀ scope, operation ≠ .push scope) :
    (state.perform operation).Placed := by
  rcases state.perform_cases operation with
    ⟨scope, rfl⟩ | rfl | ⟨name, kind, hopens⟩ | ⟨hscopes, hactive, hfunction⟩
  · exact absurd rfl (hpush scope)
  · exact h.pop
  · rw [hopens]
    exact h.openNamed name kind
  · exact h.of_same hscopes hactive hfunction

theorem upToDate_perform (h : state.symbols.UpToDate) (operation : Operation) :
    (state.perform operation).symbols.UpToDate := by
  cases operation with
  | pop =>
    obtain ⟨active, function, hpop⟩ := state.pop_frame
    rw [perform, hpop]
    exact h
  | declare node definition =>
    simp only [perform, declare]
    split
    · exact SymbolTable.upToDate_declare h
    · exact h
  | addReference => exact SymbolTable.upToDate_addReference h
  | openScope | enterFunction | push | report | expect => exact h

/-- A scope is there and has been left. -/
def Left (state : State) (scope : ScopeId) : Prop :=
  scope < state.scopes.size ∧ scope ∉ state.active.scopes

theorem left_perform {scope : ScopeId} (h : state.Left scope)
    (hpush : ∀ other, operation ≠ .push other) : (state.perform operation).Left scope := by
  obtain ⟨hlt, hscope⟩ := h
  rcases state.perform_cases operation with
    ⟨other, rfl⟩ | rfl | ⟨name, kind, hopens⟩ | ⟨hscopes, hactive, -⟩
  · exact absurd rfl (hpush other)
  · obtain ⟨active, function, hpop⟩ := state.pop_frame
    refine ⟨by rw [perform, hpop]; exact hlt, ?_⟩
    rw [perform, pop_active, ActiveScopes.scopes_pop]
    exact fun hmem => hscope (List.mem_of_mem_tail hmem)
  · rw [hopens]
    refine ⟨?_, ?_⟩
    · show scope < (state.scopes.create kind name state.top).size
      rw [ScopeTable.size_create]
      exact Nat.lt_succ_of_lt hlt
    · rw [openScope_active, ActiveScopes.scopes_push]
      exact List.not_mem_cons_of_ne_of_not_mem (Nat.ne_of_lt hlt) hscope
  · exact ⟨hscopes ▸ hlt, hactive ▸ hscope⟩

theorem Placed.left_pop (h : state.Placed) {popped : ScopeId} (htop : state.top = some popped) :
    state.pop.Left popped := by
  obtain ⟨active, function, hpop⟩ := state.pop_frame
  refine ⟨by rw [hpop]; exact h.lt_size_top htop, ?_⟩
  rw [pop_active, ActiveScopes.scopes_pop]
  have hnodup := h.nodup_scopes
  obtain ⟨rest, hscopes⟩ := List.head?_eq_some_iff.mp (state.top_eq_head? ▸ htop)
  rw [hscopes, List.nodup_cons] at hnodup
  rw [hscopes]
  exact hnodup.1

namespace Performs

theorem named (h : Performs state operations later) (hstate : state.Named) : later.Named := by
  induction h with
  | nil => exact hstate
  | cons hallows _ ih => exact ih (named_perform hstate hallows)

theorem upToDate (h : Performs state operations later) (hstate : state.symbols.UpToDate) :
    later.symbols.UpToDate := by
  induction h with
  | nil => exact hstate
  | cons _ _ ih => exact ih (upToDate_perform hstate _)

/-- What each operation but a push preserves is preserved by operations without a push. -/
theorem preserves {P : State → Prop} (h : Performs state operations later)
    (hstep : ∀ state operation, P state → (∀ scope, operation ≠ .push scope) →
      P (state.perform operation))
    (hpush : ∀ scope, .push scope ∉ operations) (hstate : P state) : P later := by
  induction h with
  | nil => exact hstate
  | cons _ _ ih =>
    refine ih (fun scope hscope => hpush scope (List.mem_cons_of_mem _ hscope)) ?_
    refine hstep _ _ hstate ?_
    rintro scope rfl
    exact hpush scope List.mem_cons_self

theorem placed (h : Performs state operations later) (hpush : ∀ scope, .push scope ∉ operations)
    (hstate : state.Placed) : later.Placed :=
  h.preserves (fun _ _ => placed_perform) hpush hstate

theorem left (h : Performs state operations later) (hpush : ∀ scope, .push scope ∉ operations)
    {scope : ScopeId} (hstate : state.Left scope) : later.Left scope :=
  h.preserves (P := fun state => state.Left scope) (fun _ _ => left_perform) hpush hstate

end Performs

/-- A scope that was the innermost one when one of the operations popped it. -/
def Popped (operations : List Operation) (scope : ScopeId) : Prop :=
  ∃ before after state, operations = before ++ .pop :: after ∧
    Performs initial before state ∧ state.top = some scope

theorem Performs.left_of_popped (h : Performs initial operations state)
    (hpush : ∀ scope, .push scope ∉ operations) {popped : ScopeId}
    (hpopped : Popped operations popped) : state.Left popped := by
  obtain ⟨before, after, earlier, rfl, hbefore, htop⟩ := hpopped
  obtain ⟨between, hbetween, hafter⟩ := h.exists_between
  obtain rfl := hbetween.unique hbefore
  obtain _ | ⟨-, hafter⟩ := hafter
  have hplaced := hbefore.placed (fun scope hmem => hpush scope (List.mem_append_left _ hmem))
    placed_initial
  -- The scope has been left right after the pop, and nothing makes it active later.
  refine hafter.left (fun scope hmem => hpush scope ?_) (hplaced.left_pop htop)
  exact List.mem_append_right _ (List.mem_cons_of_mem _ hmem)

/-- A name means the last symbol declared under it in the innermost active scope that has it. -/
theorem Placed.lookup_eq_some_iff (h : state.Placed) (hsymbols : state.symbols.UpToDate)
    {name : String} {id : SymbolId} :
    state.lookup name = some id ↔
      ∃ inner scope outer, state.active.scopes = inner ++ scope :: outer ∧
        state.symbols.Latest name scope id ∧
          ∀ other ∈ inner, ∀ found, ¬ state.symbols.Has name other found := by
  simp only [h.lookup_eq, List.findSome?_eq_some_iff, hsymbols.lookupLocal_eq_some_iff,
    hsymbols.lookupLocal_eq_none_iff]

/-- After any operations the current function is named like the innermost active scope. If none of
them is a push, the active scopes are the way outward from there, and names are looked up along it. -/
theorem performs_in_step (h : Performs initial operations state) :
    (∀ top, state.top = some top → state.scopes.name? top = some state.function ∧
      ∀ name, state.lookupLocal state.function name = state.symbols.lookupLocal name top) ∧
    ((∀ scope, .push scope ∉ operations) →
      (∀ top, state.top = some top → state.active.scopes = state.scopes.ancestors top) ∧
      (∀ name id, state.lookup name = some id ↔
        ∃ inner scope outer, state.active.scopes = inner ++ scope :: outer ∧
          state.symbols.Latest name scope id ∧
            ∀ other ∈ inner, ∀ found, ¬ state.symbols.Has name other found) ∧
      ∀ popped, Popped operations popped → popped ∉ state.active.scopes ∧
        ∀ name id, state.lookup name = some id → ¬ state.symbols.Has name popped id) := by
  have hnamed := h.named placed_initial.toNamed
  have hsymbols := h.upToDate SymbolTable.upToDate_empty
  refine ⟨fun top htop => ⟨hnamed.current top htop, hnamed.lookupLocal_eq htop⟩, fun hpush => ?_⟩
  have hplaced := h.placed hpush placed_initial
  refine ⟨fun top htop => (hplaced.path top htop).symm,
    fun name id => hplaced.lookup_eq_some_iff hsymbols, fun popped hpopped => ?_⟩
  have hleft := h.left_of_popped hpush hpopped
  refine ⟨hleft.2, fun name id hlookup hhas => ?_⟩
  obtain ⟨inner, scope, outer, hscopes, hlatest, -⟩ :=
    (hplaced.lookup_eq_some_iff hsymbols).mp hlookup
  obtain rfl := hlatest.1.scope_unique hhas
  exact hleft.2 (by simp [hscopes])

/-- All scopes are left, a block is opened in none, and a name is declared twice in it. -/
def outsideOperations : List Operation := [
  .declare none ⟨"x", .variable, .integer, 1, .node 0⟩,
  .enterFunction "f",
  .declare none ⟨"y", .variable, .integer, 2, .node 1⟩,
  .addReference 2 1 3,
  .pop,
  .pop,
  .openScope .block,
  .declare none ⟨"x", .variable, .integer, 4, .node 3⟩,
  .declare none ⟨"x", .variable, .array, 5, .node 4⟩]

theorem performs_outsideOperations :
    ∃ state, Performs initial outsideOperations state ∧ state.top = some 2 ∧
      state.scopes.name? 2 = some state.function ∧
      state.active.scopes = state.scopes.ancestors 2 ∧ state.lookup "x" = some 3 ∧
      Popped outsideOperations 1 ∧ state.symbols.Has "y" 1 1 ∧ state.lookup "y" ≠ some 1 := by
  obtain ⟨state, hperforms, hstate⟩ : ∃ state, Performs initial outsideOperations state ∧
      state = outsideOperations.foldl perform initial :=
    ⟨_, .cons trivial (.cons trivial (.cons trivial (.cons Nat.one_lt_two (.cons trivial (.cons trivial
      (.cons trivial (.cons trivial (.cons trivial (.nil _))))))))), rfl⟩
  have htop : state.top = some 2 := by rw [hstate]; rfl
  have hscopes : state.active.scopes = [2] := by rw [hstate]; rfl
  have hpush : ∀ scope, .push scope ∉ outsideOperations := by
    intro scope hmem
    simp [outsideOperations] at hmem
  obtain ⟨hnamed, hrest⟩ := performs_in_step hperforms
  obtain ⟨hpath, hlookup, hpopped⟩ := hrest hpush
  have hleft : Popped outsideOperations 1 :=
    ⟨outsideOperations.take 4, outsideOperations.drop 5, _, rfl,
      .cons trivial (.cons trivial (.cons trivial (.cons Nat.one_lt_two (.nil _)))), rfl⟩
  have hhas : state.symbols.Has "y" 1 1 := by
    rw [hstate]
    exact ⟨_, rfl, rfl, rfl⟩
  refine ⟨state, hperforms, htop, (hnamed 2 htop).1, hpath 2 htop, ?_, hleft, hhas, ?_⟩
  · refine (hlookup "x" 3).mpr ⟨[], 2, [], hscopes, ⟨?_, fun other hother => ?_⟩, nofun⟩
    · rw [hstate]
      exact ⟨_, rfl, rfl, rfl⟩
    · have hlt := hother.lt_size
      rw [hstate] at hlt
      exact Nat.le_of_lt_succ hlt
  · exact fun hfound => (hpopped 1 hleft).2 "y" 1 hfound hhas

end State

end ScopeCheck
