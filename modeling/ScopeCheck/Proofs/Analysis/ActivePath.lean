import ScopeCheck.Proofs.Analysis.State
import ScopeCheck.Proofs.Scope.Ancestors

namespace ScopeCheck.State

variable {state later : State}

/-- The active scopes are there, and the innermost one is named like the current function. -/
structure Named (state : State) : Prop where
  lt_size : ∀ scope : Nat, scope ∈ state.active.scopes → scope < state.scopes.size
  current : ∀ top, state.top = some top → state.scopes.name? top = some state.function

theorem name?_eq_scopeName {scope : Nat} (h : scope < state.scopes.size) :
    state.scopes.name? scope = some (state.scopeName scope) := by
  have hscope : state.scopes.get? scope = some state.scopes.scopes[scope] :=
    Array.getElem?_eq_getElem h
  simp [scopeName, ScopeTable.name?, hscope]

namespace Named

theorem of_same (h : state.Named) (hscopes : later.scopes = state.scopes)
    (hactive : later.active.scopes = state.active.scopes)
    (hfunction : later.function = state.function) : later.Named where
  lt_size := by
    rw [hscopes, hactive]
    exact h.lt_size
  current := by
    rw [later.top_eq_head?, hactive, ← state.top_eq_head?, hscopes, hfunction]
    exact h.current

theorem openNamed (h : state.Named) (name : String) (kind : ScopeKind) :
    (({ state with function := name } : State).openScope kind).Named where
  lt_size scope hscope := by
    show scope < (state.scopes.create kind name state.top).size
    rw [ScopeTable.size_create]
    rcases List.mem_cons.mp hscope with rfl | hscope
    · exact Nat.lt_succ_self _
    · exact Nat.lt_succ_of_lt (h.lt_size scope hscope)
  current top htop := by
    obtain rfl : state.scopes.size = top := Option.some.inj htop
    show (state.scopes.create kind name state.top).name? state.scopes.size = some name
    rw [ScopeTable.name?_create, if_pos rfl]

theorem push (h : state.Named) {scope : Nat} (hscope : scope < state.scopes.size) :
    (state.push scope).Named where
  lt_size other hother := by
    rcases List.mem_cons.mp hother with rfl | hother
    · exact hscope
    · exact h.lt_size other hother
  current top htop := by
    obtain rfl : scope = top := Option.some.inj htop
    exact name?_eq_scopeName hscope

theorem pop (h : state.Named) : state.pop.Named := by
  obtain ⟨active, function, hpop⟩ := state.pop_frame
  have hscopes : state.pop.scopes = state.scopes := by rw [hpop]
  have hlt : ∀ scope : Nat, scope ∈ state.pop.active.scopes → scope < state.scopes.size := by
    intro scope hscope
    rw [pop_active, ActiveScopes.scopes_pop] at hscope
    exact h.lt_size scope (List.mem_of_mem_tail hscope)
  refine ⟨hscopes ▸ hlt, fun top htop => ?_⟩
  -- The current function is read off the scope that is innermost now, which is there.
  have hfunction : state.pop.function = state.scopeName top := by
    have htop' : state.active.pop.top = some top := by rw [← pop_active]; exact htop
    simp [State.pop, htop']
  have hmem : top ∈ state.pop.active.scopes := List.mem_of_head? (state.pop.top_eq_head? ▸ htop)
  rw [hscopes, hfunction, name?_eq_scopeName (hlt top hmem)]

theorem lookupLocal_eq (h : state.Named) {top : ScopeId} (htop : state.top = some top)
    (name : String) : state.lookupLocal state.function name = state.symbols.lookupLocal name top := by
  rw [lookupLocal, htop]
  exact if_pos (h.current top htop)

end Named

/-- The active scopes are moreover the way outward from the innermost one. -/
structure Placed (state : State) : Prop extends state.Named where
  ordered : state.scopes.Ordered
  path : ∀ top, state.top = some top → state.scopes.ancestors top = state.active.scopes

namespace Placed

theorem lt_size_top (h : state.Placed) {top : Nat} (htop : state.top = some top) :
    top < state.scopes.size :=
  h.lt_size top (List.mem_of_head? (state.top_eq_head? ▸ htop))

theorem outward_top (h : state.Placed) : state.scopes.outward state.top = state.active.scopes := by
  cases htop : state.top with
  | none =>
    rw [state.top_eq_head?, List.head?_eq_none_iff] at htop
    rw [htop]
    rfl
  | some top => exact h.path top htop

theorem of_same (h : state.Placed) (hscopes : later.scopes = state.scopes)
    (hactive : later.active.scopes = state.active.scopes)
    (hfunction : later.function = state.function) : later.Placed where
  toNamed := h.toNamed.of_same hscopes hactive hfunction
  ordered := hscopes ▸ h.ordered
  path := by
    rw [later.top_eq_head?, hactive, ← state.top_eq_head?, hscopes]
    exact h.path

theorem openNamed (h : state.Placed) (name : String) (kind : ScopeKind) :
    (({ state with function := name } : State).openScope kind).Placed := by
  have hordered : (state.scopes.create kind name state.top).Ordered :=
    ScopeTable.ordered_create h.ordered fun _ htop => h.lt_size_top htop
  have hsize : state.scopes.size < (state.scopes.create kind name state.top).size := by
    rw [ScopeTable.size_create]
    exact Nat.lt_succ_self _
  refine ⟨h.toNamed.openNamed name kind, hordered, fun top htop => ?_⟩
  obtain rfl : state.scopes.size = top := Option.some.inj htop
  have hparent : (state.scopes.create kind name state.top).parent state.scopes.size = state.top := by
    rw [ScopeTable.parent_create, if_pos rfl]
  -- The scopes that were there keep their ways outward, so the new scope is put before them.
  have houtward : (state.scopes.create kind name state.top).outward state.top =
      state.scopes.outward state.top := by
    cases htop : state.top with
    | none => rfl
    | some top =>
      exact ScopeTable.extends_create.ancestors_eq h.ordered (htop ▸ hordered) (h.lt_size_top htop)
  show (state.scopes.create kind name state.top).ancestors state.scopes.size =
    state.scopes.size :: state.active.scopes
  rw [ScopeTable.ancestors_eq hordered hsize, hparent, houtward, h.outward_top]

theorem ancestors_next (h : state.Placed) {top next : ScopeId} {rest : List ScopeId}
    (hscopes : state.active.scopes = top :: next :: rest) :
    state.scopes.ancestors next = next :: rest := by
  have htop : state.top = some top := by rw [state.top_eq_head?, hscopes, List.head?_cons]
  have hlt := h.lt_size_top htop
  have hpath := h.path top htop
  rw [ScopeTable.ancestors_eq h.ordered hlt, hscopes, List.cons.injEq] at hpath
  cases hparent : state.scopes.parent top with
  | none =>
    rw [hparent] at hpath
    cases hpath.2
  | some outer =>
    have houter := h.ordered top outer hparent
    have hancestors : state.scopes.ancestors outer = next :: rest := by
      rw [hparent] at hpath
      exact hpath.2
    obtain rfl : outer = next := by
      rw [ScopeTable.ancestors_eq h.ordered (Nat.lt_trans houter hlt)] at hancestors
      exact (List.cons.inj hancestors).1
    exact hancestors

theorem pop (h : state.Placed) : state.pop.Placed := by
  obtain ⟨active, function, hpop⟩ := state.pop_frame
  have hscopes : state.pop.scopes = state.scopes := by rw [hpop]
  refine ⟨h.toNamed.pop, hscopes ▸ h.ordered, fun next htop => ?_⟩
  rw [state.pop.top_eq_head?, pop_active, ActiveScopes.scopes_pop] at htop
  rw [hscopes, pop_active, ActiveScopes.scopes_pop]
  cases hactive : state.active.scopes with
  | nil => simp [hactive] at htop
  | cons top rest =>
    cases rest with
    | nil => simp [hactive] at htop
    | cons next' rest =>
      obtain rfl : next' = next := by simpa [hactive] using htop
      exact h.ancestors_next hactive

theorem nodup_scopes (h : state.Placed) : state.active.scopes.Nodup := by
  rw [← h.outward_top]
  cases htop : state.top with
  | none => exact List.nodup_nil
  | some top =>
    exact (ScopeTable.pairwise_ancestors h.ordered (h.lt_size_top htop)).imp Nat.ne_of_gt

theorem lookup_eq (h : state.Placed) (name : String) :
    state.lookup name = state.active.scopes.findSome? (state.symbols.lookupLocal name) := by
  rw [← h.outward_top, lookup]
  cases state.top <;> rfl

end Placed

theorem placed_initial : initial.Placed where
  lt_size scope hscope := by
    obtain rfl := List.mem_singleton.mp hscope
    decide
  current top htop := by
    cases htop
    rfl
  ordered := by
    intro id outer hparent
    match id with
    | 0 => cases hparent
    | id + 1 => cases hparent
  path top htop := by
    cases htop
    rfl

end ScopeCheck.State
