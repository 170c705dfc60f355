import ScopeCheck.Analysis.Model
import ScopeCheck.Proofs.Lists
import ScopeCheck.Proofs.Tree.Reachability

namespace ScopeCheck

/-- What changes the active scopes when it is entered. -/
inductive Opening where
  | function
  | block
  deriving DecidableEq

def Label.opening? : Label → Option Opening
  | .statement .block => some .block
  | .declaration decl => if decl.kind = .function then some .function else none
  | _ => none

def Event.opening? : Event → Option Opening
  | enter _ node => node.label.opening?
  | leave .. => none

/-- The first function or block that is entered. -/
def firstOpening (events : List Event) : Option Opening := events.findSome? Event.opening?

namespace Tree

/-- What a walk meets in the child slots of a node. -/
def eventsBelow (tree : Tree) (node : Node) : List Event :=
  tree.eventsFrom node.children.first ++ tree.eventsFrom node.children.second
    ++ tree.eventsFrom node.children.third

/-- A function leaks if the walk of its child slots enters another function before any block. -/
def Leaks (tree : Tree) (id : NodeId) : Prop :=
  ∃ node, tree.node? id = some node ∧ node.label.isFunction ∧
    firstOpening (tree.eventsBelow node) = some .function

/-- The second child slot of a function holds something else than a block. -/
def HasOddBody (tree : Tree) (id : NodeId) : Prop :=
  ∃ node body bodyNode, tree.node? id = some node ∧ node.label.isFunction ∧
    node.children.second = some body ∧ tree.node? body = some bodyNode ∧
    ¬ bodyNode.label.isBlock

end Tree

namespace Forest

def leaking : Forest → List NodeId
  | nil => []
  | cons id node first second third rest =>
    (if node.label.isFunction ∧
        firstOpening (first.events ++ second.events ++ third.events) = some .function
      then [id] else [])
      ++ (first.leaking ++ second.leaking ++ third.leaking) ++ rest.leaking

end Forest

namespace BlockEntry

/-- Whatever is entered first takes the note of a function or writes over it. -/
def after : BlockEntry → Option Opening → BlockEntry
  | entry, none => entry
  | _, some _ => .fresh

/-- A block that takes the note of a function takes its scope away when it is left. -/
def settle : BlockEntry → Option Opening → List ScopeId → List ScopeId
  | .reuse, some .block, scopes => scopes.tail
  | _, _, scopes => scopes

@[simp]
theorem settle_fresh (opening : Option Opening) (scopes : List ScopeId) :
    settle .fresh opening scopes = scopes := rfl

@[simp]
theorem settle_none (entry : BlockEntry) (scopes : List ScopeId) :
    settle entry none scopes = scopes := by
  cases entry <;> rfl

@[simp]
theorem settle_function (entry : BlockEntry) (scopes : List ScopeId) :
    settle entry (some .function) scopes = scopes := by
  cases entry <;> rfl

@[simp]
theorem after_none (entry : BlockEntry) : after entry none = entry := rfl

@[simp]
theorem after_some (entry : BlockEntry) (opening : Opening) :
    after entry (some opening) = .fresh := by
  cases entry <;> rfl

@[simp]
theorem after_fresh (opening : Option Opening) : after .fresh opening = .fresh := by
  cases opening <;> rfl

theorem settle_block_suffix (entry : BlockEntry) (opening : Option Opening)
    (scopes : List ScopeId) :
    settle entry (some .block) scopes <:+ settle entry opening scopes := by
  match entry, opening with
  | .fresh, _ => exact List.suffix_refl _
  | .reuse, some .block => exact List.suffix_refl _
  | .reuse, none | .reuse, some .function => exact List.tail_suffix _

end BlockEntry

/-- The active scopes that stay, whatever is walked next. -/
def State.floor (state : State) : List ScopeId :=
  state.blockEntry.settle (some .block) state.active.scopes

theorem State.floor_suffix (state : State) : state.floor <:+ state.active.scopes := by
  have h := state.blockEntry.settle_block_suffix none state.active.scopes
  rwa [BlockEntry.settle_none] at h

@[simp]
theorem firstOpening_nil : firstOpening [] = none := rfl

theorem firstOpening_cons (event : Event) (events : List Event) :
    firstOpening (event :: events) = event.opening?.or (firstOpening events) := by
  simp only [firstOpening, List.findSome?_cons]
  cases event.opening? <;> rfl

theorem firstOpening_append (events later : List Event) :
    firstOpening (events ++ later) = (firstOpening events).or (firstOpening later) := by
  simp [firstOpening, List.findSome?_append]

theorem firstOpening_ne_none {events : List Event} {id : NodeId} {node : Node}
    (hmem : .enter id node ∈ events) (hopening : node.label.opening? ≠ none) :
    firstOpening events ≠ none := by
  intro h
  exact hopening (List.findSome?_eq_none_iff.mp h _ hmem)

theorem Label.opening?_eq_block {label : Label} : label.opening? = some .block ↔ label.isBlock := by
  cases label with
  | statement stmt => cases stmt <;> simp [opening?, isBlock]
  | expression expr => simp [opening?, isBlock]
  | declaration decl => simp [opening?, isBlock]

theorem Label.opening?_eq_function {label : Label} :
    label.opening? = some .function ↔ label.isFunction := by
  cases label with
  | statement stmt => cases stmt <;> simp [opening?, isFunction]
  | expression expr => simp [opening?, isFunction]
  | declaration decl => simp [opening?, isFunction]

theorem Label.opening?_eq_none {label : Label} (hfunction : ¬ label.isFunction)
    (hblock : ¬ label.isBlock) : label.opening? = none := by
  cases hopening : label.opening? with
  | none => rfl
  | some opening =>
    cases opening with
    | function => exact absurd (opening?_eq_function.mp hopening) hfunction
    | block => exact absurd (opening?_eq_block.mp hopening) hblock

theorem Label.not_isFunction_of_isBlock {label : Label} (h : label.isBlock) :
    ¬ label.isFunction := by
  intro hfunction
  have hopening := opening?_eq_block.mpr h
  rw [opening?_eq_function.mpr hfunction] at hopening
  cases hopening

/-- How a part of a walk leaves the active scopes: it takes back what it opens, takes one more away
if it has the block that the note of a function is for, and leaves `leaks` scopes over. -/
structure Restores (opening : Option Opening) (leaks : Nat) (state last : State) : Prop where
  blockEntry : last.blockEntry = state.blockEntry.after opening
  scopes : ∃ leaked, leaked.length = leaks ∧ (opening = none → leaked = []) ∧
    last.active.scopes = leaked ++ state.blockEntry.settle opening state.active.scopes

namespace Restores

variable {opening : Option Opening} {leaks : Nat} {state last : State}

theorem suffix_scopes (h : Restores opening leaks state last) :
    state.floor <:+ last.active.scopes := by
  obtain ⟨leaked, -, -, hscopes⟩ := h.scopes
  rw [hscopes]
  exact List.suffix_append_of_suffix (state.blockEntry.settle_block_suffix _ _)

theorem suffix_floor (h : Restores opening leaks state last) : state.floor <:+ last.floor := by
  cases opening with
  | none =>
    obtain ⟨leaked, -, hleaked, hscopes⟩ := h.scopes
    rw [State.floor, State.floor, h.blockEntry, hscopes, hleaked rfl]
    simp
  | some opening =>
    have hlast : last.floor = last.active.scopes := by
      rw [State.floor, h.blockEntry, BlockEntry.after_some, BlockEntry.settle_fresh]
    rw [hlast]
    exact h.suffix_scopes

theorem floor_ne_nil (h : Restores opening leaks state last) (hfloor : state.floor ≠ []) :
    last.floor ≠ [] := by
  intro heq
  have hsuffix := h.suffix_floor
  rw [heq] at hsuffix
  exact hfloor (List.suffix_nil.mp hsuffix)

theorem trans {later : Option Opening} {leaksLater : Nat} {final : State}
    (h : Restores opening leaks state last) (h' : Restores later leaksLater last final) :
    Restores (opening.or later) (leaks + leaksLater) state final where
  blockEntry := by
    rw [h'.blockEntry, h.blockEntry]
    cases opening <;> simp
  scopes := by
    obtain ⟨leaked, hlength, hleaked, hscopes⟩ := h.scopes
    obtain ⟨leakedLater, hlengthLater, hleakedLater, hscopesLater⟩ := h'.scopes
    refine ⟨leakedLater ++ leaked, by simp [hlength, hlengthLater, Nat.add_comm], ?_, ?_⟩
    · intro hnone
      rw [Option.or_eq_none_iff] at hnone
      simp [hleaked hnone.1, hleakedLater hnone.2]
    · rw [hscopesLater, h.blockEntry, hscopes]
      cases opening with
      | none => simp [hleaked]
      | some opening => simp

end Restores

end ScopeCheck
