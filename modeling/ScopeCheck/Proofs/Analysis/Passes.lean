import Mathlib.Data.List.Induction
import ScopeCheck.Analysis.Model

namespace ScopeCheck

namespace Tree

variable {β σ : Type} (tree : Tree) (visit : Visitor β σ)

theorem walkUpTo_eq_forM (fuel : Nat) (first : Option NodeId) :
    tree.walkUpTo visit fuel first = forM (tree.eventsUpTo fuel first) visit := by
  induction fuel generalizing first with
  | zero => rfl
  | succ fuel ih =>
    cases first with
    | none => rfl
    | some id =>
      simp only [walkUpTo, eventsUpTo]
      cases tree.node? id with
      | none => rfl
      | some node => simp only [ih, List.forM_cons, List.forM_append, bind_assoc]

theorem walk_eq_forM : tree.walk visit = forM tree.events visit :=
  walkUpTo_eq_forM tree visit tree.size tree.root

end Tree

namespace Resolution

/-- Where the first pass is after some events. -/
def run (state : State) (events : List Event) : State := events.foldl step state

@[simp]
theorem run_nil (state : State) : run state [] = state := rfl

@[simp]
theorem run_cons (state : State) (event : Event) (events : List Event) :
    run state (event :: events) = run (step state event) events := rfl

@[simp]
theorem run_append (state : State) (events later : List Event) :
    run state (events ++ later) = run (run state events) later := by
  simp [run]

theorem run_concat (state : State) (events : List Event) (event : Event) :
    run state (events ++ [event]) = step (run state events) event := by
  rw [run_append, run_cons, run_nil]

/-- What changes only where a node is entered stays as it is in a walk that does not enter it. -/
theorem run_of_not_mem {α : Type} (found : State → α) {other : NodeId} {events : List Event}
    (hkept : ∀ state event, (∀ node, event ≠ .enter other node) →
      found (step state event) = found state)
    (hother : ∀ node, .enter other node ∉ events) (state : State) :
    found (run state events) = found state := by
  induction events generalizing state with
  | nil => rfl
  | cons event events ih =>
    rw [run_cons, ih fun node hmem => hother node (List.mem_cons_of_mem _ hmem)]
    refine hkept state event fun node heq => hother node ?_
    rw [heq]
    exact List.mem_cons_self

theorem forM_modify_step (state : State) (events : List Event) :
    (forM events fun event => modify (step · event) : Pass) state = .ok () (run state events) := by
  induction events generalizing state with
  | nil => rfl
  | cons event events ih =>
    rw [List.forM_cons, run_cons, ← ih (step state event)]
    rfl

end Resolution

namespace Typing

variable (tree : Tree)

/-- Where the second pass is after some events, unless one of them ends it. -/
def run (state : TypingState) (events : List Event) : Except AnalysisError TypingState :=
  events.foldlM (step tree) state

@[simp]
theorem run_nil (state : TypingState) : run tree state [] = .ok state := rfl

@[simp]
theorem run_cons (state : TypingState) (event : Event) (events : List Event) :
    run tree state (event :: events) = step tree state event >>= fun next => run tree next events :=
  rfl

@[simp]
theorem run_append (state : TypingState) (events later : List Event) :
    run tree state (events ++ later) = run tree state events >>= fun next => run tree next later := by
  simp [run]

theorem run_concat (state : TypingState) (events : List Event) (event : Event) :
    run tree state (events ++ [event]) =
      run tree state events >>= fun next => step tree next event := by
  simp [run, bind_pure]

theorem run_append_eq_ok {state : TypingState} {events later : List Event} {last : TypingState} :
    run tree state (events ++ later) = .ok last ↔
      ∃ next, run tree state events = .ok next ∧ run tree next later = .ok last := by
  rw [run_append]
  cases run tree state events with
  | error error => simp [bind, Except.bind]
  | ok next => simp [bind, Except.bind]

theorem run_cons_eq_ok {state : TypingState} {event : Event} {events : List Event} {last : TypingState} :
    run tree state (event :: events) = .ok last ↔
      ∃ next, step tree state event = .ok next ∧ run tree next events = .ok last := by
  rw [run_cons]
  cases step tree state event with
  | error error => simp [bind, Except.bind]
  | ok next => simp [bind, Except.bind]

theorem exists_run_of_prefix {state last : TypingState} {before events : List Event}
    (hbefore : before <+: events) (h : run tree state events = .ok last) :
    ∃ next, run tree state before = .ok next := by
  obtain ⟨after, rfl⟩ := hbefore
  obtain ⟨next, hnext, -⟩ := (run_append_eq_ok tree).mp h
  exact ⟨next, hnext⟩

/-- What holds at the start of a walk and is kept by each of its steps holds all the time. -/
theorem run_induction {start : TypingState} {events : List Event}
    {motive : List Event → TypingState → Prop} (hstart : motive [] start)
    (hstep : ∀ before event state next, before ++ [event] <+: events →
      run tree start before = .ok state → motive before state →
        step tree state event = .ok next → motive (before ++ [event]) next)
    {before : List Event} (hbefore : before <+: events) {state : TypingState}
    (hrun : run tree start before = .ok state) : motive before state := by
  induction before using List.reverseRecOn generalizing state with
  | nil =>
    cases hrun
    exact hstart
  | append_singleton before event ih =>
    obtain ⟨earlier, hearlier, hlast⟩ := (run_append_eq_ok tree).mp hrun
    obtain ⟨next, hnext, hnil⟩ := (run_cons_eq_ok tree).mp hlast
    cases hnil
    exact hstep before event earlier state hbefore hearlier
      (ih ((List.prefix_append before [event]).trans hbefore) hearlier) hnext

theorem forM_visitor_ok {state typed : TypingState} {events : List Event}
    (h : run tree state events = .ok typed) :
    forM events (visitor tree) state = .ok () typed := by
  induction events generalizing state with
  | nil =>
    cases h
    rfl
  | cons event events ih =>
    rw [run_cons] at h
    cases hstep : step tree state event with
    | error error =>
      rw [hstep] at h
      cases h
    | ok next =>
      rw [hstep] at h
      rw [List.forM_cons]
      simp only [bind, EStateM.bind, visitor, hstep]
      exact ih h

theorem forM_visitor_error {state : TypingState} {events : List Event} {error : AnalysisError}
    (h : run tree state events = .error error) :
    ∃ typed, forM events (visitor tree) state = .error error typed := by
  induction events generalizing state with
  | nil => cases h
  | cons event events ih =>
    rw [run_cons] at h
    rw [List.forM_cons]
    cases hstep : step tree state event with
    | error other =>
      rw [hstep] at h
      cases h
      exact ⟨state, by simp only [bind, EStateM.bind, visitor, hstep]⟩
    | ok next =>
      rw [hstep] at h
      simp only [bind, EStateM.bind, visitor, hstep]
      exact ih h

end Typing

theorem resolveNames_eq (tree : Tree) (state : State) :
    resolveNames tree state =
      if (Resolution.run state tree.events).depth = 1 then
        .ok () (Resolution.run state tree.events)
      else .error (.unbalancedScopes (Resolution.run state tree.events).depth)
        (Resolution.run state tree.events) := by
  simp only [resolveNames, bind, EStateM.bind]
  rw [Tree.walk_eq_forM, Resolution.forM_modify_step]
  rfl

theorem checkTypes_of_run {tree : Tree} {state : State} {typed : TypingState}
    (h : Typing.run tree ⟨state, none⟩ tree.events = .ok typed) :
    checkTypes tree state =
      if typed.base.depth = 1 then .ok () typed.base
      else .error (.unbalancedScopes typed.base.depth) typed.base := by
  simp only [checkTypes, bind, EStateM.bind]
  rw [Tree.walk_eq_forM, Typing.forM_visitor_ok tree h]
  rfl

theorem checkTypes_of_run_error {tree : Tree} {state : State} {error : AnalysisError}
    (h : Typing.run tree ⟨state, none⟩ tree.events = .error error) :
    ∃ stopped, checkTypes tree state = .error error stopped := by
  obtain ⟨typed, hvisit⟩ := Typing.forM_visitor_error tree h
  refine ⟨typed.base, ?_⟩
  simp only [checkTypes, bind, EStateM.bind]
  rw [Tree.walk_eq_forM, hvisit]

theorem analyze_eq (builtins : Bool) (tree : Tree) :
    analyze builtins tree =
      if (Resolution.run (.start builtins) tree.events).depth = 1 then
        match Typing.run tree ⟨Resolution.run (.start builtins) tree.events, none⟩ tree.events with
        | .error error => .error error
        | .ok typed =>
          if typed.base.depth = 1 then .ok typed.base.toModel
          else .error (.unbalancedScopes typed.base.depth)
      else .error (.unbalancedScopes (Resolution.run (.start builtins) tree.events).depth) := by
  simp only [analyze, bind, EStateM.bind, resolveNames_eq]
  by_cases hdepth : (Resolution.run (.start builtins) tree.events).depth = 1
  · simp only [if_pos hdepth]
    cases hrun : Typing.run tree ⟨Resolution.run (.start builtins) tree.events, none⟩
        tree.events with
    | error error =>
      obtain ⟨stopped, hcheck⟩ := checkTypes_of_run_error hrun
      rw [hcheck]
    | ok typed =>
      rw [checkTypes_of_run hrun]
      by_cases htyped : typed.base.depth = 1
      · simp only [if_pos htyped]
      · simp only [if_neg htyped]
  · simp only [if_neg hdepth]

theorem analyze_eq_ok_iff {builtins : Bool} {tree : Tree} {model : Model} :
    analyze builtins tree = .ok model ↔
      (Resolution.run (.start builtins) tree.events).depth = 1 ∧
      ∃ typed, Typing.run tree ⟨Resolution.run (.start builtins) tree.events, none⟩
        tree.events = .ok typed ∧ typed.base.depth = 1 ∧ typed.base.toModel = model := by
  rw [analyze_eq]
  split
  · split
    · simp_all
    · split <;> simp_all
  · simp_all

end ScopeCheck
