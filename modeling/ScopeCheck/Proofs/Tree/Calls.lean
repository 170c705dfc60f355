import ScopeCheck.Proofs.Tree.Walk

namespace ScopeCheck

namespace Visitor

variable {β σ : Type}

def withLog (log : List Event) : EStateM.Result β σ Unit → EStateM.Result β (σ × List Event) Unit
  | .ok () state => .ok () (state, log)
  | .error value state => .error value (state, log)

/-- The visitor that also writes down what it is called on. -/
def logged (visit : Visitor β σ) : Visitor β (σ × List Event) := fun event (state, log) =>
  withLog (log ++ [event]) (visit event state)

/-- The visitor goes on at each of the events, and comes from one state to the other. -/
inductive GoesOn (visit : Visitor β σ) : σ → List Event → σ → Prop
  | nil {state : σ} : GoesOn visit state [] state
  | cons {state next last : σ} {event : Event} {events : List Event}
      (hvisit : visit event state = .ok () next) (h : GoesOn visit next events last) :
      GoesOn visit state (event :: events) last

/-- The visitor goes on at each of the events `before`, and stops the walk at the next one. -/
def StopsAt (visit : Visitor β σ) (state : σ) (before : List Event) (event : Event) (value : β)
    (last : σ) : Prop :=
  ∃ middle, visit.GoesOn state before middle ∧ visit event middle = .error value last

/-- What the visitor is called on, if it is called on events in order until it stops. -/
def callsOn (visit : Visitor β σ) : σ → List Event → List Event
  | _, [] => []
  | state, event :: events =>
    event :: match visit event state with
      | .ok () next => visit.callsOn next events
      | .error _ _ => []

variable {visit : Visitor β σ} {state last : σ} {event : Event} {events log full : List Event}
  {value : β}

theorem logged_of_ok {next : σ} (h : visit event state = .ok () next) :
    visit.logged event (state, log) = .ok () (next, log ++ [event]) := by
  simp only [logged, h, withLog]

theorem logged_of_error (h : visit event state = .error value last) :
    visit.logged event (state, log) = .error value (last, log ++ [event]) := by
  simp only [logged, h, withLog]

theorem goesOn_cons_of_ok {next : σ} (h : visit event state = .ok () next) :
    visit.GoesOn state (event :: events) last ↔ visit.GoesOn next events last := by
  constructor
  · rintro (_ | ⟨hvisit, hrest⟩)
    rw [h] at hvisit
    cases hvisit
    exact hrest
  · exact .cons h

theorem not_goesOn_cons_of_error {other : σ} (h : visit event state = .error value last) :
    ¬ visit.GoesOn state (event :: events) other := by
  rintro (_ | ⟨hvisit, -⟩)
  rw [h] at hvisit
  cases hvisit

theorem forM_cons_of_ok {next : σ} (h : visit event state = .ok () next) :
    forM (event :: events) visit state = forM events visit next := by
  rw [List.forM_cons]
  simp only [bind, EStateM.bind, h]

theorem forM_cons_of_error (h : visit event state = .error value last) :
    forM (event :: events) visit state = .error value last := by
  rw [List.forM_cons]
  simp only [bind, EStateM.bind, h]

/-- Keeping a log changes nothing else. -/
theorem forM_logged (visit : Visitor β σ) (state : σ) (log events : List Event) :
    forM events visit.logged (state, log) =
      withLog (log ++ visit.callsOn state events) (forM events visit state) := by
  induction events generalizing state log with
  | nil =>
    rw [callsOn, List.append_nil]
    rfl
  | cons event events ih =>
    cases hvisit : visit event state with
    | ok done next =>
      rw [forM_cons_of_ok hvisit, forM_cons_of_ok (logged_of_ok hvisit), ih]
      simp [callsOn, hvisit]
    | error value last =>
      rw [forM_cons_of_error hvisit, forM_cons_of_error (logged_of_error hvisit)]
      simp [callsOn, hvisit, withLog]

theorem callsOn_isPrefix (visit : Visitor β σ) (state : σ) (events : List Event) :
    visit.callsOn state events <+: events := by
  induction events generalizing state with
  | nil => exact List.prefix_rfl
  | cons event events ih =>
    rw [callsOn, List.cons_prefix_cons]
    refine ⟨rfl, ?_⟩
    split
    · exact ih _
    · exact List.nil_prefix

theorem forM_logged_eq_ok_iff :
    forM events visit.logged (state, log) = .ok () (last, full) ↔
      full = log ++ events ∧ visit.GoesOn state events last := by
  induction events generalizing state log with
  | nil =>
    constructor
    · intro h
      cases h
      exact ⟨(List.append_nil _).symm, .nil⟩
    · rintro ⟨hfull, hgoes⟩
      cases hgoes
      rw [hfull, List.append_nil]
      rfl
  | cons event events ih =>
    cases hvisit : visit event state with
    | ok done next =>
      rw [forM_cons_of_ok (logged_of_ok hvisit), ih, goesOn_cons_of_ok hvisit]
      simp
    | error value stopped =>
      rw [forM_cons_of_error (logged_of_error hvisit)]
      simp [not_goesOn_cons_of_error hvisit]

theorem forM_logged_eq_error_iff :
    forM events visit.logged (state, log) = .error value (last, full) ↔
      ∃ before event after, events = before ++ event :: after ∧ full = log ++ before ++ [event] ∧
        visit.StopsAt state before event value last := by
  induction events generalizing state log with
  | nil => simp [pure, EStateM.pure]
  | cons event events ih =>
    cases hvisit : visit event state with
    | ok done next =>
      rw [forM_cons_of_ok (logged_of_ok hvisit), ih]
      constructor
      · rintro ⟨before, stop, after, rfl, rfl, middle, hbefore, hstop⟩
        exact ⟨event :: before, stop, after, rfl, by simp, middle, .cons hvisit hbefore, hstop⟩
      · rintro ⟨before, stop, after, hevents, rfl, middle, hbefore, hstop⟩
        -- It does not stop at the first event, so it stops at a later one.
        cases hbefore with
        | nil =>
          obtain ⟨rfl, -⟩ := List.cons.inj hevents
          rw [hvisit] at hstop
          cases hstop
        | cons hfirst hrest =>
          obtain ⟨rfl, rfl⟩ := List.cons.inj hevents
          rw [hvisit] at hfirst
          cases hfirst
          exact ⟨_, stop, after, rfl, by simp, middle, hrest, hstop⟩
    | error other stopped =>
      rw [forM_cons_of_error (logged_of_error hvisit)]
      constructor
      · intro h
        cases h
        exact ⟨[], event, events, rfl, by simp, state, .nil, hvisit⟩
      · rintro ⟨before, stop, after, hevents, rfl, middle, hbefore, hstop⟩
        cases hbefore with
        | nil =>
          obtain ⟨rfl, -⟩ := List.cons.inj hevents
          rw [hvisit] at hstop
          cases hstop
          simp
        | cons hfirst hrest =>
          obtain ⟨rfl, -⟩ := List.cons.inj hevents
          rw [hvisit] at hfirst
          cases hfirst

end Visitor

namespace Tree

variable {tree : Tree}

def calls {β σ : Type} (tree : Tree) (visit : Visitor β σ) (state : σ) : List Event :=
  match tree.walk visit.logged (state, []) with
  | .ok () (_, log) => log
  | .error _ (_, log) => log

theorem calls_eq {β σ : Type} (tree : Tree) (visit : Visitor β σ) (state : σ) :
    tree.calls visit state = visit.callsOn state tree.events := by
  rw [calls, walk_eq_forM, Visitor.forM_logged, List.nil_append]
  cases forM tree.events visit state <;> rfl

/-- A walk of a tree that was read from a text is a fold over the events of the tree that stops at the
first event that the visitor stops at: the visitor is called on all events up to that one, and not
again. -/
theorem walk_folds_events {text : String} (h : ofText text = .ok tree) :
    ∃ forest, tree.Unfolds tree.root forest ∧
      (∀ {β σ : Type} (visit : Visitor β σ) (state : σ),
        tree.walk visit.logged (state, []) =
          Visitor.withLog (tree.calls visit state) (tree.walk visit state)) ∧
      (∀ {β σ : Type} (visit : Visitor β σ) (state last : σ) (log : List Event),
        tree.walk visit.logged (state, []) = .ok () (last, log) ↔
          log = forest.events ∧ visit.GoesOn state forest.events last) ∧
      (∀ {β σ : Type} (visit : Visitor β σ) (state last : σ) (log : List Event) (value : β),
        tree.walk visit.logged (state, []) = .error value (last, log) ↔
          ∃ before event after, forest.events = before ++ event :: after ∧
            log = before ++ [event] ∧ visit.StopsAt state before event value last) ∧
      ∀ {β γ σ τ : Type} (visit : Visitor β σ) (other : Visitor γ τ) (state : σ) (otherState : τ),
        (tree.calls visit state).length ≤ (tree.calls other otherState).length →
          tree.calls visit state <+: tree.calls other otherState := by
  have hwell := wellLinked_of_ofText h
  refine ⟨tree.forest, hwell.unfolds, ?_, ?_, ?_, ?_⟩
  · intro β σ visit state
    rw [calls_eq, walk_eq_forM, walk_eq_forM, Visitor.forM_logged, List.nil_append]
  · intro β σ visit state last log
    rw [walk_eq_forM, Visitor.forM_logged_eq_ok_iff, events_forest, List.nil_append]
  · intro β σ visit state last log value
    simp only [walk_eq_forM, Visitor.forM_logged_eq_error_iff, events_forest, List.nil_append]
  · intro β γ σ τ visit other state otherState hlength
    rw [calls_eq, calls_eq] at hlength ⊢
    exact List.prefix_of_prefix_length_le (visit.callsOn_isPrefix state tree.events)
      (other.callsOn_isPrefix otherState tree.events) hlength

/-- Counts the events, and stops when it leaves a node with the given number. -/
def counterUpTo (last : NodeId) : Visitor Nat Nat := fun event count =>
  if event.left?.map Prod.fst = some last then .error count (count + 1) else .ok () (count + 1)

/-- The outer node has been entered when the walk stops at the inner one, and it is never left. -/
theorem walk_counterUpTo_cycleTree :
    ofText cycleText = .ok cycleTree ∧ ∃ outer inner,
      cycleTree.walk (counterUpTo 3) 0 = .error 2 3 ∧
      cycleTree.calls (counterUpTo 3) 0 = [.enter 0 outer, .enter 3 inner, .leave 3 inner] ∧
      cycleTree.calls (counterUpTo 3) 0 <+: cycleTree.calls (counterUpTo 0) 0 := by
  obtain ⟨forest, hforest, hlogged, -, hstops, hprefix⟩ := walk_folds_events ofText_cycleText
  obtain rfl := hforest.unique (wellLinked_of_ofText ofText_cycleText).unfolds
  have hlog : cycleTree.walk (counterUpTo 3).logged (0, []) = .error 2 (3, cycleTree.events.take 3) :=
    (hstops _ _ _ _ _).mpr ⟨_, _, _, rfl, rfl, 2, .cons rfl (.cons rfl .nil), rfl⟩
  have hwalk : cycleTree.walk (counterUpTo 3) 0 = .error 2 3 := rfl
  rw [hlogged, hwalk] at hlog
  have hcalls : cycleTree.calls (counterUpTo 3) 0 = cycleTree.events.take 3 :=
    congrArg Prod.snd (EStateM.Result.error.inj hlog).2
  exact ⟨ofText_cycleText, _, _, hwalk, hcalls, hprefix _ _ _ _ (by decide)⟩

end Tree

end ScopeCheck
