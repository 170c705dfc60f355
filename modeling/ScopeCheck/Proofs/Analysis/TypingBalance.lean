import ScopeCheck.Proofs.Analysis.Opening
import ScopeCheck.Proofs.Analysis.Passes
import ScopeCheck.Proofs.Analysis.TypingStep

namespace ScopeCheck

/-- The line of a function whose body has no scope, when it is entered. -/
def Event.missingScope? (scopeOf : NodeId → Option ScopeId) : Event → Option UInt32
  | enter _ node =>
    if node.label.isFunction ∧ node.children.second.any fun body => scopeOf body = none then
      some node.line
    else none
  | leave .. => none

namespace Typing

variable {tree : Tree} {scopeOf : NodeId → Option ScopeId}

/-- The scopes of the blocks are known, and while the note of a function waits for a block no
other function comes. -/
structure Ready (scopeOf : NodeId → Option ScopeId) (opening : Option Opening)
    (state : TypingState) : Prop where
  knows : ∀ id, state.base.facts.scopeOf id = scopeOf id
  admits : state.base.blockEntry = .reuse → opening ≠ some .function

theorem Ready.of_append {opening later : Option Opening} {state : TypingState}
    (h : Ready scopeOf (opening.or later) state) : Ready scopeOf opening state := by
  refine ⟨h.knows, fun hentry heq => h.admits hentry ?_⟩
  rw [heq]
  rfl

theorem Ready.later {opening later : Option Opening} {state last : TypingState}
    (h : Ready scopeOf (opening.or later) state) (hrestores : Restores opening 0 state.base last.base)
    (hknows : ∀ id, last.base.facts.scopeOf id = scopeOf id) : Ready scopeOf later last := by
  refine ⟨hknows, fun hentry => ?_⟩
  rw [hrestores.blockEntry] at hentry
  cases opening with
  | none => exact h.admits hentry
  | some opening => simp at hentry

/-- A part of a walk that ends at the first function whose body has no scope, and restores the
active scopes if there is none. -/
structure Settles (tree : Tree) (scopeOf : NodeId → Option ScopeId) (events : List Event) :
    Prop where
  stops (state : TypingState) (hready : Ready scopeOf (firstOpening events) state) (line : UInt32)
    (hline : events.findSome? (Event.missingScope? scopeOf) = some line) :
    run tree state events = .error (.missingBlockScope line)
  restores (state : TypingState) (hready : Ready scopeOf (firstOpening events) state)
    (hline : events.findSome? (Event.missingScope? scopeOf) = none) :
    ∃ last, run tree state events = .ok last ∧
      Restores (firstOpening events) 0 state.base last.base ∧
      ∀ id, last.base.facts.scopeOf id = scopeOf id
  floor (state : TypingState) (hready : Ready scopeOf (firstOpening events) state)
    (before : List Event) (hbefore : before <+: events) (last : TypingState)
    (hlast : run tree state before = .ok last) : state.base.floor <:+ last.base.active.scopes

namespace Settles

variable {events later : List Event}

theorem nil : Settles tree scopeOf [] where
  stops _ _ _ := nofun
  restores state hready _ := ⟨state, rfl, ⟨rfl, [], rfl, fun _ => rfl, by simp⟩, hready.knows⟩
  floor state _ before hbefore last hlast := by
    rw [List.prefix_nil.mp hbefore] at hlast
    cases hlast
    exact state.base.floor_suffix

theorem append (h : Settles tree scopeOf events) (hlater : Settles tree scopeOf later) :
    Settles tree scopeOf (events ++ later) where
  stops state hready line hline := by
    rw [firstOpening_append] at hready
    rw [List.findSome?_append] at hline
    rw [run_append]
    cases hmissing : events.findSome? (Event.missingScope? scopeOf) with
    | some first =>
      rw [hmissing] at hline
      cases hline
      rw [h.stops state hready.of_append _ hmissing]
      rfl
    | none =>
      rw [hmissing] at hline
      obtain ⟨last, hrun, hrestores, hknows⟩ := h.restores state hready.of_append hmissing
      rw [hrun]
      exact hlater.stops last (hready.later hrestores hknows) line hline
  restores state hready hline := by
    rw [firstOpening_append] at hready
    rw [List.findSome?_append, Option.or_eq_none_iff] at hline
    rw [run_append, firstOpening_append]
    obtain ⟨last, hrun, hrestores, hknows⟩ := h.restores state hready.of_append hline.1
    obtain ⟨final, hfinal, hrestoresFinal, hknowsFinal⟩ :=
      hlater.restores last (hready.later hrestores hknows) hline.2
    refine ⟨final, ?_, hrestores.trans hrestoresFinal, hknowsFinal⟩
    rw [hrun]
    exact hfinal
  floor state hready before hbefore final hfinal := by
    rw [firstOpening_append] at hready
    rcases prefix_append_cases hbefore with hbefore | ⟨between, hbetween, rfl⟩
    · exact h.floor state hready.of_append before hbefore final hfinal
    rw [run_append] at hfinal
    cases hmissing : events.findSome? (Event.missingScope? scopeOf) with
    | some first =>
      rw [h.stops state hready.of_append _ hmissing] at hfinal
      cases hfinal
    | none =>
      obtain ⟨last, hrun, hrestores, hknows⟩ := h.restores state hready.of_append hmissing
      rw [hrun] at hfinal
      exact hrestores.suffix_floor.trans
        (hlater.floor last (hready.later hrestores hknows) between hbetween final hfinal)

variable (id : NodeId) {node : Node}

theorem around_of (opening : Option Opening) (h : Settles tree scopeOf events)
    (hopening : firstOpening (.enter id node :: (events ++ [.leave id node])) = opening)
    (hpresent : Event.missingScope? scopeOf (.enter id node) = none)
    (henter : ∀ state, Ready scopeOf opening state →
      ∃ next, step tree state (.enter id node) = .ok next ∧
        Ready scopeOf (firstOpening events) next ∧ state.base.floor <:+ next.base.floor ∧
        ∀ last, Restores (firstOpening events) 0 next.base last.base →
          Restores opening 0 state.base (leave tree last id node).base) :
    Settles tree scopeOf (.enter id node :: (events ++ [.leave id node])) := by
  have hfind : (Event.enter id node :: (events ++ [.leave id node])).findSome?
      (Event.missingScope? scopeOf) = events.findSome? (Event.missingScope? scopeOf) := by
    rw [List.findSome?_cons, hpresent]
    simp [List.findSome?_append, Event.missingScope?]
  have hrestores : ∀ state, Ready scopeOf opening state →
      events.findSome? (Event.missingScope? scopeOf) = none →
      ∃ last, run tree state (.enter id node :: (events ++ [.leave id node])) = .ok last ∧
        Restores opening 0 state.base last.base ∧
        ∀ id, last.base.facts.scopeOf id = scopeOf id := by
    intro state hready hline
    obtain ⟨next, hstep, hnext, -, hleave⟩ := henter state hready
    obtain ⟨last, hrun, hlast, hknows⟩ := h.restores next hnext hline
    refine ⟨leave tree last id node, ?_, hleave last hlast, fun other => ?_⟩
    · rw [run_around tree state id hstep, hrun]
      rfl
    · rw [scopeOf_leave]
      exact hknows other
  refine ⟨?_, ?_, ?_⟩
  · intro state hready line hline
    rw [hopening] at hready
    rw [hfind] at hline
    obtain ⟨next, hstep, hnext, -, -⟩ := henter state hready
    rw [run_around tree state id hstep, h.stops next hnext line hline]
    rfl
  · intro state hready hline
    rw [hopening] at hready ⊢
    rw [hfind] at hline
    exact hrestores state hready hline
  · intro state hready before hbefore final hfinal
    rw [hopening] at hready
    obtain ⟨next, hstep, hnext, hfloor, hleave⟩ := henter state hready
    rcases List.prefix_cons_iff.mp hbefore with rfl | ⟨between, rfl, hbetween⟩
    · cases hfinal
      exact state.base.floor_suffix
    rcases List.prefix_concat_iff.mp hbetween with rfl | hbetween
    · -- The walk is over, so nothing has ended it on the way.
      cases hline : events.findSome? (Event.missingScope? scopeOf) with
      | some line =>
        rw [run_around tree state id hstep, h.stops next hnext line hline] at hfinal
        cases hfinal
      | none =>
        obtain ⟨last, hrun, hlast, -⟩ := hrestores state hready hline
        obtain rfl : last = final := Except.ok.inj (hrun.symm.trans hfinal)
        exact hlast.suffix_scopes
    · rw [run_cons, hstep] at hfinal
      exact hfloor.trans (h.floor next hnext between hbetween final hfinal)

theorem around_other (h : Settles tree scopeOf events) (hfunction : ¬ node.label.isFunction)
    (hblock : ¬ node.label.isBlock) :
    Settles tree scopeOf (.enter id node :: (events ++ [.leave id node])) := by
  have hnode : node.label.opening? = none := Label.opening?_eq_none hfunction hblock
  apply h.around_of id (firstOpening events)
  · simp [firstOpening_cons, firstOpening_append, Event.opening?, hnode]
  · simp [Event.missingScope?, hfunction]
  · intro state hready
    refine ⟨state, enter_other tree state id hfunction hblock, hready, List.suffix_refl _, ?_⟩
    intro last hlast
    rw [leave_other tree last id hfunction hblock]
    exact ⟨by simpa using hlast.blockEntry, by simpa using hlast.scopes⟩

theorem around_block (h : Settles tree scopeOf events) (hnode : node.label.isBlock)
    (hscope : scopeOf id ≠ none) :
    Settles tree scopeOf (.enter id node :: (events ++ [.leave id node])) := by
  have hnofunction : ¬ node.label.isFunction := Label.not_isFunction_of_isBlock hnode
  apply h.around_of id (some .block)
  · simp [firstOpening_cons, Event.opening?, Label.opening?_eq_block.mpr hnode]
  · simp [Event.missingScope?, hnofunction]
  intro state hready
  obtain ⟨scope, hscope⟩ := Option.ne_none_iff_exists'.mp hscope
  obtain ⟨next, hstep, hfresh, hscopes, hfacts⟩ : ∃ next : TypingState,
      step tree state (.enter id node) = .ok next ∧ next.base.blockEntry = .fresh ∧
        next.base.active.scopes.tail = state.base.floor ∧
        next.base.facts = state.base.facts := by
    cases hentry : state.base.blockEntry with
    | fresh =>
      exact ⟨_, enter_fresh_block tree state id hnode hentry ((hready.knows id).trans hscope), hentry,
        by simp [State.floor, hentry], rfl⟩
    | reuse =>
      exact ⟨_, enter_reusing_block tree state id hnode hentry, rfl,
        by simp [State.floor, hentry, BlockEntry.settle], rfl⟩
  refine ⟨next, hstep, ⟨fun other => hfacts ▸ hready.knows other, by simp [hfresh]⟩,
    ?_, ?_⟩
  · rw [← hscopes, State.floor, hfresh, BlockEntry.settle_fresh]
    exact List.tail_suffix _
  · intro last hlast
    rw [leave_block tree last id hnode]
    obtain ⟨leaked, hlength, -, hlastScopes⟩ := hlast.scopes
    obtain rfl := List.length_eq_zero_iff.mp hlength
    rw [hfresh, BlockEntry.settle_fresh, List.nil_append] at hlastScopes
    refine ⟨by simp [hlast.blockEntry, hfresh], [], rfl, fun _ => rfl, ?_⟩
    rw [State.pop_active, ActiveScopes.scopes_pop, hlastScopes, hscopes]
    rfl

theorem of_stops {event : Event} {line : UInt32}
    (hline : Event.missingScope? scopeOf event = some line)
    (hstep : ∀ state, Ready scopeOf (firstOpening (event :: events)) state →
      step tree state event = .error (.missingBlockScope line)) :
    Settles tree scopeOf (event :: events) := by
  refine ⟨?_, ?_, ?_⟩
  · intro state hready found hfind
    rw [List.findSome?_cons, hline] at hfind
    cases hfind
    rw [run_cons, hstep state hready]
    rfl
  · intro state _ hfind
    rw [List.findSome?_cons, hline] at hfind
    cases hfind
  · intro state hready before hbefore last hlast
    rcases List.prefix_cons_iff.mp hbefore with rfl | ⟨between, rfl, -⟩
    · cases hlast
      exact state.base.floor_suffix
    · rw [run_cons, hstep state hready] at hlast
      cases hlast

theorem firstOpening_around_function (hnode : node.label.isFunction) :
    firstOpening (.enter id node :: (events ++ [.leave id node])) = some .function := by
  simp [firstOpening_cons, Event.opening?, Label.opening?_eq_function.mpr hnode]

/-- A function without a body, or whose body has a scope, is balanced like its child slots. -/
theorem around_function_of_present (h : Settles tree scopeOf events)
    (hnode : node.label.isFunction)
    (hpresent : Event.missingScope? scopeOf (.enter id node) = none)
    (hbody : ∀ body, node.children.second = some body → scopeOf body ≠ none →
      firstOpening events = some .block) :
    Settles tree scopeOf (.enter id node :: (events ++ [.leave id node])) := by
  apply h.around_of id (some .function) (firstOpening_around_function id hnode) hpresent
  intro state hready
  have hentry : state.base.blockEntry = .fresh := by
    cases hentry : state.base.blockEntry with
    | fresh => rfl
    | reuse => exact absurd rfl (hready.admits hentry)
  cases hchild : node.children.second with
  | none =>
    obtain ⟨enclosing, hstep⟩ := enter_bodiless tree state id hnode hchild
    refine ⟨_, hstep, ⟨hready.knows, by simp [hentry]⟩, List.suffix_refl _, ?_⟩
    intro last hlast
    rw [leave_function tree last id hnode]
    obtain ⟨leaked, hlength, -, hscopes⟩ := hlast.scopes
    exact ⟨by simp [hlast.blockEntry, hentry], leaked, hlength,
      fun _ => List.length_eq_zero_iff.mp hlength, by simpa [hentry] using hscopes⟩
  | some body =>
    have hscope : scopeOf body ≠ none := by
      intro hmissing
      simp [Event.missingScope?, hnode, hchild, hmissing] at hpresent
    have hblock := hbody body hchild hscope
    obtain ⟨scope, hscope⟩ := Option.ne_none_iff_exists'.mp hscope
    obtain ⟨enclosing, hstep⟩ :=
      enter_function tree state id hnode hchild ((hready.knows body).trans hscope)
    refine ⟨_, hstep, ⟨hready.knows, by simp [hblock]⟩, ?_, ?_⟩
    · simp [State.floor, hentry, BlockEntry.settle]
    · -- The block takes the note, and takes the scope of the function away with its own leave.
      intro last hlast
      rw [leave_function tree last id hnode]
      obtain ⟨leaked, hlength, -, hscopes⟩ := hlast.scopes
      rw [hblock] at hlast hscopes
      exact ⟨by simp [hlast.blockEntry], leaked, hlength,
        fun _ => List.length_eq_zero_iff.mp hlength,
        by simpa [hentry, BlockEntry.settle] using hscopes⟩

theorem around_function (h : Settles tree scopeOf events) (hnode : node.label.isFunction)
    (hfirst : firstOpening events ≠ some .function)
    (hbody : ∀ body, node.children.second = some body → scopeOf body ≠ none →
      firstOpening events ≠ none) :
    Settles tree scopeOf (.enter id node :: (events ++ [.leave id node])) := by
  by_cases hpresent : Event.missingScope? scopeOf (.enter id node) = none
  · refine h.around_function_of_present id hnode hpresent fun body hchild hscope => ?_
    cases hopening : firstOpening events with
    | none => exact absurd hopening (hbody body hchild hscope)
    | some opening =>
      cases opening with
      | function => exact absurd hopening hfirst
      | block => rfl
  · -- The function is the first one whose body has no scope.
    obtain ⟨body, hchild, hmissing, hline⟩ : ∃ body, node.children.second = some body ∧
        scopeOf body = none ∧ Event.missingScope? scopeOf (.enter id node) = some node.line := by
      simp only [Event.missingScope?] at hpresent ⊢
      split at hpresent
      · rename_i hmissing
        obtain ⟨body, hchild, hbody⟩ := Option.any_eq_true _ _ |>.mp hmissing.2
        exact ⟨body, hchild, by simpa using hbody, if_pos hmissing⟩
      · exact absurd rfl hpresent
    exact of_stops hline fun state hready =>
      enter_missing tree state id hnode hchild ((hready.knows body).trans hmissing)

end Settles

/-- Where no function leaks and the blocks are the nodes with a scope, a walk restores the active
scopes unless it comes to a function whose body has none. -/
theorem settles_forest {start : Option NodeId} {forest : Forest}
    (hforest : tree.Unfolds start forest) (hleaking : forest.leaking = [])
    (hscope : ∀ id node, (id, node) ∈ forest.entered → (scopeOf id ≠ none ↔ node.label.isBlock)) :
    Settles tree scopeOf forest.events := by
  induction hforest with
  | nil => exact Settles.nil
  | @cons id node first second third rest hnode _ hsecond _ _ ihFirst ihSecond ihThird ihRest =>
    simp only [Forest.leaking, List.append_eq_nil_iff] at hleaking
    obtain ⟨⟨htop, ⟨hleakFirst, hleakSecond⟩, hleakThird⟩, hleakRest⟩ := hleaking
    simp only [Forest.entered_cons, List.mem_cons, List.mem_append] at hscope
    have hkids : Settles tree scopeOf (first.events ++ second.events ++ third.events) :=
      ((ihFirst hleakFirst fun other otherNode h => hscope other otherNode (by simp [h])).append
        (ihSecond hleakSecond fun other otherNode h => hscope other otherNode (by simp [h]))).append
        (ihThird hleakThird fun other otherNode h => hscope other otherNode (by simp [h]))
    have hrest := ihRest hleakRest fun other otherNode h => hscope other otherNode (by simp [h])
    have htopScope := hscope id node (by simp)
    have haround : Settles tree scopeOf (.enter id node ::
        (first.events ++ second.events ++ third.events ++ [.leave id node])) := by
      by_cases hfunction : node.label.isFunction
      · refine hkids.around_function id hfunction ?_ ?_
        · intro hfirst
          rw [if_pos ⟨hfunction, hfirst⟩] at htop
          cases htop
        · intro body hchild hbody
          obtain ⟨bodyNode, _, _, _, _, -, hbodyForest⟩ := hsecond.eq_cons hchild
          have hentered : (body, bodyNode) ∈ second.entered := by simp [hbodyForest]
          have hblock := (hscope body bodyNode (by simp [hentered])).mp hbody
          have hmem : .enter body bodyNode ∈ first.events ++ second.events ++ third.events := by
            simp [Forest.mem_entered.mp hentered]
          exact firstOpening_ne_none hmem (by simp [Label.opening?_eq_block.mpr hblock])
      by_cases hblock : node.label.isBlock
      · exact hkids.around_block id hblock (htopScope.mpr hblock)
      · exact hkids.around_other id hfunction hblock
    simpa [Forest.events_cons] using haround.append hrest

end Typing

end ScopeCheck
