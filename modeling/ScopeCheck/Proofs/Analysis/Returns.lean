import ScopeCheck.Proofs.Analysis.TypingReports
import ScopeCheck.Proofs.Tree.Enclosing

namespace ScopeCheck

def Event.leavesFunction : Event → Bool
  | .enter .. => false
  | .leave _ node => node.label.isFunction

namespace Typing

variable {events later : List Event} {id : NodeId} {node : Node}

/-- Some events leave the function that is around as it is, unless one of them leaves a function. -/
def Forgets (events : List Event) : Prop :=
  ∀ enclosing, events.foldl enclosingStep enclosing =
    if events.any Event.leavesFunction then none else enclosing

theorem Forgets.append (h : Forgets events) (h' : Forgets later) : Forgets (events ++ later) := by
  intro enclosing
  rw [List.foldl_append, h, h', List.any_append]
  cases events.any Event.leavesFunction <;> cases later.any Event.leavesFunction <;> rfl

theorem Forgets.foldl_none (h : Forgets events) : events.foldl enclosingStep none = none := by
  rw [h]
  split <;> rfl

theorem forgets_enter (h : ¬ node.label.isFunction) : Forgets [.enter id node] := by
  intro enclosing
  simp [enclosingStep, Label.enclosing?_eq_none h, Event.leavesFunction]

theorem Forgets.around (h : Forgets events) (id : NodeId) (node : Node) :
    Forgets (.enter id node :: (events ++ [.leave id node])) := by
  intro enclosing
  rw [List.foldl_cons, List.foldl_append, h]
  by_cases hfunction : node.label.isFunction
  · simp [enclosingStep, Event.leavesFunction, hfunction]
  · simp [enclosingStep, Event.leavesFunction, hfunction, Label.enclosing?_eq_none hfunction]

theorem forgets_events (forest : Forest) : Forgets forest.events := by
  induction forest with
  | nil => exact fun _ => rfl
  | cons id node first second third rest ihFirst ihSecond ihThird ihRest =>
    have hkids := (((ihFirst.append ihSecond).append ihThird).around id node).append ihRest
    simpa [Forest.events_cons] using hkids

theorem forgets_slotted {first second third kid : Forest} {past : List Event}
    (h : Forest.Slotted first second third past kid) : Forgets past := by
  cases h with
  | first => exact fun _ => rfl
  | second => exact forgets_events _
  | third => exact (forgets_events _).append (forgets_events _)

/-- On a way that goes into no function only whole functions are left behind. -/
theorem forgets_leads {around inner : List NodeId} {forest sub : Forest} {before : List Event}
    (h : Forest.Leads Label.isFunction around forest before inner sub)
    (hlength : inner.length ≤ around.length) : Forgets before := by
  induction h with
  | here => exact fun _ => rfl
  | @inside around inner id node _ _ _ _ _ _ _ _ hslot h ih =>
    have hsuffix := h.suffix.length_le
    by_cases hfunction : node.label.isFunction
    · simp only [Tree.enclose, if_pos hfunction, List.length_cons] at hsuffix
      omega
    · have hbelow := ih (by rwa [Tree.enclose, if_neg hfunction])
      exact (forgets_enter hfunction).append ((forgets_slotted hslot).append hbelow)
  | @rest _ _ id node first second third _ _ _ _ ih =>
    have hkids := (forgets_events first).append (forgets_events second)
    simpa using ((hkids.append (forgets_events third)).around id node).append (ih hlength)

end Typing

namespace Tree

variable {tree : Tree} {id : NodeId} {node : Node} {around : List NodeId}

/-- When a node is left, a walk has come to it and has gone through its child slots. -/
theorem Inside.exists_leave (hwell : tree.WellLinked) {p : Label → Bool}
    (h : tree.Inside p around id) (hnode : tree.node? id = some node) :
    ∃ before after first second third rest,
      tree.forest.Leads p [] before around (.cons id node first second third rest) ∧
        tree.events = before ++ .enter id node :: (first.events ++ second.events ++ third.events)
          ++ .leave id node :: after := by
  obtain ⟨before, -, first, second, third, rest, hleads, -⟩ := h.exists_walk hwell hnode
  obtain ⟨after, hevents⟩ := hleads.events_eq
  refine ⟨before, rest.events ++ after, first, second, third, rest, hleads, ?_⟩
  rw [← events_forest, hevents, Forest.events_cons]
  simp

/-- When a node that is no function is left, the function that is taken to be around it is the
innermost one, or none if another one has been left since that one was entered. -/
theorem Inside.exists_enclosing (hwell : tree.WellLinked)
    (h : tree.Inside Label.isFunction around id) (hnode : tree.node? id = some node)
    (hother : ¬ node.label.isFunction) :
    ∃ before after, tree.events = before ++ .leave id node :: after ∧
      (around = [] → before.foldl Typing.enclosingStep none = none) ∧
      ∀ outer beyond, around = outer :: beyond → ∃ outerNode earlier between,
        tree.node? outer = some outerNode ∧ outerNode.label.isFunction ∧
          before = earlier ++ .enter outer outerNode :: between ∧
          before.foldl Typing.enclosingStep none =
            if between.any Event.leavesFunction then none else outerNode.label.enclosing? := by
  obtain ⟨before, after, first, second, third, rest, hleads, hevents⟩ := h.exists_leave hwell hnode
  have hkids : Typing.Forgets
      (.enter id node :: (first.events ++ second.events ++ third.events)) :=
    (Typing.forgets_enter hother).append (((Typing.forgets_events first).append
      (Typing.forgets_events second)).append (Typing.forgets_events third))
  refine ⟨_, after, hevents, ?_, ?_⟩
  · rintro rfl
    exact ((Typing.forgets_leads hleads (Nat.le_refl _)).append hkids).foldl_none
  · rintro outer beyond rfl
    rcases hleads.split (List.suffix_refl _) with hnil |
      ⟨earlier, outerNode, _, _, _, _, past, kid, later, houter, hfunction, hslot, hlater, rfl⟩
    · cases List.suffix_nil.mp hnil
    · obtain ⟨_, hsub⟩ := houter.unfolds hwell.unfolds
      have houterNode : tree.node? outer = some outerNode := by
        cases hsub with
        | cons houterNode => exact houterNode
      obtain ⟨decl, hdecl, hkind⟩ := Label.exists_declaration hfunction
      refine ⟨outerNode, earlier, past ++ later ++ .enter id node ::
        (first.events ++ second.events ++ third.events), houterNode, hfunction, by simp, ?_⟩
      -- The way goes into no other function after it has come into this one.
      have hbetween := ((Typing.forgets_slotted hslot).append
        (Typing.forgets_leads hlater (Nat.le_refl _))).append hkids
      rw [List.append_assoc, List.cons_append, List.foldl_append, List.foldl_cons, hbetween]
      simp [Typing.enclosingStep, hdecl, hkind, Label.enclosing?]

end Tree

/-- The value has a type that the function does not return, or there is none and the function returns
one. -/
def Model.WrongReturn (model : Model) (function : Declaration) (node : Node) : Prop :=
  let value := node.children.first
  (function.type = .void ∧
    ∃ found, value.bind model.facts.typeOf = some found ∧ found ≠ .void) ∨
  (function.type ≠ .void ∧ (value = none ∨
    ∃ found, value.bind model.facts.typeOf = some found ∧ found ≠ function.type))

namespace Model

variable {tree : Tree} {model : Model} {function : Declaration} {node : Node}

theorem ret_reports
    (hchild : ∀ child, node.children.first = some child → tree.node? child ≠ none) :
    (model.WrongReturn function node →
      Report.ret node.line ⟨function.name, function.type⟩
          (model.operand? tree node.children.first) =
        [⟨node.line, .returnTypeMismatch function.name function.type
          (node.children.first.bind model.facts.typeOf)⟩]) ∧
    (¬ model.WrongReturn function node →
      Report.ret node.line ⟨function.name, function.type⟩
        (model.operand? tree node.children.first) = []) := by
  simp only [WrongReturn]
  cases hvalue : node.children.first with
  | none => cases function.type <;> simp [operand?, Report.ret]
  | some child =>
    obtain ⟨childNode, hnode⟩ := Option.ne_none_iff_exists'.mp (hchild child hvalue)
    have hoperand : model.operand? tree (some child) =
        some ⟨childNode.line, model.facts.typeOf child⟩ := by
      simp [operand?, hnode, Typing.operandOf]
    rw [hoperand]
    cases hfound : model.facts.typeOf child with
    | none => simp [Report.ret, hfound]
    | some found =>
      by_cases htype : function.type = .void
      · simp [Report.ret, hfound, htype]
      · simp [Report.ret, hfound, htype]

end Model

/-- When a return is left it is checked against the innermost function around it, unless another
function has been left since that one was entered; then nothing is checked. -/
theorem diagnostics_leave_ret {text : String} {tree : Tree} (h : Tree.ofText text = .ok tree)
    {builtins : Bool} {model : Model} (hmodel : analyze builtins tree = .ok model)
    {around : List NodeId} {id : NodeId} {node : Node}
    (haround : tree.Inside Label.isFunction around id) (hnode : tree.node? id = some node)
    (hret : node.label = .statement .ret) :
    ∃ resolved before after state reports,
      resolveNames tree (.start builtins) = .ok () resolved ∧
      tree.events = before ++ .leave id node :: after ∧
      Typing.run tree ⟨resolved, none⟩ before = .ok state ∧
      (Typing.leave tree state id node).base.diagnostics.toList =
        state.base.diagnostics.toList ++ reports ∧
      (around = [] → reports = []) ∧
      ∀ outer beyond, around = outer :: beyond → ∃ outerNode function earlier between,
        tree.node? outer = some outerNode ∧ outerNode.label = .declaration function ∧
        function.kind = .function ∧ before = earlier ++ .enter outer outerNode :: between ∧
        ((∃ event ∈ between, event.leavesFunction) → reports = []) ∧
        ((∀ event ∈ between, ¬ event.leavesFunction) →
          (model.WrongReturn function node → reports =
            [⟨node.line, .returnTypeMismatch function.name function.type
              (node.children.first.bind model.facts.typeOf)⟩]) ∧
          (¬ model.WrongReturn function node → reports = [])) := by
  have hwell := Tree.wellLinked_of_ofText h
  obtain ⟨hdepth, typed, hrun, -, rfl⟩ := analyze_eq_ok_iff.mp hmodel
  have hsymbol := Typing.resolvedSymbol_eq_symbolAt hrun
  have hid := (Tree.reachable_iff_exists_inside Label.isFunction).mpr ⟨around, haround⟩
  obtain ⟨before, after, hevents, hnone, hsome⟩ :=
    haround.exists_enclosing hwell hnode (by simp [hret, Label.isFunction])
  have hwalk : before ++ [.leave id node] <+: tree.events := ⟨after, by simp [hevents]⟩
  have hbefore := (List.prefix_append _ _).trans hwalk
  obtain ⟨state, hstate⟩ := Typing.exists_run_of_prefix tree hbefore hrun
  have htypes := Typing.typeOf_run_eq hwell hrun
  obtain ⟨henclosing, -⟩ :=
    Typing.diagnostics_run hwell typed.base.toModel hsymbol htypes hbefore hstate
  have hreports := Typing.verdict_reports hwell typed.base.toModel hwalk
    (((Typing.sameNames_run hstate).resolvedSymbol_eq id).trans (hsymbol id))
    (htypes before state hbefore hstate)
  refine ⟨_, before, after, state, _, by rw [resolveNames_eq, if_pos hdepth], hevents, hstate,
    by rw [Typing.diagnostics_leave, Array.toList_append, hreports], ?_, ?_⟩
  · intro hnil
    rw [henclosing, hnone hnil]
    simp [Model.own, hret]
  · intro outer beyond hcons
    obtain ⟨outerNode, earlier, between, houter, hfunction, hsplit, hlast⟩ := hsome outer beyond hcons
    obtain ⟨function, hdecl, hkind⟩ := Label.exists_declaration hfunction
    refine ⟨outerNode, function, earlier, between, houter, hdecl, hkind, hsplit, ?_, ?_⟩
    · intro hleft
      rw [henclosing, hlast, if_pos (by simpa using hleft)]
      simp [Model.own, hret]
    · intro hkept
      have hown : typed.base.toModel.own tree state.enclosing id node = Report.ret node.line
          ⟨function.name, function.type⟩
          (typed.base.toModel.operand? tree node.children.first) := by
        rw [henclosing, hlast, if_neg (by simpa using hkept), hdecl]
        simp [Model.own, hret, Label.enclosing?, hkind]
      rw [hown]
      exact Model.ret_reports fun child hchild => (hid.child 0 hnode hchild).node_ne_none hwell

/-- A function in the block of another one, with a wrong return in each of them. -/
def forgottenText : String :=
  "[0,[\x7b\"kind\":\"fun\",\"name\":\"f\",\"type\":\"void\",\"line\":1,\"children\":[null,1]\x7d,"
    ++ "\x7b\"kind\":\"compound\",\"line\":1,\"children\":[2,5]\x7d,"
    ++ "\x7b\"kind\":\"fun\",\"name\":\"g\",\"type\":\"integer\",\"line\":2,\"children\":[null,3]\x7d,"
    ++ "\x7b\"kind\":\"compound\",\"line\":2,\"children\":[null,4]\x7d,"
    ++ "\x7b\"kind\":\"return\",\"line\":3\x7d,"
    ++ "\x7b\"kind\":\"return\",\"line\":4,\"children\":[6]\x7d,"
    ++ "\x7b\"kind\":\"const\",\"line\":4,\"value\":1\x7d]]"

def forgottenTree : Tree where
  nodes := #[
    ⟨.declaration ⟨.function, "f", .void, none⟩, 1, ⟨none, some 1, none⟩, none⟩,
    ⟨.statement .block, 1, ⟨some 2, some 5, none⟩, none⟩,
    ⟨.declaration ⟨.function, "g", .integer, none⟩, 2, ⟨none, some 3, none⟩, none⟩,
    ⟨.statement .block, 2, ⟨none, some 4, none⟩, none⟩,
    .leaf (.statement .ret) 3,
    ⟨.statement .ret, 4, ⟨some 6, none, none⟩, none⟩,
    .leaf (.expression (.constant 1)) 4]
  root := some 0

theorem ofText_forgottenText : Tree.ofText forgottenText = .ok forgottenTree :=
  Tree.ofText_eq_ok
    (ofList_append (ofList_append (ofList_append (ofList_append (ofList_append
      (ofList_append rfl rfl) rfl) rfl) rfl) rfl) rfl)
    (by decide +kernel)

theorem inside_forgottenTree : forgottenTree.Inside Label.isFunction [2, 0] 4 ∧
    forgottenTree.Inside Label.isFunction [0] 5 := by
  have hroot : forgottenTree.Inside Label.isFunction [] 0 := .root rfl
  have houter : forgottenTree.Inside Label.isFunction [0] 1 := .child 1 hroot rfl rfl
  have hfunction : forgottenTree.Inside Label.isFunction [0] 2 := .child 0 houter rfl rfl
  have hinner : forgottenTree.Inside Label.isFunction [2, 0] 3 := .child 1 hfunction rfl rfl
  exact ⟨.child 1 hinner rfl rfl, .child 1 houter rfl rfl⟩

/-- The return of the inner function is checked when it is left. -/
theorem diagnostics_leave_forgottenTree :
    Tree.ofText forgottenText = .ok forgottenTree ∧
      forgottenTree.Inside Label.isFunction [2, 0] 4 ∧
      ∃ node before after resolved state,
        resolveNames forgottenTree (.start true) = .ok () resolved ∧
        forgottenTree.events = before ++ .leave 4 node :: after ∧
        Typing.run forgottenTree ⟨resolved, none⟩ before = .ok state ∧
        (Typing.leave forgottenTree state 4 node).base.diagnostics.toList =
          state.base.diagnostics.toList ++ [⟨3, .returnTypeMismatch "g" .integer none⟩] := by
  obtain ⟨model, hmodel⟩ : ∃ model, analyze true forgottenTree = .ok model := ⟨_, rfl⟩
  obtain ⟨resolved, before, after, state, reports, hresolved, hevents, hstate, hreports, -,
    hchecked⟩ := diagnostics_leave_ret ofText_forgottenText hmodel inside_forgottenTree.1 rfl rfl
  obtain ⟨_, function, earlier, between, houter, hfunction, -, rfl, -, hkept⟩ := hchecked 2 [0] rfl
  cases houter
  cases hfunction
  -- Both functions are left after the return.
  have hlate : ∀ event ∈ forgottenTree.events, event.leavesFunction →
      ¬ [event, .leave 4 (.leaf (.statement .ret) 3)].Sublist forgottenTree.events := by decide
  have hbetween : ∀ event ∈ between, ¬ event.leavesFunction := by
    intro event hmem hleaves
    refine hlate event (by simp [hevents, hmem]) hleaves ?_
    rw [hevents]
    exact (List.singleton_sublist.mpr (by simp [hmem])).append
      (List.singleton_sublist.mpr List.mem_cons_self)
  rw [(hkept hbetween).1 (.inr ⟨by decide, .inl rfl⟩)] at hreports
  exact ⟨ofText_forgottenText, inside_forgottenTree.1, _, _, after, resolved, state, hresolved,
    hevents, hstate, hreports⟩

/-- The return of the outer function is wrong as well, but the inner one has been left before. -/
theorem unchecked_forgottenTree :
    Tree.ofText forgottenText = .ok forgottenTree ∧
      forgottenTree.Inside Label.isFunction [0] 5 ∧
      ∃ outerNode node model, forgottenTree.node? 0 = some outerNode ∧
        outerNode.label = .declaration ⟨.function, "f", .void, none⟩ ∧
        forgottenTree.node? 5 = some node ∧ node.label = .statement .ret ∧ node.line = 4 ∧
        analyze true forgottenTree = .ok model ∧
        model.WrongReturn ⟨.function, "f", .void, none⟩ node ∧
        model.diagnostics.toList = [⟨3, .returnTypeMismatch "g" .integer none⟩] :=
  ⟨ofText_forgottenText, inside_forgottenTree.2, _, _, _, rfl, rfl, rfl, rfl, rfl, rfl,
    .inl ⟨rfl, .integer, rfl, by decide⟩, rfl⟩

end ScopeCheck
