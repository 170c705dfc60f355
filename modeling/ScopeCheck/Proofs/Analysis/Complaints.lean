import ScopeCheck.Proofs.Analysis.NameAccounting

namespace ScopeCheck

theorem Typing.mem_entered_of_leftAlong {tree : Tree} {outer enclosing : Option Enclosing}
    {id : NodeId} {node : Node} (h : (enclosing, id, node) ∈ leftAlong outer tree.events) :
    (id, node) ∈ tree.entered := by
  rw [Tree.entered_eq, ← tree.forest.left_perm_entered.mem_iff, Forest.left, Tree.events_forest,
    ← map_leftAlong outer]
  exact List.mem_map_of_mem h

namespace Model

/-- What is complained about, in the order of the diagnostics: names where they are entered, then
types where they are left. -/
def complaints (model : Model) (tree : Tree) : List (NodeId × Diagnostic) :=
  (tree.entered.flatMap fun (id, node) => (model.facts.nameReports id node).map (id, ·))
    ++ (Typing.leftAlong none tree.events).flatMap fun (enclosing, id, node) =>
      (model.own tree enclosing id node).map (id, ·)

def addType (model : Model) (tree : Tree) (types : IndexMap ValueType) (id : NodeId) :
    IndexMap ValueType :=
  match model.ty tree id with
  | none => types
  | some type => types.insert id type

theorem map_snd_complaints (model : Model) (tree : Tree) :
    (model.complaints tree).map Prod.snd =
      (tree.entered.flatMap fun (id, node) => model.facts.nameReports id node)
        ++ (Typing.leftAlong none tree.events).flatMap fun (enclosing, id, node) =>
          model.own tree enclosing id node := by
  simp [complaints, List.map_flatMap, Function.comp_def]

/-- A complaint is about a node that is entered: about its name, or about its type. -/
theorem mem_complaints {model : Model} {tree : Tree} {id : NodeId} {diagnostic : Diagnostic}
    (h : (id, diagnostic) ∈ model.complaints tree) :
    ∃ node, (id, node) ∈ tree.entered ∧ (diagnostic ∈ model.facts.nameReports id node ∨
      ∃ enclosing, diagnostic ∈ model.own tree enclosing id node) := by
  rcases List.mem_append.mp h with hname | htype
  · obtain ⟨⟨other, node⟩, hentered, hmem⟩ := List.mem_flatMap.mp hname
    obtain ⟨found, hfound, heq⟩ := List.mem_map.mp hmem
    cases heq
    exact ⟨node, hentered, .inl hfound⟩
  · obtain ⟨⟨enclosing, other, node⟩, hleft, hmem⟩ := List.mem_flatMap.mp htype
    obtain ⟨found, hfound, heq⟩ := List.mem_map.mp hmem
    cases heq
    exact ⟨node, Typing.mem_entered_of_leftAlong hleft, .inr ⟨enclosing, hfound⟩⟩

end Model

namespace Typing

variable {tree : Tree} {builtins : Bool} {typed state : TypingState} {before : List Event}

/-- At any time of a walk the types are recorded for the nodes that have been left, in order. -/
theorem types_run (hwell : tree.WellLinked)
    (hend : run tree ⟨Resolution.run (.start builtins) tree.events, none⟩ tree.events = .ok typed)
    (hbefore : before <+: tree.events)
    (hrun : run tree ⟨Resolution.run (.start builtins) tree.events, none⟩ before = .ok state) :
    state.base.facts.types = (leftIds before).foldl (typed.base.toModel.addType tree)
      (Resolution.run (.start builtins) tree.events).facts.types := by
  refine run_induction tree (motive := fun before state => state.base.facts.types =
    (leftIds before).foldl (typed.base.toModel.addType tree)
      (Resolution.run (.start builtins) tree.events).facts.types) rfl ?_ hbefore hrun
  intro before event state next hwalk hrun ih hstep
  have hbefore : before <+: tree.events := (List.prefix_append _ _).trans hwalk
  cases event with
  | enter id node => rw [facts_enter hstep, ih, leftIds_append, leftIds_enter, leftIds_nil,
      List.append_nil]
  | leave id node =>
    cases hstep
    obtain ⟨hid, hnode, -⟩ := Tree.below_of_leave hwell hwalk
    have htype : (verdict tree state id node).type = typed.base.toModel.ty tree id := by
      apply verdict_type hwell _ hid hnode
      · rw [(sameNames_run hrun).resolvedSymbol_eq, resolvedSymbol_eq_symbolAt hend]
      · intro slot child hchild
        rw [typeOf_run_ty hwell hend hbefore hrun child,
          if_pos (Tree.child_mem_leftIds hwell hwalk hchild)]
    rw [leftIds_append, leftIds_leave, leftIds_nil, List.foldl_append, List.foldl_cons,
      List.foldl_nil, ← ih, facts_leave, htype, Model.addType]
    cases typed.base.toModel.ty tree id <;> rfl

/-- The diagnostics of the first pass are about names, and the second one adds those about types. -/
theorem diagnostics_eq_complaints (hwell : tree.WellLinked)
    (hend : run tree ⟨Resolution.run (.start builtins) tree.events, none⟩ tree.events = .ok typed) :
    typed.base.diagnostics.toList = (typed.base.toModel.complaints tree).map Prod.snd := by
  have hsame := sameNames_run hend
  have hnames : ∀ id node, typed.base.toModel.facts.nameReports id node =
      (Resolution.run (.start builtins) tree.events).facts.nameReports id node := by
    intro id node
    have hdeclared : typed.base.toModel.facts.declared id =
        (Resolution.run (.start builtins) tree.events).facts.declared id := hsame.declared_eq id
    have hresolution : typed.base.toModel.facts.resolution id =
        (Resolution.run (.start builtins) tree.events).facts.resolution id := hsame.resolution_eq id
    simp only [NodeFacts.nameReports, hdeclared, hresolution]
  have haccounts := Resolution.accounts_run hwell builtins (List.prefix_refl tree.events)
  have hown := (diagnostics_run hwell typed.base.toModel (resolvedSymbol_eq_symbolAt hend)
    (typeOf_run_eq hwell hend) (List.prefix_refl _) hend).2
  rw [hown, haccounts.diagnostics, State.start_diagnostics, Model.map_snd_complaints]
  simp only [hnames]
  rfl

end Typing

theorem Model.diagnostics_of_analyze {tree : Tree} (hwell : tree.WellLinked) {builtins : Bool}
    {model : Model} (hmodel : analyze builtins tree = .ok model) :
    model.diagnostics.toList = (model.complaints tree).map Prod.snd := by
  obtain ⟨-, typed, hrun, -, rfl⟩ := analyze_eq_ok_iff.mp hmodel
  exact Typing.diagnostics_eq_complaints hwell hrun

end ScopeCheck
