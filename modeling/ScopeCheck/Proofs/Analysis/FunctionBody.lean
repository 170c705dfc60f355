import ScopeCheck.Proofs.Analysis.Nesting
import ScopeCheck.Proofs.Analysis.Outcome

namespace ScopeCheck

namespace Tree

variable {tree : Tree} {id : NodeId} {node : Node} {before : List Event}

theorem Unfolds.start_eq {start : Option NodeId} {first second third rest : Forest}
    (h : tree.Unfolds start (.cons id node first second third rest)) :
    start = some id ∧ tree.node? id = some node := by
  cases h with
  | cons hnode => exact ⟨rfl, hnode⟩

/-- Between a function and its body a walk meets parameters only. -/
theorem exists_body (hwell : tree.WellLinked) (hshaped : tree.forest.Shaped)
    (h : before ++ [.enter id node] <+: tree.events) (hfunction : node.label.isFunction) :
    ∃ params body bodyNode after, Forest.IsParameters params ∧ node.children.second = some body ∧
      tree.node? body = some bodyNode ∧ bodyNode.label.isBlock ∧
      tree.events = before ++ .enter id node :: (params.events ++ .enter body bodyNode :: after) := by
  rw [← events_forest] at h ⊢
  obtain ⟨inner, first, second, third, rest, hleads⟩ := Forest.leads_of_enter Label.isBlock [] h
  obtain ⟨hshape, -⟩ := hleads.shaped hshaped
  obtain ⟨hparameters, hbody, -⟩ := hshape hfunction
  obtain ⟨after, hevents⟩ := hleads.events_eq
  obtain ⟨start, hsub⟩ := hleads.unfolds hwell.unfolds
  cases hsub with
  | cons hnode hfirst hsecond hthird hrest =>
    cases second with
    | nil => cases hbody
    | cons body bodyNode f s t others =>
      obtain ⟨hchild, hbodyNode⟩ := hsecond.start_eq
      refine ⟨first, body, bodyNode, f.events ++ s.events ++ t.events
        ++ .leave body bodyNode :: (others.events ++ third.events ++ .leave id node ::
          (rest.events ++ after)), hparameters, hchild, hbodyNode, hbody.1, ?_⟩
      rw [hevents, Forest.events_cons, Forest.events_cons]
      simp

theorem FunctionShaped.forest_shaped (hshaped : tree.FunctionShaped) (hwell : tree.WellLinked) :
    tree.forest.Shaped :=
  hshaped.shaped hwell hwell.unfolds fun _ htop => .root htop

theorem leakCount_eq_zero (hwell : tree.WellLinked) (hshaped : tree.forest.Shaped) :
    tree.leakCount = 0 := by
  rw [leakCount_eq hwell, hshaped.leaking_eq_nil]
  rfl

end Tree

namespace Resolution

variable {tree : Tree} {id : NodeId} {node : Node} {before after : List Event}

theorem scopeOf_block (hwell : tree.WellLinked) (builtins : Bool)
    (hevents : tree.events = before ++ .enter id node :: after) (hblock : node.label.isBlock) :
    (run (.start builtins) tree.events).facts.scopeOf id =
      blockScope (run (.start builtins) before) := by
  have hunset : (run (.start builtins) before).facts.scopeOf id = none := by
    rw [scopeOf_run_of_not_mem fun other => (Tree.not_mem_enter hwell hevents other).1,
      State.start_facts]
    rfl
  rw [hevents, run_append, run_cons,
    scopeOf_run_of_not_mem fun other => (Tree.not_mem_enter hwell hevents other).2,
    scopeOf_enter_block id hblock, if_pos ⟨rfl, hunset⟩]

/-- The body of a function is given the scope that is created when the function is entered. -/
theorem scopeOf_body (hwell : tree.WellLinked) (hshaped : tree.forest.Shaped) (builtins : Bool)
    (h : before ++ [.enter id node] <+: tree.events) (hfunction : node.label.isFunction) :
    ∃ body, node.children.second = some body ∧
      (run (.start builtins) tree.events).facts.scopeOf body =
        some (run (.start builtins) before).scopes.size := by
  obtain ⟨params, body, bodyNode, after, hparameters, hchild, -, hblock, hevents⟩ :=
    Tree.exists_body hwell hshaped h hfunction
  have hevents' : tree.events =
      (before ++ .enter id node :: params.events) ++ .enter body bodyNode :: after := by
    simp [hevents]
  refine ⟨body, hchild, ?_⟩
  obtain ⟨hentry, hscopes⟩ := enter_function_opens (run (.start builtins) before) id hfunction
  obtain ⟨hentry', hscopes'⟩ := @run_plain (step (run (.start builtins) before) (.enter id node))
    params.events fun event hmem => hparameters.opening? hmem
  rw [scopeOf_block hwell builtins hevents' hblock, run_append, run_cons, blockScope,
    hentry'.trans hentry, State.top_eq_head?, hscopes', hscopes]
  rfl

theorem blockEntry_of_leave (hshaped : tree.forest.Shaped) (builtins : Bool)
    (h : before ++ [.leave id node] <+: tree.events) (hfunction : node.label.isFunction) :
    (run (.start builtins) before).blockEntry = .fresh := by
  rw [← Tree.events_forest] at h
  obtain ⟨earlier, inner, first, second, third, rest, hleads, rfl⟩ :=
    Forest.leads_of_leave Label.isBlock [] h
  obtain ⟨hshape, -, hsecond, -⟩ := hleads.shaped hshaped
  obtain ⟨hparameters, hbody, rfl⟩ := hshape hfunction
  rw [run_append, Forest.events_nil, List.append_nil]
  exact (fresh_function _ _ hfunction hparameters hbody hsecond).blockEntry

theorem blockEntry_of_leave_block (hshaped : tree.forest.Shaped) (builtins : Bool)
    (h : before ++ [.leave id node] <+: tree.events) (hblock : node.label.isBlock) :
    (run (.start builtins) before).blockEntry = .fresh := by
  have hprefix := (List.prefix_append _ _).trans h
  rw [← Tree.events_forest] at h
  obtain ⟨earlier, inner, first, second, third, rest, hleads, rfl⟩ :=
    Forest.leads_of_leave Label.isBlock [] h
  obtain ⟨-, hfirst, hsecond, hthird, -⟩ := hleads.shaped hshaped
  have hfloor := floor_ne_nil builtins ((List.prefix_append _ _).trans hprefix)
  obtain ⟨opened, hentered⟩ := exists_fresh_enter_block id hblock hfloor
  rw [run_append, run_cons]
  exact (hentered.run_slots (List.cons_ne_nil _ _) hfirst hsecond hthird).blockEntry

end Resolution

end ScopeCheck
