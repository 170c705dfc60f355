import Mathlib.Data.Set.Card
import ScopeCheck.Proofs.Analysis.BlockScopes
import ScopeCheck.Proofs.Analysis.TypingBalance
import ScopeCheck.Proofs.Document.Links

namespace ScopeCheck

namespace Tree

variable {tree : Tree}

/-- How many functions leak, of those that the root leads to. -/
noncomputable def leakCount (tree : Tree) : Nat :=
  {id | tree.Reachable id ∧ tree.Leaks id}.ncard

/-- The function that a walk enters first of those whose second child slot holds something else than
a block. -/
structure IsFirstOddBody (tree : Tree) (id : NodeId) : Prop where
  reachable : tree.Reachable id
  odd : tree.HasOddBody id
  first : ∀ other, tree.Reachable other → tree.HasOddBody other → other ≠ id →
    tree.EnteredBefore id other

theorem Unfolds.mem_leaking (hwell : tree.WellLinked) {start : Option NodeId} {forest : Forest}
    (h : tree.Unfolds start forest) (hstart : ∀ top, start = some top → tree.Reachable top)
    {id : NodeId} : id ∈ forest.leaking ↔ id ∈ forest.ids ∧ tree.Leaks id := by
  induction h with
  | nil => simp [Forest.leaking]
  | @cons top node first second third rest hnode hfirst hsecond hthird hrest
      ihFirst ihSecond ihThird ihRest =>
    have htop := hstart top rfl
    have hbelow : tree.eventsBelow node = first.events ++ second.events ++ third.events := by
      rw [eventsBelow, htop.eventsFrom_eq hwell hnode (by simp [Slots.toList]) hfirst,
        htop.eventsFrom_eq hwell hnode (by simp [Slots.toList]) hsecond,
        htop.eventsFrom_eq hwell hnode (by simp [Slots.toList]) hthird]
    have hleaks : tree.Leaks top ↔ node.label.isFunction ∧
        firstOpening (first.events ++ second.events ++ third.events) = some .function := by
      rw [← hbelow, Leaks]
      simp [hnode]
    simp only [Forest.leaking, Forest.ids_cons, List.mem_append, List.mem_cons,
      List.mem_ite_nil_right, List.not_mem_nil, or_false,
      ihFirst fun next hnext => .child 0 htop hnode hnext,
      ihSecond fun next hnext => .child 1 htop hnode hnext,
      ihThird fun next hnext => .child 2 htop hnode hnext,
      ihRest fun next hnext => .sibling htop hnode hnext, ← hleaks]
    constructor
    · rintro ((⟨htop, rfl⟩ | ((⟨hmem, hid⟩ | ⟨hmem, hid⟩) | ⟨hmem, hid⟩)) | ⟨hmem, hid⟩)
      · exact ⟨.inl rfl, htop⟩
      · exact ⟨.inr (.inl (.inl (.inl hmem))), hid⟩
      · exact ⟨.inr (.inl (.inl (.inr hmem))), hid⟩
      · exact ⟨.inr (.inl (.inr hmem)), hid⟩
      · exact ⟨.inr (.inr hmem), hid⟩
    · rintro ⟨rfl | ((hmem | hmem) | hmem) | hmem, hid⟩
      · exact .inl (.inl ⟨hid, rfl⟩)
      · exact .inl (.inr (.inl (.inl ⟨hmem, hid⟩)))
      · exact .inl (.inr (.inl (.inr ⟨hmem, hid⟩)))
      · exact .inl (.inr (.inr ⟨hmem, hid⟩))
      · exact .inr ⟨hmem, hid⟩

end Tree

theorem Forest.leaking_sublist (forest : Forest) : forest.leaking.Sublist forest.ids := by
  induction forest with
  | nil => exact List.Sublist.refl _
  | cons id node first second third rest ihFirst ihSecond ihThird ihRest =>
    have hbelow := ((ihFirst.append ihSecond).append ihThird).append ihRest
    simp only [leaking, ids_cons, List.append_assoc] at hbelow ⊢
    split
    · exact hbelow.cons_cons id
    · exact hbelow.cons id

theorem Tree.leakCount_eq {tree : Tree} (hwell : tree.WellLinked) :
    tree.leakCount = tree.forest.leaking.length := by
  have hnodup : tree.forest.leaking.Nodup := hwell.nodup_ids.sublist tree.forest.leaking_sublist
  have hset : {id | tree.Reachable id ∧ tree.Leaks id} = tree.forest.leaking.toFinset := by
    ext id
    rw [List.coe_toFinset, Set.mem_ofPred_eq, Set.mem_ofPred_eq,
      hwell.unfolds.mem_leaking hwell fun top htop => .root htop,
      reachable_iff_mem_ids hwell.unfolds]
  rw [leakCount, hset, Set.ncard_coe_finset, List.toFinset_card_of_nodup hnodup]

namespace Tree

variable {tree : Tree} {forest : Forest} {scopeOf : NodeId → Option ScopeId}

/-- Where the blocks are the nodes with a scope, the functions whose body has none are those with
something else than a block for it. -/
theorem missingScope?_enter (hforest : tree.Unfolds tree.root forest)
    (hscope : ∀ id node, (id, node) ∈ forest.entered → (scopeOf id ≠ none ↔ node.label.isBlock))
    {id : NodeId} {node : Node} (hmem : (id, node) ∈ forest.entered) {line : UInt32} :
    Event.missingScope? scopeOf (.enter id node) = some line ↔
      tree.HasOddBody id ∧ node.line = line := by
  have hnode := hforest.node_of_mem hmem
  have hreachable := reachable_of_entered hforest hmem
  have hodd : tree.HasOddBody id ↔
      node.label.isFunction ∧ node.children.second.any fun body => scopeOf body = none := by
    constructor
    · rintro ⟨_, body, bodyNode, hnode', hfunction, hchild, hbodyNode, hblock⟩
      obtain rfl : _ = _ := Option.some.inj (hnode'.symm.trans hnode)
      have hbody : (body, bodyNode) ∈ forest.entered :=
        (reachable_iff_entered hforest).mp ⟨.child 1 hreachable hnode hchild, hbodyNode⟩
      refine ⟨hfunction, ?_⟩
      rw [hchild]
      simpa using mt (hscope body bodyNode hbody).mp hblock
    · rintro ⟨hfunction, hbody⟩
      obtain ⟨body, hchild, hmissing⟩ := Option.any_eq_true _ _ |>.mp hbody
      obtain ⟨bodyNode, hbody⟩ :=
        Reachable.entered hforest (.child 1 hreachable hnode hchild)
      refine ⟨node, body, bodyNode, hnode, hfunction, hchild, hforest.node_of_mem hbody, ?_⟩
      intro hblock
      exact (hscope body bodyNode hbody).mpr hblock (by simpa using hmissing)
  rw [hodd, Event.missingScope?]
  split <;> simp_all

theorem missingScope?_ne_none (hforest : tree.Unfolds tree.root forest)
    (hscope : ∀ id node, (id, node) ∈ forest.entered → (scopeOf id ≠ none ↔ node.label.isBlock))
    {event : Event} (hmem : event ∈ forest.events)
    (hevent : Event.missingScope? scopeOf event ≠ none) :
    ∃ id node, event = .enter id node ∧ (id, node) ∈ forest.entered ∧ tree.HasOddBody id := by
  cases event with
  | leave id node => exact absurd rfl hevent
  | enter id node =>
    have hentered := Forest.mem_entered.mpr hmem
    obtain ⟨line, hline⟩ := Option.ne_none_iff_exists'.mp hevent
    exact ⟨id, node, rfl, hentered, ((missingScope?_enter hforest hscope hentered).mp hline).1⟩

theorem findSome?_missingScope?_eq_none (hwell : tree.WellLinked)
    (hscope : ∀ id node, (id, node) ∈ tree.forest.entered →
      (scopeOf id ≠ none ↔ node.label.isBlock)) :
    tree.events.findSome? (Event.missingScope? scopeOf) = none ↔
      ∀ id, tree.Reachable id → ¬ tree.HasOddBody id := by
  rw [List.findSome?_eq_none_iff, ← events_forest]
  constructor
  · intro h id hid hodd
    obtain ⟨node, hentered⟩ := hid.entered hwell.unfolds
    have hline := (missingScope?_enter hwell.unfolds hscope hentered).mpr ⟨hodd, rfl⟩
    rw [h _ (Forest.mem_entered.mp hentered)] at hline
    cases hline
  · intro h event hmem
    by_contra hevent
    obtain ⟨id, node, rfl, hentered, hodd⟩ :=
      missingScope?_ne_none hwell.unfolds hscope hmem hevent
    exact h id (reachable_of_entered hwell.unfolds hentered) hodd

theorem exists_isFirstOddBody (hwell : tree.WellLinked)
    (hscope : ∀ id node, (id, node) ∈ tree.forest.entered →
      (scopeOf id ≠ none ↔ node.label.isBlock)) {line : UInt32}
    (h : tree.events.findSome? (Event.missingScope? scopeOf) = some line) :
    ∃ id node, tree.IsFirstOddBody id ∧ tree.node? id = some node ∧ node.line = line := by
  obtain ⟨before, event, after, hevents, hevent, hbefore⟩ := List.findSome?_eq_some_iff.mp h
  rw [← events_forest] at hevents
  have hmem : event ∈ tree.forest.events := by simp [hevents]
  obtain ⟨id, node, rfl, hentered, hodd⟩ :=
    missingScope?_ne_none hwell.unfolds hscope hmem (by simp [hevent])
  have hline := ((missingScope?_enter hwell.unfolds hscope hentered).mp hevent).2
  refine ⟨id, node, ⟨reachable_of_entered hwell.unfolds hentered, hodd, ?_⟩,
    hwell.unfolds.node_of_mem hentered, hline⟩
  -- Another one that was entered earlier would have been found instead.
  intro other hother hotherOdd hne
  obtain ⟨otherNode, hotherEntered⟩ := hother.entered hwell.unfolds
  have hotherLine := (missingScope?_enter hwell.unfolds hscope hotherEntered).mpr ⟨hotherOdd, rfl⟩
  have hmem : .enter other otherNode ∈ before ++ .enter id node :: after :=
    hevents ▸ Forest.mem_entered.mp hotherEntered
  have hafter : .enter other otherNode ∈ after := by
    rcases List.mem_append.mp hmem with hmem | hmem
    · rw [hbefore _ hmem] at hotherLine
      cases hotherLine
    rcases List.mem_cons.mp hmem with heq | hmem
    · cases heq
      exact absurd rfl hne
    · exact hmem
  exact enteredBefore_of_mem_after (events_forest tree ▸ hevents) hafter

/-- The first function whose body has no scope is the first with something else than a block for
it. -/
theorem findSome?_missingScope?_eq_some (hwell : tree.WellLinked)
    (hscope : ∀ id node, (id, node) ∈ tree.forest.entered →
      (scopeOf id ≠ none ↔ node.label.isBlock)) {line : UInt32} :
    tree.events.findSome? (Event.missingScope? scopeOf) = some line ↔
      ∃ id node, tree.IsFirstOddBody id ∧ tree.node? id = some node ∧ node.line = line := by
  constructor
  · exact exists_isFirstOddBody hwell hscope
  · rintro ⟨id, node, hid, hnode, rfl⟩
    cases hfind : tree.events.findSome? (Event.missingScope? scopeOf) with
    | none =>
      exact absurd hid.odd
        ((findSome?_missingScope?_eq_none hwell hscope).mp hfind id hid.reachable)
    | some found =>
      obtain ⟨other, otherNode, hother, hotherNode, rfl⟩ :=
        exists_isFirstOddBody hwell hscope hfind
      by_cases heq : other = id
      · subst heq
        rw [Option.some.inj (hotherNode.symm.trans hnode)]
      · exact absurd (hother.first id hid.reachable hid.odd fun h => heq h.symm)
          ((hid.first other hother.reachable hother.odd heq).asymm hwell)

end Tree

variable {tree : Tree}

namespace Resolution

variable (builtins : Bool)

theorem start_floor : (State.start builtins).floor = [State.global] := by
  rw [State.floor, State.start_blockEntry, BlockEntry.settle_fresh, State.start_active]

theorem restores_events (hwell : tree.WellLinked) :
    Restores (firstOpening tree.events) tree.leakCount (.start builtins)
      (run (.start builtins) tree.events) := by
  rw [Tree.leakCount_eq hwell, ← Tree.events_forest]
  exact (settles_forest tree.forest).restores _ (by simp [start_floor])

theorem global_suffix_floor {before : List Event} (hbefore : before <+: tree.events) :
    [State.global] <:+ (run (.start builtins) before).floor := by
  rw [← start_floor builtins]
  rw [← Tree.events_forest] at hbefore
  exact (settles_forest tree.forest).floor _ (by simp [start_floor]) before hbefore

theorem global_suffix {before : List Event} (hbefore : before <+: tree.events) :
    [State.global] <:+ (run (.start builtins) before).active.scopes :=
  (global_suffix_floor builtins hbefore).trans (State.floor_suffix _)

theorem floor_ne_nil {before : List Event} (hbefore : before <+: tree.events) :
    (run (.start builtins) before).floor ≠ [] := by
  intro heq
  have hsuffix := global_suffix_floor builtins hbefore
  rw [heq] at hsuffix
  cases List.suffix_nil.mp hsuffix

theorem scopes_ne_nil {before : List Event} (hbefore : before <+: tree.events) :
    (run (.start builtins) before).active.scopes ≠ [] := by
  intro heq
  have hsuffix := State.floor_suffix (run (.start builtins) before)
  rw [heq, List.suffix_nil] at hsuffix
  exact floor_ne_nil builtins hbefore hsuffix

theorem exists_top {before : List Event} (hbefore : before <+: tree.events) :
    ∃ scope, (run (.start builtins) before).top = some scope := by
  obtain ⟨scope, rest, hscopes⟩ := List.exists_cons_of_ne_nil (scopes_ne_nil builtins hbefore)
  refine ⟨scope, ?_⟩
  rw [State.top, ActiveScopes.top_eq_head?, hscopes, List.head?_cons]

/-- Each function that leaks leaves a scope over. -/
theorem depth_run (hwell : tree.WellLinked) :
    (run (.start builtins) tree.events).depth = 1 + tree.leakCount := by
  obtain ⟨leaked, hlength, -, hscopes⟩ := (restores_events builtins hwell).scopes
  rw [State.depth, ActiveScopes.depth_eq_length, hscopes, State.start_blockEntry,
    BlockEntry.settle_fresh, State.start_active, List.length_append, hlength]
  simp [Nat.add_comm]

theorem balanced_run (hwell : tree.WellLinked) (hleaks : tree.leakCount = 0) :
    (run (.start builtins) tree.events).blockEntry = .fresh ∧
      (run (.start builtins) tree.events).active.scopes = [State.global] := by
  have hrestores := restores_events builtins hwell
  obtain ⟨leaked, hlength, -, hscopes⟩ := hrestores.scopes
  obtain rfl := List.length_eq_zero_iff.mp (hlength.trans hleaks)
  rw [hrestores.blockEntry, hscopes, State.start_blockEntry, State.start_active]
  simp

/-- After the first pass the blocks are the nodes with a scope. -/
theorem scopeOf_run (hwell : tree.WellLinked) {id : NodeId} {node : Node}
    (hmem : (id, node) ∈ tree.forest.entered) :
    (run (.start builtins) tree.events).facts.scopeOf id ≠ none ↔ node.label.isBlock := by
  rw [← Option.isSome_iff_ne_none,
    isSome_scopeOf_run fun before hbefore => scopes_ne_nil builtins hbefore, State.start_facts]
  have hempty : NodeFacts.empty.scopeOf id = none := rfl
  rw [hempty]
  simp only [Option.isSome_none, Bool.false_eq_true, false_or]
  constructor
  · rintro ⟨other, hother, hblock⟩
    rw [← Tree.events_forest, ← Forest.mem_entered] at hother
    have hnode := hwell.unfolds.node_of_mem hmem
    rw [hwell.unfolds.node_of_mem hother] at hnode
    cases hnode
    exact hblock
  · intro hblock
    exact ⟨node, Tree.events_forest tree ▸ Forest.mem_entered.mp hmem, hblock⟩

end Resolution

namespace Typing

variable (builtins : Bool)

theorem ready_resolved (hwell : tree.WellLinked) (hleaks : tree.leakCount = 0)
    (opening : Option Opening) :
    Ready (Resolution.run (.start builtins) tree.events).facts.scopeOf opening
      ⟨Resolution.run (.start builtins) tree.events, none⟩ where
  knows _ := rfl
  admits := by simp [(Resolution.balanced_run builtins hwell hleaks).1]

theorem settles_events (hwell : tree.WellLinked) (hleaks : tree.leakCount = 0) :
    Settles tree (Resolution.run (.start builtins) tree.events).facts.scopeOf tree.events := by
  rw [Tree.leakCount_eq hwell, List.length_eq_zero_iff] at hleaks
  rw [← Tree.events_forest]
  exact settles_forest hwell.unfolds hleaks fun id node hmem =>
    Tree.events_forest tree ▸ Resolution.scopeOf_run builtins hwell hmem

end Typing

theorem analyze_of_leaks (hwell : tree.WellLinked) (builtins : Bool) (hleaks : tree.leakCount ≠ 0) :
    analyze builtins tree = .error (.unbalancedScopes (1 + tree.leakCount)) := by
  rw [analyze_eq, Resolution.depth_run builtins hwell, if_neg (by omega)]

theorem Typing.run_of_oddBody (hwell : tree.WellLinked) (builtins : Bool)
    (hleaks : tree.leakCount = 0) {id : NodeId} {node : Node} (hid : tree.IsFirstOddBody id)
    (hnode : tree.node? id = some node) :
    Typing.run tree ⟨Resolution.run (.start builtins) tree.events, none⟩ tree.events =
      .error (.missingBlockScope node.line) := by
  have hfind := (Tree.findSome?_missingScope?_eq_some hwell
    fun _ _ hmem => Resolution.scopeOf_run builtins hwell hmem).mpr ⟨id, node, hid, hnode, rfl⟩
  exact (Typing.settles_events builtins hwell hleaks).stops _
    (Typing.ready_resolved builtins hwell hleaks _) node.line hfind

theorem analyze_of_oddBody (hwell : tree.WellLinked) (builtins : Bool) (hleaks : tree.leakCount = 0)
    {id : NodeId} {node : Node} (hid : tree.IsFirstOddBody id) (hnode : tree.node? id = some node) :
    analyze builtins tree = .error (.missingBlockScope node.line) := by
  rw [analyze_eq, Resolution.depth_run builtins hwell, if_pos (by omega),
    Typing.run_of_oddBody hwell builtins hleaks hid hnode]

theorem Typing.run_of_blocks (hwell : tree.WellLinked) (builtins : Bool)
    (hleaks : tree.leakCount = 0) (hblocks : ∀ id, tree.Reachable id → ¬ tree.HasOddBody id) :
    ∃ typed, Typing.run tree ⟨Resolution.run (.start builtins) tree.events, none⟩ tree.events =
      .ok typed ∧ typed.base.depth = 1 := by
  have hfind := (Tree.findSome?_missingScope?_eq_none hwell
    fun _ _ hmem => Resolution.scopeOf_run builtins hwell hmem).mpr hblocks
  obtain ⟨typed, hrun, hrestores, -⟩ := (Typing.settles_events builtins hwell hleaks).restores _
    (Typing.ready_resolved builtins hwell hleaks _) hfind
  obtain ⟨hentry, hscopes⟩ := Resolution.balanced_run builtins hwell hleaks
  obtain ⟨leaked, hlength, -, htyped⟩ := hrestores.scopes
  obtain rfl := List.length_eq_zero_iff.mp hlength
  rw [hentry, hscopes, BlockEntry.settle_fresh, List.nil_append] at htyped
  refine ⟨typed, hrun, ?_⟩
  rw [State.depth, ActiveScopes.depth_eq_length, htyped]
  rfl

theorem exists_analyze_of_blocks (hwell : tree.WellLinked) (builtins : Bool)
    (hleaks : tree.leakCount = 0) (hblocks : ∀ id, tree.Reachable id → ¬ tree.HasOddBody id) :
    ∃ model, analyze builtins tree = .ok model := by
  obtain ⟨typed, hrun, hdepth⟩ := Typing.run_of_blocks hwell builtins hleaks hblocks
  refine ⟨typed.base.toModel, ?_⟩
  rw [analyze_eq, Resolution.depth_run builtins hwell, if_pos (by omega), hrun]
  simp only [if_pos hdepth]

/-- Three ways to end: functions leak, the body of a function is no block, or neither. -/
theorem Tree.outcome_cases (hwell : tree.WellLinked) :
    tree.leakCount ≠ 0 ∨
    (tree.leakCount = 0 ∧ ∃ id node, tree.IsFirstOddBody id ∧ tree.node? id = some node) ∨
    (tree.leakCount = 0 ∧ ∀ id, tree.Reachable id → ¬ tree.HasOddBody id) := by
  by_cases hleaks : tree.leakCount = 0
  · have hscope := fun id node (hmem : (id, node) ∈ tree.forest.entered) =>
      Resolution.scopeOf_run false hwell hmem
    cases hfind : tree.events.findSome? (Event.missingScope?
        (Resolution.run (.start false) tree.events).facts.scopeOf) with
    | none => exact .inr (.inr ⟨hleaks, (findSome?_missingScope?_eq_none hwell hscope).mp hfind⟩)
    | some line =>
      obtain ⟨id, node, hid, hnode, -⟩ := (findSome?_missingScope?_eq_some hwell hscope).mp hfind
      exact .inr (.inl ⟨hleaks, id, node, hid, hnode⟩)
  · exact .inl hleaks

theorem Typing.global_suffix (hwell : tree.WellLinked) (builtins : Bool) (hleaks : tree.leakCount = 0)
    {before : List Event} (hbefore : before <+: tree.events) {state : TypingState}
    (hstate : Typing.run tree ⟨Resolution.run (.start builtins) tree.events, none⟩ before =
      .ok state) :
    [State.global] <:+ state.base.active.scopes := by
  have hfloor := (Typing.settles_events builtins hwell hleaks).floor _
    (Typing.ready_resolved builtins hwell hleaks _) before hbefore state hstate
  obtain ⟨hentry, hscopes⟩ := Resolution.balanced_run builtins hwell hleaks
  rwa [State.floor, hentry, BlockEntry.settle_fresh, hscopes] at hfloor

theorem analyze_cases (hwell : tree.WellLinked) (builtins : Bool) :
    (tree.leakCount ≠ 0 ∧
      analyze builtins tree = .error (.unbalancedScopes (1 + tree.leakCount))) ∨
    (tree.leakCount = 0 ∧ ∃ id node, tree.IsFirstOddBody id ∧ tree.node? id = some node ∧
      analyze builtins tree = .error (.missingBlockScope node.line)) ∨
    (tree.leakCount = 0 ∧ (∀ id, tree.Reachable id → ¬ tree.HasOddBody id) ∧
      ∃ model, analyze builtins tree = .ok model) := by
  rcases Tree.outcome_cases hwell with
    hleaks | ⟨hleaks, id, node, hid, hnode⟩ | ⟨hleaks, hblocks⟩
  · exact .inl ⟨hleaks, analyze_of_leaks hwell builtins hleaks⟩
  · exact .inr (.inl ⟨hleaks, id, node, hid, hnode,
      analyze_of_oddBody hwell builtins hleaks hid hnode⟩)
  · exact .inr (.inr ⟨hleaks, hblocks, exists_analyze_of_blocks hwell builtins hleaks hblocks⟩)

theorem analyze_unbalanced_iff (hwell : tree.WellLinked) (builtins : Bool) {depth : Nat} :
    analyze builtins tree = .error (.unbalancedScopes depth) ↔
      0 < tree.leakCount ∧ depth = 1 + tree.leakCount := by
  constructor
  · intro heq
    rcases analyze_cases hwell builtins with
      ⟨hleaks, hend⟩ | ⟨-, _, _, -, -, hend⟩ | ⟨-, -, _, hend⟩
    all_goals rw [hend] at heq
    · cases heq
      exact ⟨Nat.pos_of_ne_zero hleaks, rfl⟩
    · cases heq
    · cases heq
  · rintro ⟨hleaks, rfl⟩
    exact analyze_of_leaks hwell builtins (by omega)

theorem analyze_missing_iff (hwell : tree.WellLinked) (builtins : Bool) {line : UInt32} :
    analyze builtins tree = .error (.missingBlockScope line) ↔
      tree.leakCount = 0 ∧
        ∃ id node, tree.IsFirstOddBody id ∧ tree.node? id = some node ∧ node.line = line := by
  constructor
  · intro heq
    rcases analyze_cases hwell builtins with
      ⟨-, hend⟩ | ⟨hleaks, id, node, hid, hnode, hend⟩ | ⟨-, -, _, hend⟩
    all_goals rw [hend] at heq
    · cases heq
    · cases heq
      exact ⟨hleaks, id, node, hid, hnode, rfl⟩
    · cases heq
  · rintro ⟨hleaks, id, node, hid, hnode, rfl⟩
    exact analyze_of_oddBody hwell builtins hleaks hid hnode

theorem exists_analyze_iff (hwell : tree.WellLinked) (builtins : Bool) :
    (∃ model, analyze builtins tree = .ok model) ↔
      tree.leakCount = 0 ∧ ∀ id, tree.Reachable id → ¬ tree.HasOddBody id := by
  constructor
  · rintro ⟨model, hmodel⟩
    rcases analyze_cases hwell builtins with
      ⟨-, hend⟩ | ⟨-, _, _, -, -, hend⟩ | ⟨hleaks, hblocks, -⟩
    · rw [hend] at hmodel
      cases hmodel
    · rw [hend] at hmodel
      cases hmodel
    · exact ⟨hleaks, hblocks⟩
  · rintro ⟨hleaks, hblocks⟩
    exact exists_analyze_of_blocks hwell builtins hleaks hblocks

theorem leakCount_of_resolveNames (hwell : tree.WellLinked) {builtins : Bool} {resolved : State}
    (h : resolveNames tree (.start builtins) = .ok () resolved) :
    tree.leakCount = 0 ∧ resolved = Resolution.run (.start builtins) tree.events := by
  rw [resolveNames_eq, Resolution.depth_run builtins hwell] at h
  by_cases hleaks : tree.leakCount = 0
  · rw [if_pos (by omega)] at h
    cases h
    exact ⟨hleaks, rfl⟩
  · rw [if_neg (by omega)] at h
    cases h

/-- Where no function leaks the second pass does not end with a scope too many or too few. -/
theorem checkTypes_balanced (hwell : tree.WellLinked) (builtins : Bool) (hleaks : tree.leakCount = 0)
    (depth : Nat) (state : State) :
    checkTypes tree (Resolution.run (.start builtins) tree.events) ≠
      .error (.unbalancedScopes depth) state := by
  intro heq
  rcases Tree.outcome_cases hwell with hleaks' | ⟨-, id, node, hid, hnode⟩ | ⟨-, hblocks⟩
  · exact hleaks' hleaks
  · obtain ⟨stopped, hstopped⟩ :=
      checkTypes_of_run_error (Typing.run_of_oddBody hwell builtins hleaks hid hnode)
    rw [hstopped] at heq
    cases heq
  · obtain ⟨typed, hrun, hdepth⟩ := Typing.run_of_blocks hwell builtins hleaks hblocks
    rw [checkTypes_of_run hrun, if_pos hdepth] at heq
    cases heq

/-- The outcome of an analysis follows from the shape of the tree. The global scope is active
throughout, and the second pass ends balanced wherever the first one does. -/
theorem analyze_outcome {text : String} {tree : Tree} (h : Tree.ofText text = .ok tree)
    (builtins : Bool) :
    (∀ depth, analyze builtins tree = .error (.unbalancedScopes depth) ↔
      0 < tree.leakCount ∧ depth = 1 + tree.leakCount) ∧
    (∀ line, analyze builtins tree = .error (.missingBlockScope line) ↔
      tree.leakCount = 0 ∧
        ∃ id node, tree.IsFirstOddBody id ∧ tree.node? id = some node ∧ node.line = line) ∧
    ((∃ model, analyze builtins tree = .ok model) ↔
      tree.leakCount = 0 ∧ ∀ id, tree.Reachable id → ¬ tree.HasOddBody id) ∧
    (∀ before, before <+: tree.events →
      (Resolution.run (.start builtins) before).active.scopes.getLast? = some State.global) ∧
    ∀ resolved, resolveNames tree (.start builtins) = .ok () resolved →
      (∀ before state, before <+: tree.events →
        Typing.run tree ⟨resolved, none⟩ before = .ok state →
          state.base.active.scopes.getLast? = some State.global) ∧
      ∀ depth state, checkTypes tree resolved ≠ .error (.unbalancedScopes depth) state := by
  have hwell := Tree.wellLinked_of_ofText h
  refine ⟨fun _ => analyze_unbalanced_iff hwell builtins, fun _ => analyze_missing_iff hwell builtins,
    exists_analyze_iff hwell builtins, ?_, ?_⟩
  · intro before hbefore
    obtain ⟨scopes, hscopes⟩ := Resolution.global_suffix builtins hbefore
    rw [← hscopes, List.getLast?_concat]
  · intro resolved hresolved
    obtain ⟨hleaks, rfl⟩ := leakCount_of_resolveNames hwell hresolved
    refine ⟨fun before state hbefore hstate => ?_, checkTypes_balanced hwell builtins hleaks⟩
    obtain ⟨scopes, hscopes⟩ := Typing.global_suffix hwell builtins hleaks hbefore hstate
    rw [← hscopes, List.getLast?_concat]

/-- A function that stands where another one has its parameters. -/
def nestedText : String :=
  "[0,[\x7b\"kind\":\"fun\",\"name\":\"f\",\"type\":\"void\",\"children\":[1]\x7d,"
    ++ "\x7b\"kind\":\"fun\",\"name\":\"g\",\"type\":\"void\"\x7d]]"

def nestedTree : Tree where
  nodes := #[
    ⟨.declaration ⟨.function, "f", .void, none⟩, 0, ⟨some 1, none, none⟩, none⟩,
    .leaf (.declaration ⟨.function, "g", .void, none⟩) 0]
  root := some 0

theorem ofText_nestedText : Tree.ofText nestedText = .ok nestedTree :=
  Tree.ofText_eq_ok (ofList_append rfl rfl) (by decide +kernel)

theorem leakCount_nestedTree :
    Tree.ofText nestedText = .ok nestedTree ∧
      analyze true nestedTree = .error (.unbalancedScopes 2) ∧ nestedTree.leakCount = 1 := by
  have hend : analyze true nestedTree = .error (.unbalancedScopes 2) := rfl
  have hleaks := ((analyze_outcome ofText_nestedText true).1 2).mp hend
  exact ⟨ofText_nestedText, hend, by omega⟩

end ScopeCheck
