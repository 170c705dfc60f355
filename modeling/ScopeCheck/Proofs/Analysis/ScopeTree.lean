import ScopeCheck.Proofs.Analysis.BlockNesting
import ScopeCheck.Proofs.Analysis.Reentry
import ScopeCheck.Proofs.Analysis.Lexical
import ScopeCheck.Proofs.Analysis.ScopeCreation

namespace ScopeCheck

open ScopeCheck.Tree (enclose)

/-- The name of the innermost of some functions, or that of the global scope. -/
def Tree.nameAround (tree : Tree) : List NodeId → Option String
  | [] => some Scope.globalName
  | function :: _ => do
    let node ← tree.node? function
    let decl ← node.label.declaration?
    some decl.name

/-- The scopes of a model are the global one and those of the blocks of a tree. They are numbered in
the order in which a walk enters the blocks, and their parents, names and kinds are read off what is
around the blocks. -/
structure Model.MirrorsBlocks (model : Model) (tree : Tree) : Prop where
  exists_iff : ∀ id, (∃ scope, model.facts.scopeOf id = some scope) ↔
    ∃ node, tree.Reachable id ∧ tree.node? id = some node ∧ node.label.isBlock
  injective : ∀ id other scope, model.facts.scopeOf id = some scope →
    model.facts.scopeOf other = some scope → id = other
  range : ∀ scope, (∃ id, model.facts.scopeOf id = some scope) ↔
    scope ≠ State.global ∧ scope < model.scopes.size
  lt_iff : ∀ id other scope otherScope, model.facts.scopeOf id = some scope →
    model.facts.scopeOf other = some otherScope →
      (scope < otherScope ↔ tree.EnteredBefore id other)
  kind_body : ∀ id scope, model.facts.scopeOf id = some scope → tree.IsBody id →
    model.scopes.kind? scope = some .function
  kind_block : ∀ id scope, model.facts.scopeOf id = some scope → ¬ tree.IsBody id →
    model.scopes.kind? scope = some .block
  parent : ∀ id scope, model.facts.scopeOf id = some scope →
    (∃ blocks, tree.Inside Label.isBlock blocks id) ∧
      ∀ blocks, tree.Inside Label.isBlock blocks id →
        model.scopes.parent scope = model.facts.scopeAround blocks
  name : ∀ id scope, model.facts.scopeOf id = some scope →
    (∃ functions, tree.Inside Label.isFunction functions id) ∧
      ∀ functions, tree.Inside Label.isFunction functions id →
        model.scopes.name? scope = tree.nameAround functions
  outermost : model.scopes.kind? State.global = some .global ∧
    model.scopes.name? State.global = some Scope.globalName ∧
      model.scopes.parent State.global = none
  children : ∀ scope, model.scopes.children scope =
    (List.range model.scopes.size).filter fun child => model.scopes.parent child = some scope

namespace Resolution

variable {tree : Tree} {id : NodeId} {node : Node} {before after : List Event}

theorem exists_scopeOf_iff (builtins : Bool) :
    (∃ scope, (run (.start builtins) tree.events).facts.scopeOf id = some scope) ↔
      ∃ node, .enter id node ∈ tree.events ∧ node.label.isBlock := by
  have hempty : (State.start builtins).facts.scopeOf id = none := by
    rw [State.start_facts]
    rfl
  rw [← Option.isSome_iff_exists,
    isSome_scopeOf_run fun before hbefore => scopes_ne_nil builtins hbefore, hempty]
  simp

theorem exists_walk_of_scopeOf {builtins : Bool} {scope : ScopeId}
    (hscope : (run (.start builtins) tree.events).facts.scopeOf id = some scope) :
    ∃ before node after, tree.events = before ++ .enter id node :: after ∧ node.label.isBlock := by
  obtain ⟨node, hmem, hnode⟩ := (exists_scopeOf_iff builtins).mp ⟨scope, hscope⟩
  obtain ⟨before, after, hevents⟩ := List.append_of_mem hmem
  exact ⟨before, node, after, hevents, hnode⟩

theorem reachable_of_scopeOf (hwell : tree.WellLinked) {builtins : Bool} {scope : ScopeId}
    (hscope : (run (.start builtins) tree.events).facts.scopeOf id = some scope) :
    tree.Reachable id := by
  obtain ⟨before, node, after, hevents, -⟩ := exists_walk_of_scopeOf hscope
  have hmem : Event.enter id node ∈ tree.events := by simp [hevents]
  exact (hwell.enter_mem_iff.mp hmem).1

theorem floor_of_fresh {state : State} (h : state.blockEntry = .fresh) :
    state.floor = state.active.scopes := by
  rw [State.floor, h, BlockEntry.settle_fresh]

/-- The scope in which the next block opens its own is that of the innermost block around. -/
theorem carries_scopeAround (hwell : tree.WellLinked) (builtins : Bool) :
    Carries tree builtins Label.isBlock fun blocks before =>
      (run (.start builtins) before).floor.head? =
        (run (.start builtins) tree.events).facts.scopeAround blocks where
  opens label hblock := by simp [Label.opening?_eq_block.mpr hblock]
  pass h hentry hscopes := by
    rw [State.floor, hentry, hscopes]
    exact h
  function {around before id node} h hwalk hnode hentry := by
    obtain ⟨hentry', hscopes'⟩ := enter_function_opens (run (.start builtins) before) id hnode
    have haround : enclose Label.isBlock id node around = around :=
      if_neg fun hblock => Label.not_isFunction_of_isBlock hblock hnode
    rw [haround, run_concat, State.floor, hentry', hscopes', ← h, floor_of_fresh hentry]
    rfl
  block {around before id node} h hwalk hnode := by
    have hfloor := floor_ne_nil builtins ((List.prefix_append _ _).trans hwalk)
    have hentry := (enter_block id hnode hfloor).1
    have haround : enclose Label.isBlock id node around = id :: around := if_pos hnode
    obtain ⟨after, hevents⟩ := hwalk
    rw [List.append_assoc, List.singleton_append] at hevents
    rw [haround, run_concat, floor_of_fresh hentry, ← State.top_eq_head?, top_enter_block hnode]
    exact (scopeOf_block hwell builtins hevents.symm hnode).symm

/-- The current function is the innermost one around. -/
theorem carries_nameAround (hwell : tree.WellLinked) (builtins : Bool) :
    Carries tree builtins Label.isFunction fun functions before =>
      (run (.start builtins) before).active.scopes ≠ [] ∧
        some (run (.start builtins) before).function = tree.nameAround functions where
  opens label hfunction := by simp [Label.opening?_eq_function.mpr hfunction]
  pass h _ hscopes := by
    refine ⟨hscopes ▸ h.1, ?_⟩
    rw [run_append] at hscopes ⊢
    rw [function_run_of_scopes (sound_run (State.sound_start builtins) _) hscopes h.1]
    exact h.2
  function {around before id node} h hwalk hnode hentry := by
    obtain ⟨decl, hlabel, hkind⟩ := Label.exists_declaration hnode
    have hmem : Event.enter id node ∈ tree.events := hwalk.subset (by simp)
    have haround : enclose Label.isFunction id node around = id :: around := if_pos hnode
    rw [haround, run_concat, (enter_function_opens _ id hnode).2,
      (enter_function_creates hlabel hkind).2, Tree.nameAround, (hwell.enter_mem_iff.mp hmem).2]
    exact ⟨List.cons_ne_nil _ _, by simp [hlabel, Label.declaration?]⟩
  block {around before id node} h hwalk hnode := by
    have hfloor := floor_ne_nil builtins ((List.prefix_append _ _).trans hwalk)
    obtain ⟨-, opened, hscopes⟩ := enter_block id hnode hfloor
    have haround : enclose Label.isFunction id node around = around :=
      if_neg (Label.not_isFunction_of_isBlock hnode)
    rw [haround, run_concat, hscopes, function_enter_block id hnode]
    exact ⟨List.cons_ne_nil _ _, h.2⟩

theorem kind_body (hwell : tree.WellLinked) (builtins : Bool) (hshaped : tree.forest.Shaped)
    (hbody : tree.IsBody id) {scope : ScopeId}
    (hscope : (run (.start builtins) tree.events).facts.scopeOf id = some scope) :
    (run (.start builtins) tree.events).scopes.kind? scope = some .function := by
  obtain ⟨function, functionNode, hreachable, hfunction, hlabel, hsecond⟩ := hbody
  obtain ⟨earlier, later, hsplit⟩ :=
    List.append_of_mem (hwell.enter_mem_iff.mpr ⟨hreachable, hfunction⟩)
  have hwalk : earlier ++ [.enter function functionNode] <+: tree.events := by simp [hsplit]
  obtain ⟨body, hchild, hbodyScope⟩ := scopeOf_body hwell hshaped builtins hwalk hlabel
  obtain rfl : body = id := Option.some.inj (hchild.symm.trans hsecond)
  obtain rfl : _ = scope := Option.some.inj (hbodyScope.symm.trans hscope)
  obtain ⟨decl, hdecl, hkind⟩ := Label.exists_declaration hlabel
  have hcreated := (@enter_function_creates (run (.start builtins) earlier) function _ _ hdecl
    hkind).1
  rw [hsplit, run_append, run_cons, kind?_run _ (by rw [hcreated, ScopeTable.size_create]; omega),
    hcreated, ScopeTable.kind?_create, if_pos rfl]

section Block

variable (hwell : tree.WellLinked) (builtins : Bool)
  (hevents : tree.events = before ++ .enter id node :: after) (hnode : node.label.isBlock)
  {scope : ScopeId} (hscope : (run (.start builtins) tree.events).facts.scopeOf id = some scope)

include hwell hevents hnode hscope

theorem scopes_enter_block :
    (step (run (.start builtins) before) (.enter id node)).active.scopes =
      scope :: (run (.start builtins) before).floor := by
  have hbefore : before <+: tree.events := hevents ▸ List.prefix_append _ _
  obtain ⟨-, opened, hscopes⟩ := enter_block id hnode (floor_ne_nil builtins hbefore)
  have htop := @top_enter_block (run (.start builtins) before) id node hnode
  rw [State.top_eq_head?, hscopes, ← scopeOf_block hwell builtins hevents hnode, hscope] at htop
  cases htop
  exact hscopes

theorem parent_name_block :
    (run (.start builtins) tree.events).scopes.parent scope =
        (run (.start builtins) before).floor.head? ∧
      (run (.start builtins) tree.events).scopes.name? scope =
        some (run (.start builtins) before).function := by
  have hscopes := scopes_enter_block hwell builtins hevents hnode hscope
  have hsound : (step (run (.start builtins) before) (.enter id node)).Sound :=
    sound_step (sound_run (State.sound_start builtins) before) _
  have htop : (step (run (.start builtins) before) (.enter id node)).top = some scope := by
    rw [State.top_eq_head?, hscopes, List.head?_cons]
  have hwalk : tree.events = (before ++ [.enter id node]) ++ after := by simp [hevents]
  have hgrows := (@grows_rest (.start builtins) _ _ _ hwalk).scopes
  rw [run_concat] at hgrows
  have hlt := hsound.lt_size scope htop
  rw [hgrows.parent_eq scope hlt, hgrows.name?_eq scope hlt, hsound.parent_eq hscopes,
    hsound.current scope htop, function_enter_block id hnode]
  exact ⟨rfl, rfl⟩

theorem parent_block (hshaped : tree.forest.Shaped) {blocks : List NodeId}
    (hblocks : tree.Inside Label.isBlock blocks id) :
    (run (.start builtins) tree.events).scopes.parent scope =
      (run (.start builtins) tree.events).facts.scopeAround blocks := by
  rw [(parent_name_block hwell builtins hevents hnode hscope).1]
  refine ((carries_scopeAround hwell builtins).of_inside hwell hshaped ?_ hblocks hevents).1
  rw [run_nil, floor_of_fresh (State.start_blockEntry builtins), State.start_active]
  rfl

theorem name_block (hshaped : tree.forest.Shaped) {functions : List NodeId}
    (hfunctions : tree.Inside Label.isFunction functions id) :
    (run (.start builtins) tree.events).scopes.name? scope = tree.nameAround functions := by
  rw [(parent_name_block hwell builtins hevents hnode hscope).2]
  have hstart : (State.start builtins).active.scopes ≠ [] ∧
      some (State.start builtins).function = tree.nameAround [] := by
    rw [State.start_active]
    refine ⟨List.cons_ne_nil _ _, ?_⟩
    cases builtins <;> rfl
  exact ((carries_nameAround hwell builtins).of_inside hwell hshaped hstart hfunctions hevents).1.2

theorem kind_block (hshaped : tree.forest.Shaped) (hbody : ¬ tree.IsBody id) :
    (run (.start builtins) tree.events).scopes.kind? scope = some .block := by
  have hentry := blockEntry_of_enter_block hwell hshaped builtins hevents hnode hbody
  rw [scopeOf_block hwell builtins hevents hnode, blockScope, hentry] at hscope
  obtain rfl : _ = scope := Option.some.inj hscope
  have hcreated := enter_fresh_block_creates id hnode hentry
  rw [hevents, run_append, run_cons, kind?_run _ (by rw [hcreated, ScopeTable.size_create]; omega),
    hcreated, ScopeTable.kind?_create, if_pos rfl]

end Block

end Resolution

def Event.block? : Event → Option NodeId
  | enter id node => if node.label.isBlock then some id else none
  | leave .. => none

def blocksIn (events : List Event) : List NodeId := events.filterMap Event.block?

theorem blocksIn_append (events later : List Event) :
    blocksIn (events ++ later) = blocksIn events ++ blocksIn later := List.filterMap_append

theorem blocksIn_enter_block {node : Node} (id : NodeId) (h : node.label.isBlock)
    (events : List Event) : blocksIn (.enter id node :: events) = id :: blocksIn events := by
  simp [blocksIn, Event.block?, h]

theorem blocksIn_concat_other {event : Event} (h : event.block? = none) (events : List Event) :
    blocksIn (events ++ [event]) = blocksIn events := by
  simp [blocksIn, h]

theorem length_blocksIn_lt {node : Node} {id : NodeId} {before later : List Event}
    (h : before ++ [.enter id node] <+: later) (hblock : node.label.isBlock) :
    (blocksIn before).length < (blocksIn later).length := by
  obtain ⟨after, rfl⟩ := h
  rw [blocksIn_append, blocksIn_append, blocksIn_enter_block id hblock]
  simp

theorem exists_block_at {events : List Event} {rank : Nat} (h : rank < (blocksIn events).length) :
    ∃ before id node after, events = before ++ .enter id node :: after ∧ node.label.isBlock ∧
      (blocksIn before).length = rank := by
  induction events generalizing rank with
  | nil => simp [blocksIn] at h
  | cons event events ih =>
    by_cases hevent : ∃ id node, event = .enter id node ∧ node.label.isBlock
    · obtain ⟨id, node, rfl, hblock⟩ := hevent
      cases rank with
      | zero => exact ⟨[], id, node, events, rfl, hblock, rfl⟩
      | succ rank =>
        rw [blocksIn_enter_block id hblock, List.length_cons] at h
        obtain ⟨before, other, otherNode, after, rfl, hother, hrank⟩ := ih (Nat.lt_of_succ_lt_succ h)
        refine ⟨_ :: before, other, otherNode, after, rfl, hother, ?_⟩
        rw [blocksIn_enter_block id hblock, List.length_cons, hrank]
    · have hnone : event.block? = none := by
        cases event with
        | leave id node => rfl
        | enter id node => exact if_neg fun hblock => hevent ⟨id, node, rfl, hblock⟩
      have hskip : ∀ later, blocksIn (event :: later) = blocksIn later :=
        fun later => List.filterMap_cons_none hnone
      rw [hskip] at h
      obtain ⟨before, other, otherNode, after, rfl, hother, hrank⟩ := ih h
      exact ⟨_ :: before, other, otherNode, after, rfl, hother, (hskip before).symm ▸ hrank⟩

namespace Resolution

variable {tree : Tree} {id : NodeId} {node : Node} {before after : List Event}

/-- The next block that is entered is given the number after those of the blocks so far. A function
that waits for its body has created this scope already. -/
structure Numbered (state : State) (blocks : Nat) : Prop where
  next : blockScope state = some (1 + blocks)
  waiting : state.blockEntry = .reuse → state.scopes.size = 2 + blocks

namespace Numbered

variable {state later : State} {blocks : Nat}

theorem of_fresh (hentry : state.blockEntry = .fresh) (hsize : state.scopes.size = 1 + blocks) :
    Numbered state blocks := by
  refine ⟨?_, fun hreuse => ?_⟩
  · rw [blockScope, hentry, hsize]
  · rw [hentry] at hreuse
    cases hreuse

theorem size_of_fresh (h : Numbered state blocks) (hentry : state.blockEntry = .fresh) :
    state.scopes.size = 1 + blocks := by
  have hnext := h.next
  rw [blockScope, hentry] at hnext
  exact Option.some.inj hnext

theorem of_same (h : Numbered state blocks) (hentry : later.blockEntry = state.blockEntry)
    (hscopes : later.scopes = state.scopes)
    (hactive : later.active.scopes = state.active.scopes) : Numbered later blocks := by
  have hnext : blockScope later = blockScope state := by
    rw [blockScope, blockScope, hentry, hscopes, State.top_eq_head?, State.top_eq_head?, hactive]
  exact ⟨hnext.trans h.next, fun hreuse => hscopes ▸ h.waiting (hentry ▸ hreuse)⟩

theorem enter_function (h : Numbered state blocks) (id : NodeId) (hnode : node.label.isFunction)
    (hentry : state.blockEntry = .fresh) : Numbered (step state (.enter id node)) blocks := by
  have hsize := h.size_of_fresh hentry
  obtain ⟨hreuse, hscopes⟩ := enter_function_opens state id hnode
  obtain ⟨decl, hlabel, hkind⟩ := Label.exists_declaration hnode
  refine ⟨?_, fun _ => ?_⟩
  · rw [blockScope, hreuse, State.top_eq_head?, hscopes, hsize, List.head?_cons]
  · rw [(enter_function_creates hlabel hkind).1, ScopeTable.size_create, hsize]
    omega

theorem enter_block (h : Numbered state blocks) (id : NodeId) (hnode : node.label.isBlock)
    (hfloor : state.floor ≠ []) : Numbered (step state (.enter id node)) (blocks + 1) := by
  refine of_fresh (Resolution.enter_block id hnode hfloor).1 ?_
  cases hentry : state.blockEntry with
  | fresh =>
    rw [enter_fresh_block_creates id hnode hentry, ScopeTable.size_create, h.size_of_fresh hentry]
    omega
  | reuse =>
    rw [enter_body_scopes id hnode hentry, h.waiting hentry]
    omega

end Numbered

theorem numbered_run (hwell : tree.WellLinked) (hshaped : tree.forest.Shaped) (builtins : Bool)
    (hbefore : before <+: tree.events) :
    Numbered (run (.start builtins) before) (blocksIn before).length := by
  induction before using List.reverseRecOn with
  | nil =>
    refine .of_fresh (State.start_blockEntry builtins) ?_
    cases builtins <;> rfl
  | append_singleton before event ih =>
    have hprefix := (List.prefix_append _ _).trans hbefore
    have h := ih hprefix
    rw [run_concat]
    cases event with
    | enter id node =>
      by_cases hblock : node.label.isBlock
      · have hnumbered := h.enter_block id hblock (floor_ne_nil builtins hprefix)
        rwa [blocksIn_append, blocksIn_enter_block id hblock, List.length_append]
      have hother : (Event.enter id node).block? = none := if_neg hblock
      rw [blocksIn_concat_other hother]
      by_cases hnode : node.label.isFunction
      · obtain ⟨after, hevents⟩ := hbefore
        rw [List.append_assoc, List.singleton_append] at hevents
        exact h.enter_function id hnode
          (blockEntry_of_enter_function hwell hshaped builtins hevents.symm hnode)
      · have hopening := Label.opening?_eq_none hnode hblock
        obtain ⟨hentry, hscopes⟩ := enter_other (run (.start builtins) before) id hopening
        exact h.of_same hentry (enter_other_frame _ id hopening).1 hscopes
    | leave id node =>
      rw [blocksIn_concat_other rfl]
      by_cases hnode : node.label.isFunction
      · have hentry := blockEntry_of_leave hshaped builtins hbefore hnode
        have hfloor := floor_of_fresh hentry
        obtain ⟨hfresh, hscopes⟩ := leave_function (run (.start builtins) before) id hnode
        exact h.of_same (hfresh.trans hentry.symm) leave_scopes (hscopes.trans hfloor)
      by_cases hblock : node.label.isBlock
      · have hentry := blockEntry_of_leave_block hshaped builtins hbefore hblock
        refine .of_fresh ((leave_block _ id hblock).1.trans hentry) ?_
        rw [leave_scopes, h.size_of_fresh hentry]
      · rw [step_leave_other _ id (Label.opening?_eq_none hnode hblock)]
        exact h

/-- The scopes of the blocks are numbered in the order of the walk. -/
theorem scopeOf_eq_rank (hwell : tree.WellLinked) (hshaped : tree.forest.Shaped) (builtins : Bool)
    (hevents : tree.events = before ++ .enter id node :: after) (hnode : node.label.isBlock) :
    (run (.start builtins) tree.events).facts.scopeOf id =
      some (1 + (blocksIn before).length) := by
  have hbefore : before <+: tree.events := hevents ▸ List.prefix_append _ _
  rw [scopeOf_block hwell builtins hevents hnode]
  exact (numbered_run hwell hshaped builtins hbefore).next

theorem size_scopes_run (hwell : tree.WellLinked) (hshaped : tree.forest.Shaped) (builtins : Bool)
    (hleaks : tree.leakCount = 0) :
    (run (.start builtins) tree.events).scopes.size = 1 + (blocksIn tree.events).length :=
  (numbered_run hwell hshaped builtins (List.prefix_refl _)).size_of_fresh
    (balanced_run builtins hwell hleaks).1

section Order

variable (hwell : tree.WellLinked) (hshaped : tree.forest.Shaped) (builtins : Bool)

include hwell hshaped

theorem exists_scopeOf_eq (hleaks : tree.leakCount = 0) {scope : Nat}
    (hglobal : scope ≠ 0)
    (hlt : scope < (run (.start builtins) tree.events).scopes.size) :
    ∃ id, (run (.start builtins) tree.events).facts.scopeOf id = some scope := by
  obtain ⟨rank, rfl⟩ := Nat.exists_eq_add_one_of_ne_zero hglobal
  rw [size_scopes_run hwell hshaped builtins hleaks] at hlt
  obtain ⟨before, id, node, after, hevents, hnode, rfl⟩ :=
    exists_block_at (show rank < (blocksIn tree.events).length by omega)
  refine ⟨id, ?_⟩
  rw [scopeOf_eq_rank hwell hshaped builtins hevents hnode, Nat.add_comm]

variable {other : NodeId} {otherNode : Node} {before' after' : List Event}
  {scope otherScope : ScopeId} (hevents : tree.events = before ++ .enter id node :: after)
  (hother : tree.events = before' ++ .enter other otherNode :: after')
  (hnode : node.label.isBlock) (hotherNode : otherNode.label.isBlock)
  (hscope : (run (.start builtins) tree.events).facts.scopeOf id = some scope)
  (hotherScope : (run (.start builtins) tree.events).facts.scopeOf other = some otherScope)

include hevents hother hnode hotherNode hscope hotherScope

theorem lt_of_earlier (h : before ++ [.enter id node] <+: before') : scope < otherScope := by
  rw [scopeOf_eq_rank hwell hshaped builtins hevents hnode] at hscope
  rw [scopeOf_eq_rank hwell hshaped builtins hother hotherNode] at hotherScope
  have hlt := length_blocksIn_lt h hnode
  rw [← Option.some.inj hscope, ← Option.some.inj hotherScope]
  exact Nat.add_lt_add_left hlt 1

end Order

theorem outermost_run (builtins : Bool) (events : List Event) :
    (run (.start builtins) events).scopes.kind? State.global = some .global ∧
      (run (.start builtins) events).scopes.name? State.global = some Scope.globalName ∧
        (run (.start builtins) events).scopes.parent State.global = none := by
  have hlt : State.global < (State.start builtins).scopes.size := by
    cases builtins <;> decide
  have hgrows := (@grows_run (.start builtins) events).scopes
  rw [kind?_run events hlt, hgrows.name?_eq _ hlt, hgrows.parent_eq _ hlt]
  cases builtins <;> exact ⟨rfl, rfl, rfl⟩

theorem linked_start (builtins : Bool) : (State.start builtins).scopes.Linked := by
  have hscopes : (State.start builtins).scopes =
      ScopeTable.empty.create .global Scope.globalName none := by
    cases builtins <;> rfl
  rw [hscopes]
  refine ScopeTable.linked_create ScopeTable.linked_empty fun outer houter => ?_
  cases houter

section Model

variable (hwell : tree.WellLinked) (hshaped : tree.forest.Shaped) (builtins : Bool)

include hwell hshaped

theorem lt_iff_enteredBefore {other : NodeId} {scope otherScope : ScopeId}
    (hscope : (run (.start builtins) tree.events).facts.scopeOf id = some scope)
    (hotherScope : (run (.start builtins) tree.events).facts.scopeOf other = some otherScope) :
    scope < otherScope ↔ tree.EnteredBefore id other := by
  obtain ⟨before, node, after, hevents, hnode⟩ := exists_walk_of_scopeOf hscope
  obtain ⟨before', otherNode, after', hother, hotherNode⟩ := exists_walk_of_scopeOf hotherScope
  rcases Tree.enter_order hevents hother with ⟨-, rfl, -⟩ | hfirst | hlast
  · have heq : scope = otherScope := Option.some.inj (hscope.symm.trans hotherScope)
    exact ⟨fun hlt => absurd hlt (heq ▸ Nat.lt_irrefl scope),
      fun hbefore => absurd hbefore (Tree.EnteredBefore.irrefl hwell)⟩
  · have hlt := lt_of_earlier hwell hshaped builtins hevents hother hnode hotherNode hscope
      hotherScope hfirst
    have hmem : Event.enter id node ∈ before' := hfirst.subset (by simp)
    exact ⟨fun _ => Tree.enteredBefore_of_mem hother hmem, fun _ => hlt⟩
  · have hlt := lt_of_earlier hwell hshaped builtins hother hevents hotherNode hnode hotherScope
      hscope hlast
    have hmem : Event.enter other otherNode ∈ before := hlast.subset (by simp)
    have hbefore := Tree.enteredBefore_of_mem hevents hmem
    exact ⟨fun hgt => absurd hgt (Nat.lt_asymm hlt), fun h => absurd h (hbefore.asymm hwell)⟩

theorem eq_of_scopeOf_eq {other : NodeId} {scope : ScopeId}
    (hscope : (run (.start builtins) tree.events).facts.scopeOf id = some scope)
    (hotherScope : (run (.start builtins) tree.events).facts.scopeOf other = some scope) :
    id = other := by
  obtain ⟨before, node, after, hevents, hnode⟩ := exists_walk_of_scopeOf hscope
  obtain ⟨before', otherNode, after', hother, hotherNode⟩ := exists_walk_of_scopeOf hotherScope
  rcases Tree.enter_order hevents hother with ⟨-, heq, -⟩ | hfirst | hlast
  · exact heq
  · exact absurd (lt_of_earlier hwell hshaped builtins hevents hother hnode hotherNode hscope
      hotherScope hfirst) (Nat.lt_irrefl scope)
  · exact absurd (lt_of_earlier hwell hshaped builtins hother hevents hotherNode hnode hotherScope
      hscope hlast) (Nat.lt_irrefl scope)

theorem scopeOf_range (hleaks : tree.leakCount = 0) {scope : ScopeId} :
    (∃ id, (run (.start builtins) tree.events).facts.scopeOf id = some scope) ↔
      scope ≠ State.global ∧ scope < (run (.start builtins) tree.events).scopes.size := by
  constructor
  · rintro ⟨id, hscope⟩
    obtain ⟨before, node, after, hevents, hnode⟩ := exists_walk_of_scopeOf hscope
    have hwalk : before ++ [.enter id node] <+: tree.events := by simp [hevents]
    have hlt := length_blocksIn_lt hwalk hnode
    rw [scopeOf_eq_rank hwell hshaped builtins hevents hnode] at hscope
    rw [size_scopes_run hwell hshaped builtins hleaks, ← Option.some.inj hscope]
    exact ⟨Nat.ne_of_gt (Nat.lt_of_lt_of_le Nat.one_pos (Nat.le_add_right 1 _)),
      Nat.add_lt_add_left hlt 1⟩
  · rintro ⟨hglobal, hlt⟩
    exact exists_scopeOf_eq hwell hshaped builtins hleaks hglobal hlt

/-- The second pass changes neither the scopes nor what blocks they belong to. -/
theorem mirrorsBlocks_toModel (hleaks : tree.leakCount = 0) {last : State}
    (hsame : Typing.SameNames (run (.start builtins) tree.events) last) :
    last.toModel.MirrorsBlocks tree := by
  have hscopeOf : ∀ id, last.toModel.facts.scopeOf id =
      (run (.start builtins) tree.events).facts.scopeOf id := hsame.scopeOf_eq
  have haround : ∀ blocks, last.toModel.facts.scopeAround blocks =
      (run (.start builtins) tree.events).facts.scopeAround blocks := hsame.scopeAround_eq
  have hscopes : last.toModel.scopes = (run (.start builtins) tree.events).scopes := hsame.scopes
  refine ⟨?_, ?_, ?_, ?_, ?_, ?_, ?_, ?_, ?_, ?_⟩ <;> simp only [hscopeOf, hscopes, haround]
  · intro id
    simp only [exists_scopeOf_iff builtins, hwell.enter_mem_iff, and_assoc]
  · intro id other scope hscope hother
    exact eq_of_scopeOf_eq hwell hshaped builtins hscope hother
  · intro scope
    exact scopeOf_range hwell hshaped builtins hleaks
  · intro id other scope otherScope hscope hother
    exact lt_iff_enteredBefore hwell hshaped builtins hscope hother
  · intro id scope hscope hbody
    exact kind_body hwell builtins hshaped hbody hscope
  · intro id scope hscope hbody
    obtain ⟨before, node, after, hevents, hnode⟩ := exists_walk_of_scopeOf hscope
    exact kind_block hwell builtins hevents hnode hscope hshaped hbody
  · intro id scope hscope
    obtain ⟨before, node, after, hevents, hnode⟩ := exists_walk_of_scopeOf hscope
    exact ⟨(Tree.reachable_iff_exists_inside _).mp (reachable_of_scopeOf hwell hscope),
      fun blocks hblocks => parent_block hwell builtins hevents hnode hscope hshaped hblocks⟩
  · intro id scope hscope
    obtain ⟨before, node, after, hevents, hnode⟩ := exists_walk_of_scopeOf hscope
    exact ⟨(Tree.reachable_iff_exists_inside _).mp (reachable_of_scopeOf hwell hscope),
      fun functions hfunctions =>
        name_block hwell builtins hevents hnode hscope hshaped hfunctions⟩
  · exact outermost_run builtins tree.events
  · exact linked_run (State.sound_start builtins) (linked_start builtins) tree.events

end Model

end Resolution

/-- In a tree as a parser builds it the scope tree is the block nesting. -/
theorem exists_mirrorsBlocks {text : String} {tree : Tree} (h : Tree.ofText text = .ok tree)
    (hshaped : tree.FunctionShaped) (builtins : Bool) :
    ∃ model, analyze builtins tree = .ok model ∧ model.MirrorsBlocks tree := by
  have hwell := Tree.wellLinked_of_ofText h
  have hforest := hshaped.forest_shaped hwell
  have hleaks := Tree.leakCount_eq_zero hwell hforest
  obtain ⟨model, hmodel⟩ :=
    exists_analyze_of_blocks hwell builtins hleaks fun id hid => hshaped.not_hasOddBody hid
  obtain ⟨-, typed, hrun, -, rfl⟩ := analyze_eq_ok_iff.mp hmodel
  exact ⟨_, hmodel, Resolution.mirrorsBlocks_toModel hwell hforest builtins hleaks
    (Typing.sameNames_run hrun)⟩

/-- The block comes after the inner function, but it stands in the scope of the outer one. -/
theorem mirrorsBlocks_layeredTree :
    Tree.ofText layeredText = .ok layeredTree ∧ layeredTree.FunctionShaped ∧
      ∃ model, analyze true layeredTree = .ok model ∧ model.MirrorsBlocks layeredTree ∧
        model.facts.scopeOf 4 = some 3 ∧ model.scopes.parent 3 = some 1 ∧
        model.scopes.name? 3 = some "f" ∧ layeredTree.EnteredBefore 3 4 := by
  obtain ⟨model, hmodel, hmirrors⟩ :=
    exists_mirrorsBlocks ofText_layeredText functionShaped_layeredTree true
  have hscopes : model.facts.scopeOf 1 = some 1 ∧ model.facts.scopeOf 3 = some 2 ∧
      model.facts.scopeOf 4 = some 3 := by
    cases hmodel
    exact ⟨rfl, rfl, rfl⟩
  obtain ⟨hbody, hinner, hblock⟩ := hscopes
  have houter : layeredTree.Inside Label.isFunction [] 0 := .root rfl
  have hfunctionBody : layeredTree.Inside Label.isFunction [0] 1 := .child 1 houter rfl rfl
  have hfunction : layeredTree.Inside Label.isFunction [0] 4 := .child 1 hfunctionBody rfl rfl
  have hroot : layeredTree.Inside Label.isBlock [] 0 := .root rfl
  have houterBlock : layeredTree.Inside Label.isBlock [] 1 := .child 1 hroot rfl rfl
  have hblocks : layeredTree.Inside Label.isBlock [1] 4 := .child 1 houterBlock rfl rfl
  refine ⟨ofText_layeredText, functionShaped_layeredTree, model, hmodel, hmirrors, hblock, ?_, ?_, ?_⟩
  · rw [(hmirrors.parent 4 3 hblock).2 [1] hblocks]
    exact hbody
  · rw [(hmirrors.name 4 3 hblock).2 [0] hfunction]
    rfl
  · exact (hmirrors.lt_iff 3 4 2 3 hinner hblock).mp (by decide)

end ScopeCheck
