import Mathlib.Data.List.Nodup
import ScopeCheck.Proofs.Analysis.Passes
import ScopeCheck.Proofs.Document.Links

namespace ScopeCheck

namespace Forest

/-- A walk enters what is entered and leaves what is left. -/
theorem events_perm (forest : Forest) :
    forest.events.Perm (forest.entered.map (fun item => .enter item.1 item.2)
      ++ forest.left.map fun item => .leave item.1 item.2) := by
  rw [entered, left]
  induction forest.events with
  | nil => exact .refl _
  | cons event events ih =>
    cases event with
    | enter id node => exact .cons _ ih
    | leave id node => exact (ih.cons _).trans List.perm_middle.symm

theorem length_events (forest : Forest) : forest.events.length = 2 * forest.ids.length := by
  rw [forest.events_perm.length_eq, List.length_append, List.length_map, List.length_map,
    forest.left_perm_entered.length_eq, ids, List.length_map]
  omega

theorem nodup_events {forest : Forest} (h : forest.ids.Nodup) : forest.events.Nodup := by
  have hentered : forest.entered.Nodup := List.Nodup.of_map Prod.fst h
  have hleft : forest.left.Nodup := forest.left_perm_entered.nodup_iff.mpr hentered
  rw [forest.events_perm.nodup_iff, List.nodup_append]
  refine ⟨hentered.map ?_, hleft.map ?_, ?_⟩
  · rintro ⟨id, node⟩ ⟨other, otherNode⟩ heq
    cases heq
    rfl
  · rintro ⟨id, node⟩ ⟨other, otherNode⟩ heq
    cases heq
    rfl
  · intro event hevent other hother heq
    obtain ⟨item, -, rfl⟩ := List.mem_map.mp hevent
    obtain ⟨otherItem, -, rfl⟩ := List.mem_map.mp hother
    cases heq

end Forest

namespace Tree

variable {tree : Tree} {id : NodeId} {node : Node} {β σ : Type} {visit : Visitor β σ}

/-- What a visitor does along the list that starts with `first`. No path is cut, so an action
is derived only where every path of links ends. -/
inductive Walks (tree : Tree) (visit : Visitor β σ) : Option NodeId → EStateM β σ Unit → Prop
  | nil : Walks tree visit none (pure ())
  | cons {id : NodeId} {node : Node} {first second third rest : EStateM β σ Unit}
      (hnode : tree.node? id = some node) (hfirst : Walks tree visit node.children.first first)
      (hsecond : Walks tree visit node.children.second second)
      (hthird : Walks tree visit node.children.third third)
      (hrest : Walks tree visit node.sibling rest) :
      Walks tree visit (some id) do
        visit (.enter id node)
        first
        second
        third
        visit (.leave id node)
        rest

theorem Walks.unique {start : Option NodeId} {action other : EStateM β σ Unit}
    (h : tree.Walks visit start action) (h' : tree.Walks visit start other) : action = other := by
  induction h generalizing other with
  | nil =>
    cases h'
    rfl
  | cons hnode _ _ _ _ ihFirst ihSecond ihThird ihRest =>
    cases h' with
    | cons hnode' hfirst hsecond hthird hrest =>
      obtain rfl : _ = _ := Option.some.inj (hnode.symm.trans hnode')
      rw [ihFirst hfirst, ihSecond hsecond, ihThird hthird, ihRest hrest]

theorem Unfolds.walks {start : Option NodeId} {forest : Forest} (h : tree.Unfolds start forest)
    (visit : Visitor β σ) : tree.Walks visit start (forM forest.events visit) := by
  induction h with
  | nil => exact .nil
  | cons hnode _ _ _ _ ihFirst ihSecond ihThird ihRest =>
    simpa only [Forest.events_cons, List.forM_cons, List.forM_append, bind_assoc] using
      Walks.cons hnode ihFirst ihSecond ihThird ihRest

theorem WellLinked.walks_iff (hwell : tree.WellLinked) (visit : Visitor β σ)
    {action : EStateM β σ Unit} : tree.Walks visit tree.root action ↔ action = tree.walk visit := by
  have hwalk : tree.Walks visit tree.root (tree.walk visit) := by
    rw [walk_eq_forM, ← events_forest]
    exact hwell.unfolds.walks visit
  constructor
  · intro h
    exact h.unique hwalk
  · rintro rfl
    exact hwalk

/-- A visitor that never stops sees all events of the walk. -/
theorem walk_eq_ok (tree : Tree) {next : σ → Event → σ}
    (hnext : ∀ event state, visit event state = .ok () (next state event)) (state : σ) :
    tree.walk visit state = .ok () (tree.events.foldl next state) := by
  rw [walk_eq_forM]
  induction tree.events generalizing state with
  | nil => rfl
  | cons event events ih =>
    rw [List.forM_cons, List.foldl_cons, ← ih (next state event)]
    simp only [bind, EStateM.bind, hnext]

theorem WellLinked.enter_mem_iff (hwell : tree.WellLinked) :
    .enter id node ∈ tree.events ↔ tree.Reachable id ∧ tree.node? id = some node := by
  rw [reachable_iff_entered hwell.unfolds, Forest.mem_entered, events_forest]

theorem WellLinked.leave_mem_iff (hwell : tree.WellLinked) :
    .leave id node ∈ tree.events ↔ tree.Reachable id ∧ tree.node? id = some node := by
  rw [reachable_iff_entered hwell.unfolds, ← tree.forest.left_perm_entered.mem_iff,
    ← events_forest, Forest.left, List.mem_filterMap]
  constructor
  · intro hmem
    exact ⟨_, hmem, rfl⟩
  · rintro ⟨event, hmem, hevent⟩
    cases event with
    | enter other otherNode => cases hevent
    | leave other otherNode =>
      cases hevent
      exact hmem

/-- The walk from a node goes through its child slots between its own events, and then along its
siblings. -/
theorem Reachable.eventsFrom_some (hwell : tree.WellLinked) (hid : tree.Reachable id)
    (hnode : tree.node? id = some node) :
    tree.eventsFrom (some id) =
      .enter id node :: (tree.eventsFrom node.children.first ++ tree.eventsFrom node.children.second
        ++ tree.eventsFrom node.children.third ++ .leave id node :: tree.eventsFrom node.sibling) := by
  obtain ⟨past, htrail⟩ := hid.trail
  have hforest := hid.unfolds hwell
  rw [hforest.eventsFrom_eq hwell htrail.continues]
  generalize tree.forestUpTo tree.size (some id) = forest at hforest
  cases hforest with
  | cons hnode' hfirst hsecond hthird hrest =>
    obtain rfl : _ = _ := Option.some.inj (hnode.symm.trans hnode')
    rw [Forest.events_cons, hid.eventsFrom_eq hwell hnode (by simp [Slots.toList]) hfirst,
      hid.eventsFrom_eq hwell hnode (by simp [Slots.toList]) hsecond,
      hid.eventsFrom_eq hwell hnode (by simp [Slots.toList]) hthird,
      hid.eventsFrom_eq hwell hnode (by simp) hrest]

theorem Reachable.events_split (hwell : tree.WellLinked) (hid : tree.Reachable id) :
    ∃ before after, tree.events = before ++ tree.eventsFrom (some id) ++ after := by
  obtain ⟨past, htrail⟩ := hid.trail
  obtain ⟨around, hinside⟩ := (reachable_iff_exists_inside Label.isBlock).mp hid
  obtain ⟨before, _, _, _, _, _, hleads⟩ := hinside.leads hwell.unfolds
  obtain ⟨after, hevents⟩ := hleads.events_eq
  obtain ⟨start, hsub⟩ := hleads.unfolds hwell.unfolds
  obtain rfl : start = some id := by
    cases hsub
    rfl
  rw [events_forest] at hevents
  exact ⟨before, after, by rw [hevents, hsub.eventsFrom_eq hwell htrail.continues]⟩

/-- A tree that was read from a text can be walked, whatever its unreachable nodes link to: every
path that the walk follows ends, each node that the root leads to is entered once and left once, and
what stands in its child slots comes between. -/
theorem walk_of_ofText {text : String} (h : ofText text = .ok tree) :
    (∀ {β σ : Type} (visit : Visitor β σ) (action : EStateM β σ Unit),
      tree.Walks visit tree.root action ↔ action = tree.walk visit) ∧
    (∀ {β σ : Type} (visit : Visitor β σ) (next : σ → Event → σ),
      (∀ event state, visit event state = .ok () (next state event)) →
        ∀ state, tree.walk visit state = .ok () (tree.events.foldl next state)) ∧
    (∀ id, tree.Reachable id → ∃ node, tree.node? id = some node ∧
      tree.events.count (.enter id node) = 1 ∧ tree.events.count (.leave id node) = 1) ∧
    (∀ id node, .enter id node ∈ tree.events ∨ .leave id node ∈ tree.events →
      tree.Reachable id ∧ tree.node? id = some node) ∧
    (∀ id node, tree.Reachable id → tree.node? id = some node →
      (∃ before after, tree.events = before ++ tree.eventsFrom (some id) ++ after) ∧
      tree.eventsFrom (some id) =
        .enter id node :: (tree.eventsFrom node.children.first
          ++ tree.eventsFrom node.children.second ++ tree.eventsFrom node.children.third
          ++ .leave id node :: tree.eventsFrom node.sibling)) ∧
    tree.events.length ≤ 2 * tree.size := by
  have hwell := wellLinked_of_ofText h
  have hnodup : tree.events.Nodup := events_forest tree ▸ Forest.nodup_events hwell.nodup_ids
  refine ⟨fun visit action => hwell.walks_iff visit, fun visit next hnext => tree.walk_eq_ok hnext,
    ?_, ?_, ?_, ?_⟩
  · intro id hid
    obtain ⟨node, hmem⟩ := hid.entered hwell.unfolds
    have hboth := (reachable_iff_entered hwell.unfolds).mpr hmem
    exact ⟨node, hboth.2, List.count_eq_one_of_mem hnodup (hwell.enter_mem_iff.mpr hboth),
      List.count_eq_one_of_mem hnodup (hwell.leave_mem_iff.mpr hboth)⟩
  · rintro id node (hmem | hmem)
    · exact hwell.enter_mem_iff.mp hmem
    · exact hwell.leave_mem_iff.mp hmem
  · intro id node hid hnode
    exact ⟨hid.events_split hwell, hid.eventsFrom_some hwell hnode⟩
  · rw [← events_forest, Forest.length_events]
    have := hwell.unfolds.length_ids_le hwell tree.continues_root
    omega

/-- Two of the nodes are each other's siblings, out of reach of the root. -/
def cycleText : String :=
  "[0,[\x7b\"kind\":\"return\",\"children\":[3]\x7d,"
    ++ "\x7b\"kind\":\"const\",\"value\":1,\"sibling\":2\x7d,"
    ++ "\x7b\"kind\":\"const\",\"value\":2,\"sibling\":1\x7d,"
    ++ "\x7b\"kind\":\"id\",\"name\":\"x\"\x7d]]"

def cycleTree : Tree where
  nodes := #[
    ⟨.statement .ret, 0, ⟨some 3, none, none⟩, none⟩,
    ⟨.expression (.constant 1), 0, .empty, some 2⟩,
    ⟨.expression (.constant 2), 0, .empty, some 1⟩,
    .leaf (.expression (.identifier "x")) 0]
  root := some 0

theorem ofText_cycleText : ofText cycleText = .ok cycleTree :=
  ofText_eq_ok (ofList_append (ofList_append (ofList_append rfl rfl) rfl) rfl) (by decide +kernel)

/-- Keeps a record of the nodes that are entered, and never stops. -/
def recorder : Visitor Empty (List NodeId) := fun event =>
  modify (· ++ (event.entered?.map Prod.fst).toList)

theorem walk_cycleTree :
    ofText cycleText = .ok cycleTree ∧ cycleTree.Links 1 2 ∧ cycleTree.Links 2 1 ∧
      cycleTree.Reachable 3 ∧ ¬ cycleTree.Reachable 1 ∧
      cycleTree.walk recorder [] = .ok () [0, 3] := by
  obtain ⟨-, hrun, honce, honly, -, -⟩ := walk_of_ofText ofText_cycleText
  have hmet : .enter 3 (.leaf (.expression (.identifier "x")) 0) ∈ cycleTree.events := by decide
  refine ⟨ofText_cycleText, ⟨_, rfl, by decide⟩, ⟨_, rfl, by decide⟩, (honly 3 _ (.inl hmet)).1,
    ?_, ?_⟩
  · intro hid
    obtain ⟨node, hnode, hcount, -⟩ := honce 1 hid
    cases hnode
    exact absurd hcount (by decide)
  · rw [hrun recorder (fun seen event => seen ++ (event.entered?.map Prod.fst).toList)
      fun _ _ => rfl]
    rfl

end Tree

end ScopeCheck
