import ScopeCheck.Proofs.Tree.Interior
import ScopeCheck.Proofs.Tree.Renaming

namespace ScopeCheck

/-- The node with the sibling `next`, if it is the node `last`. -/
def Node.relink (last next id : NodeId) (node : Node) : Node :=
  if id = last then { node with sibling := some next } else node

namespace Node

variable {last next id : NodeId} {node : Node}

@[simp]
theorem relink_label : (node.relink last next id).label = node.label := by
  rw [relink]
  split <;> rfl

@[simp]
theorem relink_line : (node.relink last next id).line = node.line := by
  rw [relink]
  split <;> rfl

@[simp]
theorem relink_children : (node.relink last next id).children = node.children := by
  rw [relink]
  split <;> rfl

theorem relink_sibling :
    (node.relink last next id).sibling = if id = last then some next else node.sibling := by
  rw [relink]
  split <;> rfl

theorem relink_of_ne (h : id ≠ last) : node.relink last next id = node :=
  if_neg h

end Node

namespace Forest

variable {last next : NodeId} {tail : Forest}

/-- The forest where `tail` follows after the node `last`. -/
def continued (last next : NodeId) : Forest → Forest → Forest
  | nil, _ => nil
  | cons id node first second third rest, tail =>
    cons id (node.relink last next id) (first.continued last next tail)
      (second.continued last next tail) (third.continued last next tail)
      (if id = last then tail else rest.continued last next tail)

theorem continued_eq_self {forest : Forest} (h : last ∉ forest.ids) :
    forest.continued last next tail = forest := by
  induction forest with
  | nil => rfl
  | cons id node first second third rest ihFirst ihSecond ihThird ihRest =>
    simp only [ids_cons, List.mem_cons, List.mem_append, not_or] at h
    obtain ⟨hne, ⟨⟨hfirst, hsecond⟩, hthird⟩, hrest⟩ := h
    rw [continued, ihFirst hfirst, ihSecond hsecond, ihThird hthird, ihRest hrest,
      if_neg (Ne.symm hne), Node.relink_of_ne (Ne.symm hne)]

theorem map_relink_events {forest : Forest} (h : last ∉ forest.ids) :
    forest.events.map (Event.mapNode (Node.relink last next)) = forest.events := by
  rw [← events_mapNodes, mapNodes_eq_self]
  intro id node hmem
  apply Node.relink_of_ne
  rintro rfl
  exact h (id_mem_ids hmem)

theorem mem_ids_of_getLast? {forest : Forest} {node : Node}
    (h : forest.spine.getLast? = some (last, node)) : last ∈ forest.ids :=
  id_mem_ids (forest.spine_subset (List.mem_of_getLast? h))

theorem events_continued {forest : Forest} (hnodup : forest.ids.Nodup) {node : Node}
    (hlast : forest.spine.getLast? = some (last, node)) :
    (forest.continued last next tail).events =
      forest.events.map (Event.mapNode (Node.relink last next)) ++ tail.events := by
  induction forest with
  | nil => cases hlast
  | cons id top first second third rest _ _ _ ihRest =>
    simp only [ids_cons, List.nodup_cons, List.nodup_append, List.mem_append, not_or] at hnodup
    obtain ⟨⟨hid, hidRest⟩, -, hnodup, hdisjoint⟩ := hnodup
    -- The last node is this one, or it comes later in the same list.
    have hcases : (last = id ∧ rest = nil) ∨ rest.spine.getLast? = some (last, node) := by
      cases rest with
      | nil =>
        cases hlast
        exact .inl ⟨rfl, rfl⟩
      | cons => exact .inr (by rwa [spine, spine, List.getLast?_cons_cons] at hlast)
    have hkids : (last ∉ first.ids ∧ last ∉ second.ids) ∧ last ∉ third.ids := by
      rcases hcases with ⟨rfl, -⟩ | hrest
      · exact hid
      · have hmem := mem_ids_of_getLast? hrest
        exact ⟨⟨fun h => hdisjoint last (.inl (.inl h)) last hmem rfl,
          fun h => hdisjoint last (.inl (.inr h)) last hmem rfl⟩,
          fun h => hdisjoint last (.inr h) last hmem rfl⟩
    rw [continued, continued_eq_self hkids.1.1, continued_eq_self hkids.1.2,
      continued_eq_self hkids.2, events_cons, events_cons]
    simp only [List.map_cons, List.map_append, map_relink_events hkids.1.1,
      map_relink_events hkids.1.2, map_relink_events hkids.2, Event.mapNode, List.append_assoc,
      List.cons_append]
    rcases hcases with ⟨rfl, rfl⟩ | hrest
    · simp
    · have hne : id ≠ last := by
        rintro rfl
        exact hidRest (mem_ids_of_getLast? hrest)
      rw [if_neg hne, ihRest hnodup hrest]

end Forest

namespace Tree

/-- A tree that goes on in a later one, which has new nodes after its own. The new nodes link to new
ones only, and nothing else is new but that the last node of the outermost list has one of them for
its sibling. -/
structure ContinuedBy (tree later : Tree) (last next : NodeId) : Prop where
  root : later.root = tree.root
  ends : ∃ node, (tree.chain tree.root).getLast? = some (last, node)
  le_next : tree.size ≤ next
  kept : ∀ id node, tree.node? id = some node →
    later.node? id = some (node.relink last next id)
  added : ∀ id node, tree.size ≤ id → later.node? id = some node →
    ∀ target ∈ node.links, tree.size ≤ target

theorem Unfolds.sibling_eq_none {tree : Tree} {start : Option NodeId} {forest : Forest}
    (h : tree.Unfolds start forest) {last : NodeId} {node : Node}
    (hlast : forest.spine.getLast? = some (last, node)) : node.sibling = none := by
  induction h with
  | nil => cases hlast
  | @cons _ _ _ _ _ rest hnode _ _ _ hrest _ _ _ ihRest =>
    cases rest with
    | nil =>
      cases hlast
      generalize node.sibling = sibling at hrest ⊢
      cases hrest
      rfl
    | cons => exact ihRest (by rwa [Forest.spine, Forest.spine, List.getLast?_cons_cons] at hlast)

namespace Unfolds

variable {tree later : Tree} {last next : NodeId} {start : Option NodeId} {forest tail : Forest}

theorem continued (h : tree.Unfolds start forest) (hcontinued : tree.ContinuedBy later last next)
    (htail : later.Unfolds (some next) tail) :
    later.Unfolds start (forest.continued last next tail) := by
  induction h with
  | nil => exact .nil
  | @cons id node _ _ _ _ hnode _ _ _ _ ihFirst ihSecond ihThird ihRest =>
    refine .cons (hcontinued.kept id node hnode) ?_ ?_ ?_ ?_
    · rwa [Node.relink_children]
    · rwa [Node.relink_children]
    · rwa [Node.relink_children]
    · rw [Node.relink_sibling]
      split
      · exact htail
      · exact ihRest

/-- From a new node there is no way back to the old ones. -/
theorem size_le_of_mem (h : later.Unfolds start forest)
    (hcontinued : tree.ContinuedBy later last next)
    (hstart : ∀ top, start = some top → tree.size ≤ top) {id : NodeId} (hmem : id ∈ forest.ids) :
    tree.size ≤ id := by
  induction h with
  | nil => cases hmem
  | @cons top node _ _ _ _ hnode _ _ _ _ ihFirst ihSecond ihThird ihRest =>
    have hlinks : ∀ link ∈ node.children.toList ++ [node.sibling], ∀ other, link = some other →
        tree.size ≤ other := by
      intro link hlink other hother
      exact hcontinued.added top node (hstart top rfl) hnode other
        (List.mem_filterMap.mpr ⟨link, hlink, hother⟩)
    simp only [Forest.ids_cons, List.mem_cons, List.mem_append] at hmem
    rcases hmem with rfl | ((hmem | hmem) | hmem) | hmem
    · exact hstart id rfl
    · exact ihFirst (hlinks _ (by simp [Slots.toList])) hmem
    · exact ihSecond (hlinks _ (by simp [Slots.toList])) hmem
    · exact ihThird (hlinks _ (by simp [Slots.toList])) hmem
    · exact ihRest (hlinks _ (by simp)) hmem

end Unfolds

namespace ContinuedBy

variable {tree later : Tree} {last next : NodeId} (h : tree.ContinuedBy later last next)
  (hwell : tree.WellLinked) (hlater : later.WellLinked)

include h hwell

theorem exists_last : ∃ node, tree.forest.spine.getLast? = some (last, node) := by
  obtain ⟨node, hlast⟩ := h.ends
  rw [hwell.unfolds.chain_eq hwell tree.continues_root] at hlast
  exact ⟨node, hlast⟩

theorem reachable {id : NodeId} (hid : tree.Reachable id) : later.Reachable id := by
  obtain ⟨lastNode, hlast⟩ := h.exists_last hwell
  -- The one link that is new stands where there was none.
  have hlastNode := hwell.unfolds.node_of_mem
    (tree.forest.spine_subset (List.mem_of_getLast? hlast))
  induction hid with
  | root hroot => exact .root (h.root.trans hroot)
  | child slot _ hnode hchild ih =>
    refine .child slot ih (h.kept _ _ hnode) ?_
    rwa [Node.child, Node.relink_children]
  | @sibling id _ node _ hnode hsibling ih =>
    have hne : id ≠ last := by
      rintro rfl
      obtain rfl := Option.some.inj (hnode.symm.trans hlastNode)
      rw [hwell.unfolds.sibling_eq_none hlast] at hsibling
      cases hsibling
    refine .sibling ih (h.kept _ _ hnode) ?_
    rwa [Node.relink_of_ne hne]

theorem reachable_next : later.Reachable next := by
  obtain ⟨node, hlast⟩ := h.exists_last hwell
  have hmem := tree.forest.spine_subset (List.mem_of_getLast? hlast)
  refine .sibling (h.reachable hwell (reachable_of_entered hwell.unfolds hmem))
    (h.kept _ _ (hwell.unfolds.node_of_mem hmem)) ?_
  rw [Node.relink_sibling, if_pos rfl]

theorem sameInside (hlater : later.WellLinked) : tree.SameInside later where
  reachable _ hid := h.reachable hwell hid
  node id node _ hnode := by
    refine ⟨(node.relink last next id).sibling, (h.kept id node hnode).trans ?_⟩
    rw [Node.relink]
    split <;> rfl
  child id node slot forest hid hnode hforest := by
    obtain ⟨lastNode, hspine⟩ := h.exists_last hwell
    have houtermost : tree.Inside (fun _ => true) [] last := hwell.unfolds.inside_of_spine
      (fun top htop => .root htop) (last, lastNode) (List.mem_of_getLast? hspine)
    have hcontinued := hforest.continued h ((h.reachable_next hwell).unfolds hlater)
    rwa [Forest.continued_eq_self (houtermost.not_mem_child hwell hid hnode hforest)] at hcontinued

include hlater

theorem forest_eq : later.forest =
    tree.forest.continued last next (later.forestUpTo later.size (some next)) := by
  have hforest := hwell.unfolds.continued h ((h.reachable_next hwell).unfolds hlater)
  rw [← h.root] at hforest
  exact hlater.unfolds.unique hforest

theorem events_eq : later.events =
    tree.events.map (Event.mapNode (Node.relink last next)) ++ later.eventsFrom (some next) := by
  obtain ⟨node, hlast⟩ := h.exists_last hwell
  rw [← events_forest, h.forest_eq hwell hlater,
    Forest.events_continued hwell.nodup_ids hlast, events_forest, events_forestUpTo, eventsFrom]

theorem size_le_of_next {id : NodeId} (hmem : id ∈ (later.forestUpTo later.size (some next)).ids) :
    tree.size ≤ id := by
  refine ((h.reachable_next hwell).unfolds hlater).size_le_of_mem h ?_ hmem
  rintro _ ⟨⟩
  exact h.le_next

end ContinuedBy

end Tree

end ScopeCheck
