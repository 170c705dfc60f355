import ScopeCheck.Proofs.Tree.Enclosing

namespace ScopeCheck.Tree

section Inside

variable {tree : Tree} {p : Label → Bool} {around : List NodeId} {start : Option NodeId}
  {forest : Forest}

theorem WellLinked.sibling_ne_child (hwell : tree.WellLinked) {id next : NodeId} {node : Node}
    (hnode : tree.node? id = some node) {slot : Slot} (hchild : node.child slot = some next) :
    node.sibling ≠ some next := by
  intro hsibling
  have hnodup := hwell.nodup_node_links hnode
  rw [Node.links, List.filterMap_append, List.nodup_append] at hnodup
  exact hnodup.2.2 next (List.mem_filterMap.mpr ⟨_, node.child_mem slot, hchild⟩) next
    (by simp [hsibling]) rfl

/-- There is one way into a node, so what is around it is settled. -/
theorem Inside.unique (hwell : tree.WellLinked) {id : NodeId} {other : List NodeId}
    (h : tree.Inside p around id) (h' : tree.Inside p other id) : around = other := by
  -- Both ways end with a link to the node. Only one node links to it, and with one link.
  induction h generalizing other with
  | root hroot =>
    cases h' with
    | root => rfl
    | child slot hid hnode hchild =>
      exact absurd (links_of_child hnode hchild) (hwell.root_not_linked hroot)
    | sibling hid hnode hsibling =>
      exact absurd (links_of_sibling hnode hsibling) (hwell.root_not_linked hroot)
  | child slot _ hnode hchild ih =>
    cases h' with
    | root hroot => exact absurd (links_of_child hnode hchild) (hwell.root_not_linked hroot)
    | child slot' hid hnode' hchild' =>
      obtain rfl := hwell.source_unique (links_of_child hnode hchild) (links_of_child hnode' hchild')
      obtain rfl := Option.some.inj (hnode.symm.trans hnode')
      rw [ih hid]
    | sibling hid hnode' hsibling =>
      obtain rfl :=
        hwell.source_unique (links_of_child hnode hchild) (links_of_sibling hnode' hsibling)
      obtain rfl := Option.some.inj (hnode.symm.trans hnode')
      exact absurd hsibling (hwell.sibling_ne_child hnode hchild)
  | sibling _ hnode hsibling ih =>
    cases h' with
    | root hroot => exact absurd (links_of_sibling hnode hsibling) (hwell.root_not_linked hroot)
    | child slot hid hnode' hchild =>
      obtain rfl :=
        hwell.source_unique (links_of_sibling hnode hsibling) (links_of_child hnode' hchild)
      obtain rfl := Option.some.inj (hnode.symm.trans hnode')
      exact absurd hsibling (hwell.sibling_ne_child hnode hchild)
    | sibling hid hnode' hsibling' =>
      obtain rfl :=
        hwell.source_unique (links_of_sibling hnode hsibling) (links_of_sibling hnode' hsibling')
      exact ih hid

theorem Unfolds.inside_of_spine (h : tree.Unfolds start forest)
    (hstart : ∀ top, start = some top → tree.Inside p around top) :
    ∀ item ∈ forest.spine, tree.Inside p around item.1 := by
  induction h with
  | nil => simp [Forest.spine]
  | cons hnode _ _ _ _ _ _ _ ihRest =>
    intro item hitem
    rcases List.mem_cons.mp hitem with rfl | hitem
    · exact hstart _ rfl
    · exact ihRest (fun top htop => .sibling (hstart _ rfl) hnode htop) item hitem

theorem Unfolds.inside_of_mem (h : tree.Unfolds start forest)
    (hstart : ∀ top, start = some top → tree.Inside p around top) {id : NodeId}
    (hmem : id ∈ forest.ids) : ∃ inner, tree.Inside p inner id ∧ around <:+ inner := by
  obtain ⟨⟨_, node⟩, hentered, rfl⟩ := List.mem_map.mp hmem
  obtain ⟨_, inner, _, _, _, _, hleads⟩ := Forest.exists_leads p around hentered
  exact ⟨inner, inside_of_leads h hstart hleads, hleads.suffix⟩

end Inside

section Chain

variable {tree : Tree} {id : NodeId} {node : Node}

theorem lt_size_of_node? (h : tree.node? id = some node) : id < tree.size := by
  obtain ⟨hlt, -⟩ := Array.getElem?_eq_some_iff.mp h
  exact hlt

theorem node?_of_mem_chainUpTo {fuel : Nat} {start : Option NodeId}
    (h : (id, node) ∈ tree.chainUpTo fuel start) : tree.node? id = some node := by
  induction fuel generalizing start with
  | zero => cases h
  | succ fuel ih =>
    cases start with
    | none => cases h
    | some top =>
      rw [chainUpTo] at h
      cases htop : tree.node? top with
      | none =>
        rw [htop] at h
        cases h
      | some topNode =>
        rw [htop] at h
        rcases List.mem_cons.mp h with heq | h
        · cases heq
          exact htop
        · exact ih h

theorem node?_of_mem_chain {start : Option NodeId} (h : (id, node) ∈ tree.chain start) :
    tree.node? id = some node :=
  node?_of_mem_chainUpTo h

end Chain

section Outermost

variable {tree : Tree} {outermost : NodeId} (hwell : tree.WellLinked)
  (houtermost : tree.Inside (fun _ => true) [] outermost)

include hwell houtermost

theorem Inside.child_ne {id : NodeId} {node : Node} (hnode : tree.node? id = some node)
    (slot : Slot) : node.child slot ≠ some outermost := by
  intro hchild
  generalize haround : [] = around at houtermost
  cases houtermost with
  | root hroot => exact hwell.root_not_linked hroot (links_of_child hnode hchild)
  | child => cases haround
  | sibling _ hother hsibling =>
    obtain rfl := hwell.source_unique (links_of_child hnode hchild) (links_of_sibling hother hsibling)
    obtain rfl := Option.some.inj (hnode.symm.trans hother)
    exact hwell.sibling_ne_child hnode hchild hsibling

theorem Inside.not_mem_child {id : NodeId} {node : Node} (hid : tree.Reachable id)
    (hnode : tree.node? id = some node) {slot : Slot} {forest : Forest}
    (hforest : tree.Unfolds (node.child slot) forest) : outermost ∉ forest.ids := by
  intro hmem
  obtain ⟨around, hinside⟩ := (reachable_iff_exists_inside fun _ => true).mp hid
  obtain ⟨inner, hinner, hsuffix⟩ := hforest.inside_of_mem
    (fun top htop => .child slot hinside hnode htop) hmem
  rw [← houtermost.unique hwell hinner, List.suffix_nil] at hsuffix
  cases hsuffix

end Outermost

theorem Reachable.exists_child_unfolds {tree : Tree} (hwell : tree.WellLinked) {id : NodeId}
    (hid : tree.Reachable id) {node : Node} (hnode : tree.node? id = some node) (slot : Slot) :
    ∃ forest, tree.Unfolds (node.child slot) forest := by
  have hunfolds := hid.unfolds hwell
  generalize tree.forestUpTo tree.size (some id) = top at hunfolds
  cases hunfolds with
  | cons hnode' hfirst hsecond hthird _ =>
    obtain rfl := Option.some.inj (hnode.symm.trans hnode')
    obtain ⟨_, kid, _, hkid⟩ := Forest.Slotted.exists_unfolds hfirst hsecond hthird slot
    exact ⟨kid, hkid⟩

theorem Reachable.of_mem_list {tree : Tree} (hwell : tree.WellLinked) {id : NodeId}
    (hid : tree.Reachable id) {node : Node} (hnode : tree.node? id = some node) {slot : Slot}
    {item : NodeId × Node} (hitem : item ∈ tree.list node slot) : tree.Reachable item.1 := by
  obtain ⟨around, hinside⟩ := (reachable_iff_exists_inside fun _ => true).mp hid
  obtain ⟨forest, hforest⟩ := hid.exists_child_unfolds hwell hnode slot
  rw [hid.list_eq hwell hnode hforest] at hitem
  exact (reachable_iff_exists_inside fun _ => true).mpr
    ⟨_, hforest.inside_of_spine (fun top htop => .child slot hinside hnode htop) item hitem⟩

/-- In the other tree the nodes of this one may have other siblings, but what stands in their child
slots is as it was. -/
structure SameInside (tree other : Tree) : Prop where
  reachable : ∀ id, tree.Reachable id → other.Reachable id
  node : ∀ id node, tree.Reachable id → tree.node? id = some node →
    ∃ sibling, other.node? id = some { node with sibling }
  child : ∀ id node (slot : Slot) forest, tree.Reachable id → tree.node? id = some node →
    tree.Unfolds (node.child slot) forest → other.Unfolds (node.child slot) forest

namespace SameInside

variable {tree other : Tree} (h : tree.SameInside other) (hwell : tree.WellLinked)
  (hother : other.WellLinked) {id : NodeId} {node : Node} (hid : tree.Reachable id)
  (hnode : tree.node? id = some node)

include h hwell hother hid hnode

/-- The list in a child slot has the same members, and a walk of it meets the same. -/
theorem child_eq (slot : Slot) :
    other.chain (node.child slot) = tree.chain (node.child slot) ∧
      other.eventsFrom (node.child slot) = tree.eventsFrom (node.child slot) := by
  obtain ⟨sibling, hnode'⟩ := h.node id node hid hnode
  obtain ⟨forest, hforest⟩ := hid.exists_child_unfolds hwell hnode slot
  have hforest' := h.child id node slot forest hid hnode hforest
  have hslot := node.child_mem slot
  obtain ⟨trail, htrail⟩ := hid.continues hnode (List.mem_append_left _ hslot)
  obtain ⟨trail', htrail'⟩ :=
    (h.reachable id hid).continues hnode' (List.mem_append_left _ hslot)
  rw [hforest.chain_eq hwell htrail, hforest'.chain_eq hother htrail',
    hforest.eventsFrom_eq hwell htrail, hforest'.eventsFrom_eq hother htrail']
  exact ⟨rfl, rfl⟩

omit hother hid hnode in
/-- Where no more can be reached in the other tree, each tree is the other one's other. -/
theorem symm (hback : ∀ id, other.Reachable id → tree.Reachable id) : other.SameInside tree where
  reachable := hback
  node id node hid hnode := by
    obtain ⟨older, holder⟩ := Option.ne_none_iff_exists'.mp ((hback id hid).node_ne_none hwell)
    obtain ⟨sibling, hnode'⟩ := h.node id older (hback id hid) holder
    obtain rfl := Option.some.inj (hnode'.symm.trans hnode)
    exact ⟨older.sibling, holder⟩
  child id node slot forest hid hnode hforest := by
    obtain ⟨older, holder⟩ := Option.ne_none_iff_exists'.mp ((hback id hid).node_ne_none hwell)
    obtain ⟨sibling, hnode'⟩ := h.node id older (hback id hid) holder
    obtain rfl := Option.some.inj (hnode'.symm.trans hnode)
    obtain ⟨found, hfound⟩ := (hback id hid).exists_child_unfolds hwell holder slot
    rwa [hforest.unique (h.child id older slot found (hback id hid) holder hfound)]

end SameInside

end ScopeCheck.Tree
