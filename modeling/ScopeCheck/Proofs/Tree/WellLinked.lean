import Mathlib.Data.List.Perm.Basic
import ScopeCheck.Proofs.Lists
import ScopeCheck.Proofs.Tree.Reachability

namespace ScopeCheck

/-- The nodes that a node links to: its children, and its sibling last. -/
def Node.links (node : Node) : List NodeId :=
  (node.children.toList ++ [node.sibling]).filterMap id

def Slots.links (slots : Slots) : List NodeId := slots.toList.filterMap id

theorem Node.links_eq (node : Node) : node.links = node.children.links ++ node.sibling.toList := by
  rw [links, List.filterMap_append, Slots.links]
  cases node.sibling <;> rfl

theorem Node.child_mem (node : Node) (slot : Slot) : node.child slot ∈ node.children.toList := by
  match slot with
  | 0 | 1 | 2 => simp [child, Slots.get, Slots.toList]

namespace Tree

/-- The nodes that a tree links to: the root, then what the nodes link to. -/
def links (tree : Tree) : List NodeId := tree.root.toList ++ tree.nodes.toList.flatMap Node.links

def siblings (tree : Tree) : List NodeId := tree.nodes.toList.filterMap Node.sibling

/-- The links of a tree in another order: node by node the sibling comes after the children. -/
theorem links_perm (tree : Tree) : tree.links.Perm (tree.root.toList ++
    (tree.nodes.toList.flatMap (fun node => node.children.links) ++ tree.siblings)) := by
  rw [links, funext Node.links_eq, siblings, List.filterMap_eq_flatMap_toList]
  exact (List.flatMap_append_perm ..).symm.append_left _

structure WellLinked (tree : Tree) : Prop where
  lt_size : ∀ target ∈ tree.links, target < tree.size
  nodup : tree.links.Nodup

def Links (tree : Tree) (source target : NodeId) : Prop :=
  ∃ node, tree.node? source = some node ∧ target ∈ node.links

/-- A way from the root, the last node first. -/
inductive Trail (tree : Tree) : List NodeId → Prop
  | start {id : NodeId} (hroot : tree.root = some id) : Trail tree [id]
  | step {id next : NodeId} {past : List NodeId} (h : Trail tree (id :: past))
      (hlink : tree.Links id next) : Trail tree (next :: id :: past)

variable {tree : Tree}

namespace WellLinked

theorem root_not_linked (h : tree.WellLinked) {root source : NodeId}
    (hroot : tree.root = some root) : ¬ tree.Links source root := by
  rintro ⟨node, hnode, hmem⟩
  have hnodup := h.nodup
  rw [links, hroot] at hnodup
  apply (List.nodup_cons.mp hnodup).1
  exact List.mem_flatMap.mpr ⟨node, Array.mem_toList_iff.mpr (Array.mem_of_getElem? hnode), hmem⟩

theorem source_unique (h : tree.WellLinked) {source other target : NodeId}
    (hsource : tree.Links source target) (hother : tree.Links other target) :
    source = other := by
  obtain ⟨node, hnode, hmem⟩ := hsource
  obtain ⟨otherNode, hotherNode, hotherMem⟩ := hother
  have hpair := (List.pairwise_flatMap.mp (List.nodup_append.mp h.nodup).2.1).2
  rw [List.pairwise_iff_getElem] at hpair
  obtain ⟨hlt, rfl⟩ := Array.getElem?_eq_some_iff.mp hnode
  obtain ⟨hotherLt, rfl⟩ := Array.getElem?_eq_some_iff.mp hotherNode
  rcases Nat.lt_trichotomy source other with hlt' | heq | hlt'
  · exact absurd rfl (hpair source other (by simpa using hlt) (by simpa using hotherLt) hlt'
      target hmem target hotherMem)
  · exact heq
  · exact absurd rfl (hpair other source (by simpa using hotherLt) (by simpa using hlt) hlt'
      target hotherMem target hmem)

theorem nodup_node_links (h : tree.WellLinked) {id : NodeId} {node : Node}
    (hnode : tree.node? id = some node) : node.links.Nodup := by
  have hpair := (List.pairwise_flatMap.mp (List.nodup_append.mp h.nodup).2.1).1
  exact hpair node (Array.mem_toList_iff.mpr (Array.mem_of_getElem? hnode))

end WellLinked

namespace Trail

theorem mem_links {id : NodeId} {past : List NodeId} (h : tree.Trail (id :: past)) :
    id ∈ tree.links := by
  cases h with
  | start hroot => simp [links, hroot]
  | step _ hlink =>
    obtain ⟨node, hnode, hmem⟩ := hlink
    refine List.mem_append_right _ (List.mem_flatMap.mpr ⟨node, ?_, hmem⟩)
    exact Array.mem_toList_iff.mpr (Array.mem_of_getElem? hnode)

/-- The way to a node is the only one. -/
theorem unique (hwell : tree.WellLinked) {id : NodeId} {past other : List NodeId}
    (h : tree.Trail (id :: past)) (h' : tree.Trail (id :: other)) : past = other := by
  induction past generalizing id other with
  | nil =>
    cases h with
    | start hroot =>
      cases h' with
      | start => rfl
      | step _ hlink => exact absurd hlink (hwell.root_not_linked hroot)
  | cons source past ih =>
    cases h with
    | step hpast hlink =>
      cases h' with
      | start hroot => exact absurd hlink (hwell.root_not_linked hroot)
      | step hother hlink' =>
        -- Both come from the same node, since no other one links here.
        obtain rfl := hwell.source_unique hlink hlink'
        rw [ih hpast hother]

theorem of_mem {trail : List NodeId} (h : tree.Trail trail) {id : NodeId} (hmem : id ∈ trail) :
    ∃ past, tree.Trail (id :: past) ∧ id :: past <:+ trail := by
  induction h with
  | start hroot =>
    obtain rfl := List.mem_singleton.mp hmem
    exact ⟨[], .start hroot, List.suffix_refl _⟩
  | step hpast hlink ih =>
    rcases List.mem_cons.mp hmem with rfl | hmem
    · exact ⟨_, .step hpast hlink, List.suffix_refl _⟩
    · obtain ⟨past, htrail, hsuffix⟩ := ih hmem
      exact ⟨past, htrail, hsuffix.trans (List.suffix_cons _ _)⟩

theorem not_mem_past (hwell : tree.WellLinked) {id : NodeId} {past : List NodeId}
    (h : tree.Trail (id :: past)) : id ∉ past := by
  intro hmem
  cases h with
  | start => cases hmem
  | step hpast hlink =>
    -- The way to the first visit would be a shorter one to the same node.
    obtain ⟨shorter, htrail, hsuffix⟩ := hpast.of_mem hmem
    have heq := unique hwell htrail (.step hpast hlink)
    have hlength := hsuffix.length_le
    simp only [heq, List.length_cons] at hlength
    omega

theorem nodup (hwell : tree.WellLinked) {trail : List NodeId} (h : tree.Trail trail) :
    trail.Nodup := by
  induction h with
  | start => simp
  | step hpast hlink ih =>
    exact List.nodup_cons.mpr ⟨not_mem_past hwell (.step hpast hlink), ih⟩

/-- No way is longer than the tree. -/
theorem length_le (hwell : tree.WellLinked) {trail : List NodeId} (h : tree.Trail trail) :
    trail.length ≤ tree.size := by
  have hsubset : trail ⊆ List.range tree.size := by
    intro id hmem
    obtain ⟨past, htrail, -⟩ := h.of_mem hmem
    exact List.mem_range.mpr (hwell.lt_size id htrail.mem_links)
  simpa using (h.nodup hwell).length_le_of_subset hsubset

end Trail

/-- Whatever `start` is, it continues the way. -/
def Continues (tree : Tree) (trail : List NodeId) (start : Option NodeId) : Prop :=
  ∀ id, start = some id → tree.Trail (id :: trail)

theorem Trail.continues {id : NodeId} {past : List NodeId} (h : tree.Trail (id :: past)) :
    tree.Continues past (some id) := by
  rintro _ ⟨⟩
  exact h

theorem Continues.link {trail : List NodeId} {id : NodeId} {node : Node} {start : Option NodeId}
    (h : tree.Continues trail (some id)) (hnode : tree.node? id = some node)
    (hstart : start ∈ node.children.toList ++ [node.sibling]) :
    tree.Continues (id :: trail) start := by
  intro next hnext
  refine .step (h id rfl) ⟨node, hnode, ?_⟩
  exact List.mem_filterMap.mpr ⟨start, hstart, hnext⟩

/-- The size of the tree is fuel enough for a walk. -/
theorem unfolds_forestUpTo (hwell : tree.WellLinked) {fuel : Nat} {trail : List NodeId}
    {start : Option NodeId} (hstart : tree.Continues trail start)
    (hfuel : tree.size ≤ trail.length + fuel) :
    tree.Unfolds start (tree.forestUpTo fuel start) := by
  induction fuel generalizing trail start with
  | zero =>
    cases start with
    | none => exact .nil
    | some id =>
      -- The way here is as long as the tree is large, so it does not go on.
      have hlength := (hstart id rfl).length_le hwell
      simp only [List.length_cons] at hlength
      omega
  | succ fuel ih =>
    cases start with
    | none => exact .nil
    | some id =>
      have hlt : id < tree.nodes.size := hwell.lt_size id (hstart id rfl).mem_links
      have hnode : tree.node? id = some tree.nodes[id] := Array.getElem?_eq_getElem hlt
      have hsub : ∀ next ∈ tree.nodes[id].children.toList ++ [tree.nodes[id].sibling],
          tree.Unfolds next (tree.forestUpTo fuel next) := by
        intro next hnext
        refine ih (hstart.link hnode hnext) ?_
        simp only [List.length_cons]
        omega
      rw [forestUpTo, hnode]
      exact .cons hnode (hsub _ (by simp [Slots.toList])) (hsub _ (by simp [Slots.toList]))
        (hsub _ (by simp [Slots.toList])) (hsub _ (by simp))

theorem continues_root (tree : Tree) : tree.Continues [] tree.root :=
  fun _ hroot => .start hroot

theorem WellLinked.unfolds (hwell : tree.WellLinked) : tree.Unfolds tree.root tree.forest :=
  unfolds_forestUpTo hwell tree.continues_root (by simp)

theorem Unfolds.trail_of_mem {start : Option NodeId} {forest : Forest} {trail : List NodeId}
    (h : tree.Unfolds start forest) (hstart : tree.Continues trail start) {id : NodeId}
    (hmem : id ∈ forest.ids) :
    ∃ top past, start = some top ∧ tree.Trail (id :: past) ∧ top :: trail <:+ id :: past := by
  induction h generalizing trail with
  | nil => cases hmem
  | @cons top node first second third rest hnode _ _ _ _ ihFirst ihSecond ihThird ihRest =>
    have hlift : ∀ next, next ∈ node.children.toList ++ [node.sibling] →
        (tree.Continues (top :: trail) next → ∃ head past, next = some head ∧
          tree.Trail (id :: past) ∧ head :: top :: trail <:+ id :: past) →
        ∃ head past, some top = some head ∧ tree.Trail (id :: past) ∧
          head :: trail <:+ id :: past := by
      intro next hnext ih
      obtain ⟨head, past, -, htrail, hsuffix⟩ := ih (hstart.link hnode hnext)
      exact ⟨top, past, rfl, htrail, (List.suffix_cons _ _).trans hsuffix⟩
    simp only [Forest.ids_cons, List.mem_cons, List.mem_append] at hmem
    rcases hmem with rfl | ((hmem | hmem) | hmem) | hmem
    · exact ⟨id, trail, rfl, hstart id rfl, List.suffix_refl _⟩
    · exact hlift _ (by simp [Slots.toList]) (fun hcont => ihFirst hcont hmem)
    · exact hlift _ (by simp [Slots.toList]) (fun hcont => ihSecond hcont hmem)
    · exact hlift _ (by simp [Slots.toList]) (fun hcont => ihThird hcont hmem)
    · exact hlift _ (by simp) (fun hcont => ihRest hcont hmem)

/-- Two forests that start at different links of one node have no node in common. -/
theorem Unfolds.disjoint (hwell : tree.WellLinked) {start other : Option NodeId}
    {forest otherForest : Forest} {trail : List NodeId} (h : tree.Unfolds start forest)
    (h' : tree.Unfolds other otherForest) (hstart : tree.Continues trail start)
    (hother : tree.Continues trail other)
    (hne : ∀ id, start = some id → ∀ id', other = some id' → id ≠ id') :
    ∀ id ∈ forest.ids, ∀ id' ∈ otherForest.ids, id ≠ id' := by
  rintro id hmem _ hmem' rfl
  obtain ⟨top, past, htop, htrail, hsuffix⟩ := h.trail_of_mem hstart hmem
  obtain ⟨top', past', htop', htrail', hsuffix'⟩ := h'.trail_of_mem hother hmem'
  obtain rfl := htrail.unique hwell htrail'
  have heq := (List.suffix_of_suffix_length_le hsuffix hsuffix' (by simp)).eq_of_length (by simp)
  obtain ⟨rfl, -⟩ := List.cons.inj heq
  exact hne top htop top htop' rfl

theorem Unfolds.start_not_mem (hwell : tree.WellLinked) {id : NodeId} {start : Option NodeId}
    {forest : Forest} {trail : List NodeId} (h : tree.Unfolds start forest)
    (hid : tree.Trail (id :: trail)) (hstart : tree.Continues (id :: trail) start) :
    id ∉ forest.ids := by
  intro hmem
  obtain ⟨top, past, -, htrail, hsuffix⟩ := h.trail_of_mem hstart hmem
  have hlength := hsuffix.length_le
  simp only [htrail.unique hwell hid, List.length_cons] at hlength
  omega

theorem Unfolds.nodup_ids (hwell : tree.WellLinked) {start : Option NodeId} {forest : Forest}
    {trail : List NodeId} (h : tree.Unfolds start forest) (hstart : tree.Continues trail start) :
    forest.ids.Nodup := by
  induction h generalizing trail with
  | nil => exact List.nodup_nil
  | @cons top node first second third rest hnode hfirst hsecond hthird hrest
      ihFirst ihSecond ihThird ihRest =>
    have hcont : ∀ next ∈ node.children.toList ++ [node.sibling],
        tree.Continues (top :: trail) next := fun _ hnext => hstart.link hnode hnext
    have hcontFirst := hcont node.children.first (by simp [Slots.toList])
    have hcontSecond := hcont node.children.second (by simp [Slots.toList])
    have hcontThird := hcont node.children.third (by simp [Slots.toList])
    have hcontRest := hcont node.sibling (by simp)
    have hlinks := hwell.nodup_node_links hnode
    simp only [Node.links, List.Nodup, List.pairwise_filterMap, Slots.toList, id_eq,
      List.cons_append, List.nil_append, List.pairwise_cons] at hlinks
    obtain ⟨hneFirst, hneSecond, hneThird, -⟩ := hlinks
    -- The four lists start at different links, so each is disjoint from those after it.
    simp only [Forest.ids_cons, List.nodup_cons, List.nodup_append, List.mem_append]
    refine ⟨?_, ⟨⟨⟨ihFirst hcontFirst, ihSecond hcontSecond, ?_⟩, ihThird hcontThird, ?_⟩,
      ihRest hcontRest, ?_⟩⟩
    · have htop := hstart top rfl
      rintro (((hmem | hmem) | hmem) | hmem)
      · exact hfirst.start_not_mem hwell htop hcontFirst hmem
      · exact hsecond.start_not_mem hwell htop hcontSecond hmem
      · exact hthird.start_not_mem hwell htop hcontThird hmem
      · exact hrest.start_not_mem hwell htop hcontRest hmem
    · exact hfirst.disjoint hwell hsecond hcontFirst hcontSecond (hneFirst _ (by simp))
    · rintro id (hmem | hmem)
      · exact hfirst.disjoint hwell hthird hcontFirst hcontThird
          (hneFirst _ (by simp)) id hmem
      · exact hsecond.disjoint hwell hthird hcontSecond hcontThird
          (hneSecond _ (by simp)) id hmem
    · rintro id ((hmem | hmem) | hmem)
      · exact hfirst.disjoint hwell hrest hcontFirst hcontRest
          (hneFirst _ (by simp)) id hmem
      · exact hsecond.disjoint hwell hrest hcontSecond hcontRest
          (hneSecond _ (by simp)) id hmem
      · exact hthird.disjoint hwell hrest hcontThird hcontRest
          (hneThird _ (by simp)) id hmem

theorem WellLinked.nodup_ids (hwell : tree.WellLinked) : tree.forest.ids.Nodup :=
  hwell.unfolds.nodup_ids hwell tree.continues_root

theorem EnteredBefore.asymm (hwell : tree.WellLinked) {id other : NodeId}
    (h : tree.EnteredBefore id other) : ¬ tree.EnteredBefore other id := by
  rintro ⟨otherNode', node', h'⟩
  obtain ⟨node, otherNode, h⟩ := h
  have hids : ∀ {first second : NodeId} {firstNode secondNode : Node},
      [Event.enter first firstNode, .enter second secondNode].Sublist tree.events →
      [first, second].Sublist tree.forest.ids := by
    intro first second firstNode secondNode hevents
    rw [← events_forest] at hevents
    exact (hevents.filterMap Event.entered?).map Prod.fst
  exact not_sublist_swap hwell.nodup_ids (hids h) (hids h')

theorem links_of_child {id next : NodeId} {node : Node} (hnode : tree.node? id = some node)
    {slot : Slot} (hchild : node.child slot = some next) : tree.Links id next :=
  ⟨node, hnode, List.mem_filterMap.mpr ⟨_, List.mem_append_left _ (node.child_mem slot), hchild⟩⟩

theorem links_of_sibling {id next : NodeId} {node : Node} (hnode : tree.node? id = some node)
    (hsibling : node.sibling = some next) : tree.Links id next :=
  ⟨node, hnode, List.mem_filterMap.mpr ⟨_, by simp, hsibling⟩⟩

theorem Reachable.trail {id : NodeId} (h : tree.Reachable id) : ∃ past, tree.Trail (id :: past) := by
  induction h with
  | root hroot => exact ⟨[], .start hroot⟩
  | child slot _ hnode hchild ih =>
    obtain ⟨past, htrail⟩ := ih
    exact ⟨_, .step htrail (links_of_child hnode hchild)⟩
  | sibling _ hnode hsibling ih =>
    obtain ⟨past, htrail⟩ := ih
    exact ⟨_, .step htrail (links_of_sibling hnode hsibling)⟩

theorem Reachable.node_ne_none (hwell : tree.WellLinked) {id : NodeId} (h : tree.Reachable id) :
    tree.node? id ≠ none := by
  obtain ⟨node, hentered⟩ := h.entered hwell.unfolds
  simp [hwell.unfolds.node_of_mem hentered]

theorem Reachable.lt_size (hwell : tree.WellLinked) {id : NodeId}
    (hid : tree.Reachable id) : id < tree.size :=
  hwell.unfolds.lt_size_of_mem ((reachable_iff_mem_ids hwell.unfolds).mp hid)

/-- Where a reachable node links to, a walk with fuel for the whole tree goes through everything. -/
theorem Reachable.continues {id : NodeId} (h : tree.Reachable id) {node : Node}
    (hnode : tree.node? id = some node) {start : Option NodeId}
    (hstart : start ∈ node.children.toList ++ [node.sibling]) :
    ∃ trail, tree.Continues trail start := by
  obtain ⟨past, htrail⟩ := h.trail
  exact ⟨id :: past, htrail.continues.link hnode hstart⟩

theorem Reachable.unfolds (hwell : tree.WellLinked) {id : NodeId} (h : tree.Reachable id) :
    tree.Unfolds (some id) (tree.forestUpTo tree.size (some id)) := by
  obtain ⟨past, htrail⟩ := h.trail
  exact unfolds_forestUpTo hwell htrail.continues (by omega)

namespace Unfolds

variable {start : Option NodeId} {forest : Forest} {trail : List NodeId}

theorem length_ids_le (hwell : tree.WellLinked) (h : tree.Unfolds start forest)
    (hstart : tree.Continues trail start) : forest.ids.length ≤ tree.size := by
  have hsubset : forest.ids ⊆ List.range tree.size :=
    fun _ hmem => List.mem_range.mpr (h.lt_size_of_mem hmem)
  simpa using (h.nodup_ids hwell hstart).length_le_of_subset hsubset

theorem eventsFrom_eq (hwell : tree.WellLinked) (h : tree.Unfolds start forest)
    (hstart : tree.Continues trail start) : tree.eventsFrom start = forest.events := by
  rw [eventsFrom, ← events_forestUpTo, h.forestUpTo_eq (h.length_ids_le hwell hstart)]

theorem chain_eq (hwell : tree.WellLinked) (h : tree.Unfolds start forest)
    (hstart : tree.Continues trail start) : tree.chain start = forest.spine :=
  h.chainUpTo_eq (Nat.le_trans forest.length_spine_le (h.length_ids_le hwell hstart))

end Unfolds

theorem Reachable.eventsFrom_eq (hwell : tree.WellLinked) {id : NodeId} {node : Node}
    (hid : tree.Reachable id) (hnode : tree.node? id = some node) {start : Option NodeId}
    (hstart : start ∈ node.children.toList ++ [node.sibling]) {forest : Forest}
    (hforest : tree.Unfolds start forest) : tree.eventsFrom start = forest.events := by
  obtain ⟨trail, htrail⟩ := hid.continues hnode hstart
  exact hforest.eventsFrom_eq hwell htrail

theorem Reachable.list_eq (hwell : tree.WellLinked) {id : NodeId} {node : Node}
    (hid : tree.Reachable id) (hnode : tree.node? id = some node) {slot : Slot} {forest : Forest}
    (hforest : tree.Unfolds (node.child slot) forest) : tree.list node slot = forest.spine := by
  obtain ⟨trail, htrail⟩ := hid.continues hnode (List.mem_append_left _ (node.child_mem slot))
  exact hforest.chain_eq hwell htrail

end Tree

end ScopeCheck
