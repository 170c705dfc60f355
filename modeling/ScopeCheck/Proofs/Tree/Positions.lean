import ScopeCheck.Proofs.Tree.WellLinked

namespace ScopeCheck

open ScopeCheck.Tree (enclose)

namespace Forest

variable (p : Label → Bool) (around : List NodeId) {forest : Forest} {before : List Event}
  {id : NodeId} {node : Node}

theorem leads_of_enter (h : before ++ [.enter id node] <+: forest.events) :
    ∃ inner first second third rest,
      Leads p around forest before inner (.cons id node first second third rest) := by
  induction forest generalizing around before with
  | nil => simp at h
  | cons top topNode first second third rest ihFirst ihSecond ihThird ihRest =>
    rw [events_cons] at h
    cases before with
    | nil =>
      obtain ⟨heq, -⟩ := List.cons_prefix_cons.mp h
      cases heq
      exact ⟨_, _, _, _, _, .here⟩
    | cons head before =>
      obtain ⟨rfl, htail⟩ := List.cons_prefix_cons.mp h
      -- The node is in one of the child slots, or in the rest of the list.
      rcases concat_prefix_append htail with hkids | ⟨before, rfl, hlast⟩
      · rcases concat_prefix_append hkids with hkids | ⟨before, rfl, hthird⟩
        · rcases concat_prefix_append hkids with hfirst | ⟨before, rfl, hsecond⟩
          · obtain ⟨_, _, _, _, _, hleads⟩ := ihFirst (enclose p top topNode around) hfirst
            exact ⟨_, _, _, _, _, .inside .first hleads⟩
          · obtain ⟨_, _, _, _, _, hleads⟩ := ihSecond (enclose p top topNode around) hsecond
            exact ⟨_, _, _, _, _, .inside .second hleads⟩
        · obtain ⟨_, _, _, _, _, hleads⟩ := ihThird (enclose p top topNode around) hthird
          exact ⟨_, _, _, _, _, by simpa using Leads.inside .third hleads⟩
      · cases before with
        | nil => simp at hlast
        | cons head before =>
          obtain ⟨rfl, hrest⟩ := List.cons_prefix_cons.mp hlast
          obtain ⟨_, _, _, _, _, hleads⟩ := ihRest around hrest
          exact ⟨_, _, _, _, _, .rest hleads⟩

theorem leads_of_leave (h : before ++ [.leave id node] <+: forest.events) :
    ∃ earlier inner first second third rest,
      Leads p around forest earlier inner (.cons id node first second third rest) ∧
        before = earlier ++ .enter id node :: (first.events ++ second.events ++ third.events) := by
  induction forest generalizing around before with
  | nil => simp at h
  | cons top topNode first second third rest ihFirst ihSecond ihThird ihRest =>
    rw [events_cons] at h
    cases before with
    | nil =>
      obtain ⟨heq, -⟩ := List.cons_prefix_cons.mp h
      cases heq
    | cons head before =>
      obtain ⟨rfl, htail⟩ := List.cons_prefix_cons.mp h
      rcases concat_prefix_append htail with hkids | ⟨before, rfl, hlast⟩
      · rcases concat_prefix_append hkids with hkids | ⟨before, rfl, hthird⟩
        · rcases concat_prefix_append hkids with hfirst | ⟨before, rfl, hsecond⟩
          · obtain ⟨_, _, _, _, _, _, hleads, rfl⟩ := ihFirst (enclose p top topNode around) hfirst
            exact ⟨_, _, _, _, _, _, .inside .first hleads, rfl⟩
          · obtain ⟨_, _, _, _, _, _, hleads, rfl⟩ := ihSecond (enclose p top topNode around) hsecond
            exact ⟨_, _, _, _, _, _, .inside .second hleads, by simp⟩
        · obtain ⟨_, _, _, _, _, _, hleads, rfl⟩ := ihThird (enclose p top topNode around) hthird
          exact ⟨_, _, _, _, _, _, .inside .third hleads, by simp⟩
      · cases before with
        | nil =>
          obtain ⟨heq, -⟩ := List.cons_prefix_cons.mp hlast
          cases heq
          exact ⟨_, _, _, _, _, _, .here, by simp⟩
        | cons head before =>
          obtain ⟨rfl, hrest⟩ := List.cons_prefix_cons.mp hlast
          obtain ⟨_, _, _, _, _, _, hleads, rfl⟩ := ihRest around hrest
          exact ⟨_, _, _, _, _, _, .rest hleads, by simp⟩

end Forest

def leftIds (events : List Event) : List NodeId := (events.filterMap Event.left?).map Prod.fst

@[simp]
theorem leftIds_nil : leftIds [] = [] := rfl

@[simp]
theorem leftIds_append (events later : List Event) :
    leftIds (events ++ later) = leftIds events ++ leftIds later := by
  simp [leftIds]

@[simp]
theorem leftIds_enter (id : NodeId) (node : Node) (events : List Event) :
    leftIds (.enter id node :: events) = leftIds events := rfl

@[simp]
theorem leftIds_leave (id : NodeId) (node : Node) (events : List Event) :
    leftIds (.leave id node :: events) = id :: leftIds events := rfl

theorem Forest.mem_leftIds {forest : Forest} {id : NodeId} :
    id ∈ leftIds forest.events ↔ id ∈ forest.ids :=
  (forest.left_perm_entered.map Prod.fst).mem_iff

theorem Forest.not_mem_leftIds {forest : Forest} (hnodup : forest.ids.Nodup) {before : List Event}
    {id : NodeId} {node : Node} (h : before ++ [.leave id node] <+: forest.events) :
    id ∉ leftIds before := by
  obtain ⟨after, h⟩ := h
  have hleft : (leftIds forest.events).Nodup :=
    (forest.left_perm_entered.map Prod.fst).nodup_iff.mpr hnodup
  rw [← h] at hleft
  simp only [leftIds_append, leftIds_leave, leftIds_nil, List.nodup_append] at hleft
  intro hmem
  exact hleft.1.2.2 id hmem id (by simp) rfl

namespace Tree

variable {tree : Tree} {before : List Event} {id : NodeId} {node : Node}

/-- When a node is left, all that is below it has just been walked. -/
theorem below_of_leave (hwell : tree.WellLinked) (h : before ++ [.leave id node] <+: tree.events) :
    tree.Reachable id ∧ tree.node? id = some node ∧ ∃ earlier first second third,
      before = earlier ++ .enter id node :: (first.events ++ second.events ++ third.events) ∧
        tree.Unfolds node.children.first first ∧ tree.Unfolds node.children.second second ∧
        tree.Unfolds node.children.third third := by
  rw [← events_forest] at h
  obtain ⟨earlier, inner, first, second, third, rest, hleads, hbefore⟩ :=
    Forest.leads_of_leave Label.isBlock [] h
  have hid := inside_of_leads hwell.unfolds (fun top htop => .root htop) hleads
  obtain ⟨_, hsub⟩ := hleads.unfolds hwell.unfolds
  cases hsub with
  | cons hnode hfirst hsecond hthird _ =>
    exact ⟨(reachable_iff_exists_inside _).mpr ⟨_, hid⟩, hnode, earlier, first, second, third,
      hbefore, hfirst, hsecond, hthird⟩

/-- What is below a child slot is left before the node is. -/
theorem slot_leftIds (hwell : tree.WellLinked) (h : before ++ [.leave id node] <+: tree.events)
    (slot : Slot) :
    ∃ forest, tree.Unfolds (node.child slot) forest ∧ ∀ other ∈ forest.ids, other ∈ leftIds before := by
  obtain ⟨-, -, earlier, first, second, third, rfl, hfirst, hsecond, hthird⟩ :=
    below_of_leave hwell h
  simp only [leftIds_append, leftIds_enter, List.mem_append, Forest.mem_leftIds]
  match slot with
  | 0 => exact ⟨first, hfirst, fun _ hmem => .inr (.inl (.inl hmem))⟩
  | 1 => exact ⟨second, hsecond, fun _ hmem => .inr (.inl (.inr hmem))⟩
  | 2 => exact ⟨third, hthird, fun _ hmem => .inr (.inr hmem)⟩

theorem child_mem_leftIds (hwell : tree.WellLinked)
    (h : before ++ [.leave id node] <+: tree.events) {slot : Slot} {child : NodeId}
    (hchild : node.child slot = some child) : child ∈ leftIds before := by
  obtain ⟨forest, hforest, hleft⟩ := slot_leftIds hwell h slot
  obtain ⟨_, _, _, _, _, -, rfl⟩ := hforest.eq_cons hchild
  exact hleft child (by simp)

theorem list_mem_leftIds (hwell : tree.WellLinked)
    (h : before ++ [.leave id node] <+: tree.events) {slot : Slot} {item : NodeId × Node}
    (hitem : item ∈ tree.list node slot) : item.1 ∈ leftIds before := by
  obtain ⟨hid, hnode, -⟩ := below_of_leave hwell h
  obtain ⟨forest, hforest, hleft⟩ := slot_leftIds hwell h slot
  rw [hid.list_eq hwell hnode hforest] at hitem
  exact hleft _ (Forest.id_mem_ids (forest.spine_subset hitem))

theorem mem_leftIds_events (hwell : tree.WellLinked) :
    id ∈ leftIds tree.events ↔ tree.Reachable id := by
  rw [← events_forest, Forest.mem_leftIds, reachable_iff_mem_ids hwell.unfolds]

end Tree

end ScopeCheck
