import ScopeCheck.Proofs.Tree.Positions

namespace ScopeCheck

open ScopeCheck.Tree (enclose)

namespace Forest.Leads

variable {p : Label → Bool} {around inner : List NodeId} {forest sub : Forest} {before : List Event}

theorem suffix (h : Leads p around forest before inner sub) : around <:+ inner := by
  induction h with
  | here => exact List.suffix_refl _
  | @inside around _ id node _ _ _ _ _ _ _ _ _ _ ih =>
    refine List.IsSuffix.trans ?_ ih
    rw [enclose]
    split
    · exact List.suffix_cons id around
    · exact List.suffix_refl _
  | rest _ ih => exact ih

/-- What is around the end of a way but not around its start stands on the way, which goes on in one
of its child slots. -/
theorem split {outer : NodeId} {beyond : List NodeId} (h : Leads p around forest before inner sub)
    (houter : outer :: beyond <:+ inner) :
    outer :: beyond <:+ around ∨ ∃ earlier node first second third rest past kid later,
      Leads p around forest earlier beyond (.cons outer node first second third rest) ∧
        p node.label ∧ Slotted first second third past kid ∧
        Leads p (outer :: beyond) kid later inner sub ∧
        before = earlier ++ .enter outer node :: (past ++ later) := by
  induction h with
  | here => exact .inl houter
  | @inside around inner id node first second third rest kid sub past before hslot h ih =>
    rcases ih houter with hsuffix | ⟨earlier, outerNode, _, _, _, _, _, _, _, hleads, houter, hkid,
      hlater, rfl⟩
    · -- The way below does not have it, so it is this node or it was around before.
      by_cases hnode : p node.label
      · rw [enclose, if_pos hnode] at hsuffix h
        rcases List.suffix_cons_iff.mp hsuffix with heq | hsuffix
        · obtain ⟨rfl, rfl⟩ := List.cons.inj heq
          exact .inr ⟨_, _, _, _, _, _, _, _, _, .here, hnode, hslot, h, rfl⟩
        · exact .inl hsuffix
      · rw [enclose, if_neg hnode] at hsuffix
        exact .inl hsuffix
    · exact .inr ⟨_, _, _, _, _, _, _, _, _, .inside hslot hleads, houter, hkid, hlater, by simp⟩
  | rest h ih =>
    rcases ih houter with hsuffix | ⟨_, _, _, _, _, _, _, _, _, hleads, houter, hkid, hlater, rfl⟩
    · exact .inl hsuffix
    · exact .inr ⟨_, _, _, _, _, _, _, _, _, .rest hleads, houter, hkid, hlater, by simp⟩

theorem exists_events_eq {id : NodeId} {node : Node} {first second third rest : Forest}
    (h : Leads p around forest before inner (.cons id node first second third rest)) :
    ∃ after, forest.events = before ++ .enter id node :: after := by
  obtain ⟨after, hevents⟩ := h.events_eq
  exact ⟨_, by rw [hevents, events_cons, List.append_assoc, List.cons_append]⟩

theorem mem_enter {id : NodeId} {node : Node} {first second third rest : Forest}
    (h : Leads p around forest before inner (.cons id node first second third rest)) :
    .enter id node ∈ forest.events := by
  obtain ⟨after, hevents⟩ := h.exists_events_eq
  simp [hevents]

theorem prefix_events (h : Leads p around forest before inner sub) : before <+: forest.events := by
  obtain ⟨after, hevents⟩ := h.events_eq
  exact ⟨sub.events ++ after, by simp [hevents]⟩

end Forest.Leads

theorem Forest.Slotted.append_prefix_events {first second third kid : Forest}
    {past before : List Event} (h : Slotted first second third past kid)
    (hbefore : before <+: kid.events) :
    past ++ before <+: first.events ++ second.events ++ third.events := by
  obtain ⟨after, hevents⟩ := h.events_eq
  rw [hevents, List.append_assoc]
  exact (List.prefix_append_right_inj past).mpr (hbefore.trans (List.prefix_append _ _))

namespace Tree

variable {tree : Tree} {p : Label → Bool} {id outer : NodeId} {node outerNode : Node}
  {before after : List Event}

/-- A node that satisfies `p` has the other one in its child slots, or further down. -/
def Encloses (tree : Tree) (p : Label → Bool) (outer id : NodeId) : Prop :=
  ∃ around, tree.Inside p around id ∧ outer ∈ around

theorem EnteredBefore.irrefl (hwell : tree.WellLinked) : ¬ tree.EnteredBefore id id :=
  fun h => h.asymm hwell h

theorem not_mem_enter (hwell : tree.WellLinked)
    (hevents : tree.events = before ++ .enter id node :: after) (other : Node) :
    .enter id other ∉ before ∧ .enter id other ∉ after :=
  ⟨fun hmem => EnteredBefore.irrefl hwell (enteredBefore_of_mem hevents hmem),
    fun hmem => EnteredBefore.irrefl hwell (enteredBefore_of_mem_after hevents hmem)⟩

theorem enter_order {other : NodeId} {otherNode : Node} {before' after' : List Event}
    (hevents : tree.events = before ++ .enter id node :: after)
    (hother : tree.events = before' ++ .enter other otherNode :: after') :
    (before = before' ∧ id = other ∧ node = otherNode) ∨ before ++ [.enter id node] <+: before' ∨
      before' ++ [.enter other otherNode] <+: before := by
  have hwalk : before ++ [.enter id node] <+: tree.events := by simp [hevents]
  have hwalk' : before' ++ [.enter other otherNode] <+: tree.events := by simp [hother]
  rcases List.prefix_or_prefix_of_prefix hwalk hwalk' with hfirst | hlast
  · rcases List.prefix_concat_iff.mp hfirst with heq | hfirst
    · obtain ⟨rfl, hevent⟩ := List.append_inj' heq rfl
      cases hevent
      exact .inl ⟨rfl, rfl, rfl⟩
    · exact .inr (.inl hfirst)
  · rcases List.prefix_concat_iff.mp hlast with heq | hlast
    · obtain ⟨rfl, hevent⟩ := List.append_inj' heq rfl
      cases hevent
      exact .inl ⟨rfl, rfl, rfl⟩
    · exact .inr (.inr hlast)

theorem enter_unique (hwell : tree.WellLinked) {other : Node} {before' after' : List Event}
    (hevents : tree.events = before ++ .enter id node :: after)
    (hevents' : tree.events = before' ++ .enter id other :: after') :
    before = before' ∧ node = other := by
  rcases enter_order hevents hevents' with ⟨rfl, -, rfl⟩ | hfirst | hlast
  · exact ⟨rfl, rfl⟩
  · exact absurd (hfirst.subset (by simp)) (not_mem_enter hwell hevents' node).1
  · exact absurd (hlast.subset (by simp)) (not_mem_enter hwell hevents other).1

/-- A walk comes to a node the way that its links lead. -/
theorem Inside.exists_walk (hwell : tree.WellLinked) {around : List NodeId}
    (h : tree.Inside p around id) (hnode : tree.node? id = some node) :
    ∃ before after first second third rest,
      tree.forest.Leads p [] before around (.cons id node first second third rest) ∧
        tree.events = before ++ .enter id node :: after := by
  obtain ⟨before, found, first, second, third, rest, hleads⟩ := h.leads hwell.unfolds
  obtain rfl : found = node := by
    obtain ⟨_, hsub⟩ := hleads.unfolds hwell.unfolds
    cases hsub with
    | cons hfound => exact Option.some.inj (hfound.symm.trans hnode)
  obtain ⟨after, hevents⟩ := hleads.exists_events_eq
  exact ⟨before, after, first, second, third, rest, hleads, events_forest tree ▸ hevents⟩

/-- A node that is entered after another one is enclosed by it, or it is entered after that one is
left. -/
theorem encloses_or_left (hwell : tree.WellLinked) {earlier : List Event} {beyond : List NodeId}
    {first second third rest : Forest}
    (hleads : tree.forest.Leads p [] earlier beyond (.cons outer outerNode first second third rest))
    (houter : p outerNode.label) (h : before ++ [.enter id node] <+: tree.events)
    (hearlier : earlier ++ [.enter outer outerNode] <+: before) :
    tree.Encloses p outer id ∨ ∃ later, before = earlier ++ .enter outer outerNode ::
      (first.events ++ second.events ++ third.events ++ .leave outer outerNode :: later) := by
  obtain ⟨after, hevents⟩ := hleads.events_eq
  have hlength : earlier.length + 1 ≤ before.length := by simpa using hearlier.length_le
  have hsplit : tree.events = (earlier ++ .enter outer outerNode ::
      (first.events ++ second.events ++ third.events)) ++
        .leave outer outerNode :: (rest.events ++ after) := by
    rw [← events_forest, hevents, Forest.events_cons]
    simp
  rw [hsplit] at h
  -- The second node is entered before `outer` is left, or after that.
  rcases concat_prefix_append h with hinside | ⟨between, rfl, hleft⟩
  · rcases concat_prefix_append hinside with hshort | ⟨between, rfl, hbetween⟩
    · have := hshort.length_le
      simp only [List.length_append, List.length_singleton] at this
      omega
    · have hwalk : between ++ [.enter id node] <+:
          (Forest.cons outer outerNode first second third .nil).events := by
        refine hbetween.trans ⟨[.leave outer outerNode], ?_⟩
        simp [Forest.events_cons]
      obtain ⟨inner, _, _, _, _, hid⟩ := Forest.leads_of_enter p beyond hwalk
      cases hid with
      | here =>
        -- It is entered after `outer`, so it is another node.
        rw [List.append_nil] at hlength
        omega
      | rest hnil => cases hnil
      | inside hslot hid =>
        have hsuffix := hid.suffix
        rw [enclose, if_pos houter] at hsuffix
        refine .inl ⟨inner, ?_, hsuffix.subset List.mem_cons_self⟩
        exact inside_of_leads hwell.unfolds (fun top htop => .root htop)
          (hleads.trans (.inside hslot hid))
  · cases between with
    | nil =>
      obtain ⟨heq, -⟩ := List.cons_prefix_cons.mp hleft
      cases heq
    | cons head later =>
      obtain ⟨rfl, -⟩ := List.cons_prefix_cons.mp hleft
      exact .inr ⟨later, by simp⟩

end Tree

end ScopeCheck
