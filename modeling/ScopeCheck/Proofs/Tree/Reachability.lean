import ScopeCheck.Proofs.Tree.Forest

namespace ScopeCheck

def Label.isFunction : Label → Bool
  | .declaration decl => decl.kind = .function
  | _ => false

theorem Label.exists_declaration {label : Label} (h : label.isFunction) :
    ∃ decl, label = .declaration decl ∧ decl.kind = .function := by
  cases label with
  | statement stmt => cases h
  | expression expr => cases h
  | declaration decl => exact ⟨decl, rfl, by simpa [isFunction] using h⟩

theorem Label.eq_block {label : Label} (h : label.isBlock) : label = .statement .block := by
  simpa [isBlock] using h

namespace Tree

/-- The root leads to a node through child and sibling links. -/
inductive Reachable (tree : Tree) : NodeId → Prop
  | root {id : NodeId} (hroot : tree.root = some id) : Reachable tree id
  | child {id next : NodeId} {node : Node} (slot : Slot) (hid : Reachable tree id)
      (hnode : tree.node? id = some node) (hchild : node.child slot = some next) :
      Reachable tree next
  | sibling {id next : NodeId} {node : Node} (hid : Reachable tree id)
      (hnode : tree.node? id = some node) (hsibling : node.sibling = some next) :
      Reachable tree next

/-- Puts a node in front of those around it, if it satisfies the condition. -/
def enclose (p : Label → Bool) (id : NodeId) (node : Node) (around : List NodeId) : List NodeId :=
  if p node.label then id :: around else around

/-- The nodes `around` a node are those that satisfy `p` and have it in one of their child slots,
or further down, the innermost first. -/
inductive Inside (tree : Tree) (p : Label → Bool) : List NodeId → NodeId → Prop
  | root {id : NodeId} (hroot : tree.root = some id) : Inside tree p [] id
  | child {around : List NodeId} {id next : NodeId} {node : Node} (slot : Slot)
      (hid : Inside tree p around id) (hnode : tree.node? id = some node)
      (hchild : node.child slot = some next) : Inside tree p (enclose p id node around) next
  | sibling {around : List NodeId} {id next : NodeId} {node : Node}
      (hid : Inside tree p around id) (hnode : tree.node? id = some node)
      (hsibling : node.sibling = some next) : Inside tree p around next

/-- A walk enters the one node before it enters the other. -/
def EnteredBefore (tree : Tree) (id other : NodeId) : Prop :=
  ∃ node otherNode, [Event.enter id node, Event.enter other otherNode].Sublist tree.events

section EnteredBefore

variable {tree : Tree} {id : NodeId} {node : Node} {before after : List Event}

theorem enteredBefore_of_mem (hevents : tree.events = before ++ .enter id node :: after)
    {other : NodeId} {otherNode : Node} (hmem : .enter other otherNode ∈ before) :
    tree.EnteredBefore other id := by
  refine ⟨otherNode, node, ?_⟩
  rw [hevents]
  exact (List.singleton_sublist.mpr hmem).append (List.singleton_sublist.mpr List.mem_cons_self)

theorem enteredBefore_of_mem_after (hevents : tree.events = before ++ .enter id node :: after)
    {other : NodeId} {otherNode : Node} (hmem : .enter other otherNode ∈ after) :
    tree.EnteredBefore id other := by
  refine ⟨node, otherNode, ?_⟩
  rw [hevents]
  exact ((List.singleton_sublist.mpr hmem).cons_cons _).trans (List.sublist_append_right _ _)

end EnteredBefore

theorem reachable_iff_exists_inside {tree : Tree} (p : Label → Bool) {id : NodeId} :
    tree.Reachable id ↔ ∃ around, tree.Inside p around id := by
  constructor
  · intro h
    induction h with
    | root hroot => exact ⟨_, .root hroot⟩
    | child slot _ hnode hchild ih =>
      obtain ⟨around, hid⟩ := ih
      exact ⟨_, .child slot hid hnode hchild⟩
    | sibling _ hnode hsibling ih =>
      obtain ⟨around, hid⟩ := ih
      exact ⟨_, .sibling hid hnode hsibling⟩
  · rintro ⟨around, h⟩
    induction h with
    | root hroot => exact .root hroot
    | child slot _ hnode hchild ih => exact .child slot ih hnode hchild
    | sibling _ hnode hsibling ih => exact .sibling ih hnode hsibling

end Tree

open ScopeCheck.Tree (enclose)

namespace Forest

/-- One of the lists in the child slots of a node, and what a walk meets in the slots before. -/
inductive Slotted (first second third : Forest) : List Event → Forest → Prop
  | first : Slotted first second third [] first
  | second : Slotted first second third first.events second
  | third : Slotted first second third (first.events ++ second.events) third

namespace Slotted

variable {first second third kid : Forest} {past : List Event}

theorem events_eq (h : Slotted first second third past kid) :
    ∃ after, first.events ++ second.events ++ third.events = past ++ kid.events ++ after := by
  cases h with
  | first => exact ⟨second.events ++ third.events, by simp⟩
  | second => exact ⟨third.events, by simp⟩
  | third => exact ⟨[], by simp⟩

theorem unfolds (h : Slotted first second third past kid) {tree : Tree} {node : Node}
    (hfirst : tree.Unfolds node.children.first first)
    (hsecond : tree.Unfolds node.children.second second)
    (hthird : tree.Unfolds node.children.third third) :
    ∃ slot, tree.Unfolds (node.child slot) kid := by
  cases h with
  | first => exact ⟨0, hfirst⟩
  | second => exact ⟨1, hsecond⟩
  | third => exact ⟨2, hthird⟩

theorem exists_unfolds {tree : Tree} {node : Node} (hfirst : tree.Unfolds node.children.first first)
    (hsecond : tree.Unfolds node.children.second second)
    (hthird : tree.Unfolds node.children.third third) (slot : Slot) :
    ∃ past kid, Slotted first second third past kid ∧ tree.Unfolds (node.child slot) kid :=
  match slot with
  | 0 => ⟨_, _, .first, hfirst⟩
  | 1 => ⟨_, _, .second, hsecond⟩
  | 2 => ⟨_, _, .third, hthird⟩

end Slotted

/-- A walk of `forest`, which stands inside of `around`, meets `before` and comes to `sub`, which
stands inside of `inner`. -/
inductive Leads (p : Label → Bool) :
    List NodeId → Forest → List Event → List NodeId → Forest → Prop
  | here {around : List NodeId} {forest : Forest} : Leads p around forest [] around forest
  | inside {around inner : List NodeId} {id : NodeId} {node : Node}
      {first second third rest kid sub : Forest} {past before : List Event}
      (hslot : Slotted first second third past kid)
      (h : Leads p (enclose p id node around) kid before inner sub) :
      Leads p around (.cons id node first second third rest)
        (.enter id node :: (past ++ before)) inner sub
  | rest {around inner : List NodeId} {id : NodeId} {node : Node}
      {first second third rest sub : Forest} {before : List Event}
      (h : Leads p around rest before inner sub) :
      Leads p around (.cons id node first second third rest)
        (.enter id node :: (first.events ++ second.events ++ third.events
          ++ .leave id node :: before)) inner sub

namespace Leads

variable {p : Label → Bool} {around inner : List NodeId} {forest sub : Forest}
  {before : List Event}

theorem trans {inmost : List NodeId} {last : Forest} {after : List Event}
    (h : Leads p around forest before inner sub) (h' : Leads p inner sub after inmost last) :
    Leads p around forest (before ++ after) inmost last := by
  induction h with
  | here => exact h'
  | inside hslot _ ih => simpa using Leads.inside hslot (ih h')
  | rest _ ih => simpa using Leads.rest (ih h')

theorem events_eq (h : Leads p around forest before inner sub) :
    ∃ after, forest.events = before ++ sub.events ++ after := by
  induction h with
  | here => exact ⟨[], by simp⟩
  | @inside _ _ id node _ _ _ rest _ _ _ _ hslot _ ih =>
    obtain ⟨after, ih⟩ := ih
    obtain ⟨others, hkids⟩ := hslot.events_eq
    refine ⟨after ++ others ++ .leave id node :: rest.events, ?_⟩
    rw [events_cons, hkids, ih]
    simp
  | rest _ ih =>
    obtain ⟨after, ih⟩ := ih
    exact ⟨after, by simp [events_cons, ih]⟩

theorem unfolds {tree : Tree} {start : Option NodeId} (hforest : tree.Unfolds start forest)
    (h : Leads p around forest before inner sub) : ∃ start, tree.Unfolds start sub := by
  induction h generalizing start with
  | here => exact ⟨start, hforest⟩
  | inside hslot _ ih =>
    cases hforest with
    | cons _ hfirst hsecond hthird _ =>
      obtain ⟨_, hkid⟩ := hslot.unfolds hfirst hsecond hthird
      exact ih hkid
  | rest _ ih =>
    cases hforest with
    | cons _ _ _ _ hrest => exact ih hrest

end Leads

theorem exists_leads (p : Label → Bool) (around : List NodeId) {forest : Forest} {id : NodeId}
    {node : Node} (h : (id, node) ∈ forest.entered) :
    ∃ before inner first second third rest,
      Leads p around forest before inner (.cons id node first second third rest) := by
  induction forest generalizing around with
  | nil => cases h
  | cons top topNode first second third rest ihFirst ihSecond ihThird ihRest =>
    simp only [entered_cons, List.mem_cons, List.mem_append] at h
    rcases h with heq | ((h | h) | h) | h
    · cases heq
      exact ⟨_, _, _, _, _, _, .here⟩
    · obtain ⟨_, _, _, _, _, _, ih⟩ := ihFirst (enclose p top topNode around) h
      exact ⟨_, _, _, _, _, _, .inside .first ih⟩
    · obtain ⟨_, _, _, _, _, _, ih⟩ := ihSecond (enclose p top topNode around) h
      exact ⟨_, _, _, _, _, _, .inside .second ih⟩
    · obtain ⟨_, _, _, _, _, _, ih⟩ := ihThird (enclose p top topNode around) h
      exact ⟨_, _, _, _, _, _, .inside .third ih⟩
    · obtain ⟨_, _, _, _, _, _, ih⟩ := ihRest around h
      exact ⟨_, _, _, _, _, _, .rest ih⟩

end Forest

namespace Tree

variable {tree : Tree} {forest : Forest} {p : Label → Bool}

theorem Unfolds.eq_cons {start : Option NodeId} {id : NodeId} (h : tree.Unfolds start forest)
    (hstart : start = some id) :
    ∃ node first second third rest, tree.node? id = some node ∧
      forest = .cons id node first second third rest := by
  subst hstart
  cases h with
  | cons hnode => exact ⟨_, _, _, _, _, hnode, rfl⟩

theorem Inside.leads (hforest : tree.Unfolds tree.root forest) {around : List NodeId}
    {id : NodeId} (h : tree.Inside p around id) :
    ∃ before node first second third rest,
      forest.Leads p [] before around (.cons id node first second third rest) := by
  induction h with
  | root hroot =>
    obtain ⟨node, first, second, third, rest, -, rfl⟩ := hforest.eq_cons hroot
    exact ⟨_, _, _, _, _, _, .here⟩
  | child slot _ hnode hchild ih =>
    obtain ⟨before, _, first, second, third, rest, hleads⟩ := ih
    obtain ⟨_, hsub⟩ := hleads.unfolds hforest
    cases hsub with
    | cons hnode' hfirst hsecond hthird _ =>
      obtain rfl : _ = _ := Option.some.inj (hnode.symm.trans hnode')
      -- The list in the slot starts with the child, so the way goes on into it.
      obtain ⟨past, kid, hslot, hkid⟩ := Forest.Slotted.exists_unfolds hfirst hsecond hthird slot
      obtain ⟨_, _, _, _, _, -, rfl⟩ := hkid.eq_cons hchild
      exact ⟨_, _, _, _, _, _, hleads.trans (.inside hslot .here)⟩
  | sibling _ hnode hsibling ih =>
    obtain ⟨before, _, first, second, third, rest, hleads⟩ := ih
    obtain ⟨_, hsub⟩ := hleads.unfolds hforest
    cases hsub with
    | cons hnode' _ _ _ hrest =>
      obtain rfl : _ = _ := Option.some.inj (hnode.symm.trans hnode')
      obtain ⟨_, _, _, _, _, -, rfl⟩ := hrest.eq_cons hsibling
      exact ⟨_, _, _, _, _, _, hleads.trans (.rest .here)⟩

/-- Wherever a walk comes to is linked from the root that way. -/
theorem inside_of_leads {start : Option NodeId} {around inner : List NodeId}
    {before : List Event} {id : NodeId} {node : Node} {first second third rest : Forest}
    (hforest : tree.Unfolds start forest) (hstart : ∀ top, start = some top → tree.Inside p around top)
    (h : forest.Leads p around before inner (.cons id node first second third rest)) :
    tree.Inside p inner id := by
  generalize hsub : Forest.cons id node first second third rest = sub at h
  induction h generalizing start with
  | here =>
    subst hsub
    cases hforest with
    | cons => exact hstart id rfl
  | inside hslot _ ih =>
    cases hforest with
    | cons hnode hfirst hsecond hthird _ =>
      obtain ⟨slot, hkid⟩ := hslot.unfolds hfirst hsecond hthird
      exact ih hkid (fun top htop => .child slot (hstart _ rfl) hnode htop) hsub
  | rest _ ih =>
    cases hforest with
    | cons hnode _ _ _ hrest =>
      exact ih hrest (fun top htop => .sibling (hstart _ rfl) hnode htop) hsub

theorem Reachable.entered (hforest : tree.Unfolds tree.root forest) {id : NodeId}
    (h : tree.Reachable id) : ∃ node, (id, node) ∈ forest.entered := by
  obtain ⟨around, hid⟩ := (reachable_iff_exists_inside Label.isBlock).mp h
  obtain ⟨before, node, _, _, _, _, hleads⟩ := hid.leads hforest
  obtain ⟨after, hevents⟩ := hleads.events_eq
  exact ⟨node, by simp [Forest.mem_entered, hevents, Forest.events_cons]⟩

theorem reachable_of_entered (hforest : tree.Unfolds tree.root forest) {id : NodeId} {node : Node}
    (h : (id, node) ∈ forest.entered) : tree.Reachable id := by
  obtain ⟨_, around, _, _, _, _, hleads⟩ := Forest.exists_leads Label.isBlock [] h
  have hid := inside_of_leads hforest (fun top htop => .root htop) hleads
  exact (reachable_iff_exists_inside _).mpr ⟨around, hid⟩

/-- A walk enters the nodes that the root leads to, and no others. -/
theorem reachable_iff_entered (hforest : tree.Unfolds tree.root forest) {id : NodeId}
    {node : Node} :
    (tree.Reachable id ∧ tree.node? id = some node) ↔ (id, node) ∈ forest.entered := by
  constructor
  · rintro ⟨hid, hnode⟩
    obtain ⟨_, hmem⟩ := hid.entered hforest
    rw [hforest.node_of_mem hmem] at hnode
    cases hnode
    exact hmem
  · intro h
    exact ⟨reachable_of_entered hforest h, hforest.node_of_mem h⟩

theorem reachable_iff_mem_ids (hforest : tree.Unfolds tree.root forest) {id : NodeId} :
    tree.Reachable id ↔ id ∈ forest.ids := by
  constructor
  · intro h
    obtain ⟨_, hmem⟩ := h.entered hforest
    exact Forest.id_mem_ids hmem
  · intro h
    obtain ⟨⟨_, node⟩, hmem, rfl⟩ := List.mem_map.mp h
    exact reachable_of_entered hforest hmem

end Tree

end ScopeCheck
