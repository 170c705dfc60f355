import ScopeCheck.Proofs.Tree.Positions

namespace ScopeCheck

namespace Label

/-- The label with another constant or another size in it, where it has one. -/
def recast (value : Int64 → Int64) (size : Option UInt32 → Option UInt32) : Label → Label
  | expression (.constant old) => expression (.constant (value old))
  | declaration decl => declaration { decl with size := size decl.size }
  | label => label

variable (value : Int64 → Int64) (size : Option UInt32 → Option UInt32) (label : Label)

theorem isFunction_recast : (label.recast value size).isFunction = label.isFunction := by
  cases label with
  | statement stmt => rfl
  | expression expr => cases expr <;> rfl
  | declaration decl => rfl

theorem isBlock_recast : (label.recast value size).isBlock = label.isBlock := by
  cases label with
  | statement stmt => rfl
  | expression expr => cases expr <;> rfl
  | declaration decl => rfl

end Label

/-- How a tree is cast anew: where its nodes are, and what replaces the data in them that an analysis
does not look at. -/
structure Recast where
  place : NodeId → NodeId
  line : UInt32 → UInt32
  value : NodeId → Int64 → Int64
  size : NodeId → Option UInt32 → Option UInt32
  injective : Function.Injective place

namespace Recast

variable (cast : Recast)

def onNode (id : NodeId) (node : Node) : Node where
  label := node.label.recast (cast.value id) (cast.size id)
  line := cast.line node.line
  children := ⟨node.children.first.map cast.place, node.children.second.map cast.place,
    node.children.third.map cast.place⟩
  sibling := node.sibling.map cast.place

def onItem (item : NodeId × Node) : NodeId × Node := (cast.place item.1, cast.onNode item.1 item.2)

def onEvent : Event → Event
  | .enter id node => .enter (cast.place id) (cast.onNode id node)
  | .leave id node => .leave (cast.place id) (cast.onNode id node)

def onForest : Forest → Forest
  | .nil => .nil
  | .cons id node first second third rest =>
    .cons (cast.place id) (cast.onNode id node) (onForest first) (onForest second) (onForest third)
      (onForest rest)

/-- The nodes of `tree` are nodes of `other`, cast anew. There may be more nodes in `other`. -/
structure Carries (tree other : Tree) : Prop where
  root : other.root = tree.root.map cast.place
  node : ∀ id node, tree.node? id = some node →
    other.node? (cast.place id) = some (cast.onNode id node)

variable {cast}

theorem child_onNode (id : NodeId) (node : Node) (slot : Slot) :
    (cast.onNode id node).child slot = (node.child slot).map cast.place :=
  match slot with
  | 0 | 1 | 2 => rfl

theorem events_onForest (forest : Forest) :
    (cast.onForest forest).events = forest.events.map cast.onEvent := by
  induction forest with
  | nil => rfl
  | cons id node first second third rest ihFirst ihSecond ihThird ihRest =>
    simp [onForest, Forest.events_cons, onEvent, ihFirst, ihSecond, ihThird, ihRest]

theorem spine_onForest (forest : Forest) :
    (cast.onForest forest).spine = forest.spine.map cast.onItem := by
  induction forest with
  | nil => rfl
  | cons id node first second third rest _ _ _ ihRest =>
    simp [onForest, Forest.spine, onItem, ihRest]

namespace Carries

variable {tree other : Tree} (h : cast.Carries tree other)

include h

theorem unfolds {start : Option NodeId} {forest : Forest} (hforest : tree.Unfolds start forest) :
    other.Unfolds (start.map cast.place) (cast.onForest forest) := by
  induction hforest with
  | nil => exact .nil
  | cons hnode _ _ _ _ ihFirst ihSecond ihThird ihRest =>
    exact .cons (h.node _ _ hnode) ihFirst ihSecond ihThird ihRest

theorem events_eq (hwell : tree.WellLinked) (hwell' : other.WellLinked) :
    other.events = tree.events.map cast.onEvent := by
  have hforest := h.unfolds hwell.unfolds
  rw [← h.root] at hforest
  rw [← Tree.events_forest, ← Tree.events_forest, hwell'.unfolds.unique hforest, events_onForest]

theorem reachable {id : NodeId} (hid : tree.Reachable id) : other.Reachable (cast.place id) := by
  induction hid with
  | root hroot => exact .root (by rw [h.root, hroot, Option.map_some])
  | child slot _ hnode hchild ih =>
    exact .child slot ih (h.node _ _ hnode) (by rw [child_onNode, hchild, Option.map_some])
  | sibling _ hnode hsibling ih =>
    exact .sibling ih (h.node _ _ hnode) (by rw [onNode, hsibling, Option.map_some])

theorem list_eq (hwell : tree.WellLinked) (hwell' : other.WellLinked) {id : NodeId} {node : Node}
    (hid : tree.Reachable id) (hnode : tree.node? id = some node) (slot : Slot) :
    other.list (cast.onNode id node) slot = (tree.list node slot).map cast.onItem := by
  obtain ⟨forest, hforest⟩ : ∃ forest, tree.Unfolds (node.child slot) forest := by
    cases hchild : node.child slot with
    | none => exact ⟨_, .nil⟩
    | some child => exact ⟨_, (Tree.Reachable.child slot hid hnode hchild).unfolds hwell⟩
  have hforest' := h.unfolds hforest
  rw [← child_onNode id] at hforest'
  rw [hid.list_eq hwell hnode hforest, (h.reachable hid).list_eq hwell' (h.node _ _ hnode) hforest',
    spine_onForest]

end Carries

end Recast

end ScopeCheck
