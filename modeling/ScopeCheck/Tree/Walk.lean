import ScopeCheck.Tree.Basic

namespace ScopeCheck

inductive Event where
  | enter (id : NodeId) (node : Node)
  | leave (id : NodeId) (node : Node)
  deriving DecidableEq, Repr

/-- Answers an event with a new state; an error is the value that it stops the walk with. -/
abbrev Visitor (β σ : Type) := Event → EStateM β σ Unit

namespace Tree

/-- The events of a walk whose paths of child and sibling links are shorter than `fuel`. -/
def eventsUpTo (tree : Tree) : Nat → Option NodeId → List Event
  | 0, _ => []
  | _, none => []
  | fuel + 1, some id =>
    match tree.node? id with
    | none => []
    | some node =>
      .enter id node :: (tree.eventsUpTo fuel node.children.first
        ++ tree.eventsUpTo fuel node.children.second
        ++ tree.eventsUpTo fuel node.children.third
        ++ .leave id node :: tree.eventsUpTo fuel node.sibling)

/-- The events of a walk of the list that starts with `first`. Without a cycle a path meets no
node twice, so the size of the tree bounds it. -/
def eventsFrom (tree : Tree) (first : Option NodeId) : List Event :=
  tree.eventsUpTo tree.size first

def events (tree : Tree) : List Event := tree.eventsFrom tree.root

def walkUpTo {β σ : Type} (tree : Tree) (visit : Visitor β σ) : Nat → Option NodeId → EStateM β σ Unit
  | 0, _ => pure ()
  | _, none => pure ()
  | fuel + 1, some id =>
    match tree.node? id with
    | none => pure ()
    | some node => do
      visit (.enter id node)
      tree.walkUpTo visit fuel node.children.first
      tree.walkUpTo visit fuel node.children.second
      tree.walkUpTo visit fuel node.children.third
      visit (.leave id node)
      tree.walkUpTo visit fuel node.sibling

def walkFrom {β σ : Type} (tree : Tree) (visit : Visitor β σ) (first : Option NodeId) :
    EStateM β σ Unit :=
  tree.walkUpTo visit tree.size first

def walk {β σ : Type} (tree : Tree) (visit : Visitor β σ) : EStateM β σ Unit :=
  tree.walkFrom visit tree.root

end Tree

end ScopeCheck
