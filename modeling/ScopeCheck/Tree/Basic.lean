import ScopeCheck.Tree.Label

namespace ScopeCheck

abbrev NodeId := Nat

abbrev Slot := Fin 3

namespace Slot

def first : Slot := ⟨0, by decide⟩

def second : Slot := ⟨1, by decide⟩

def third : Slot := ⟨2, by decide⟩

end Slot

structure Slots where
  first : Option NodeId
  second : Option NodeId
  third : Option NodeId
  deriving DecidableEq, Repr, Inhabited

namespace Slots

def empty : Slots := ⟨none, none, none⟩

def toList (slots : Slots) : List (Option NodeId) :=
  [slots.first, slots.second, slots.third]

/-- Fills the slots in order; what is missing stays empty, and a fourth entry has no place. -/
def ofList (children : List (Option NodeId)) : Slots :=
  ⟨children[0]?.join, children[1]?.join, children[2]?.join⟩

def get : Slots → Slot → Option NodeId
  | slots, 0 => slots.first
  | slots, 1 => slots.second
  | slots, 2 => slots.third

def set : Slots → Slot → Option NodeId → Slots
  | slots, 0, child => { slots with first := child }
  | slots, 1, child => { slots with second := child }
  | slots, 2, child => { slots with third := child }

end Slots

structure Node where
  label : Label
  line : UInt32
  children : Slots
  sibling : Option NodeId
  deriving DecidableEq, Repr, Inhabited

namespace Node

def leaf (label : Label) (line : UInt32) : Node := ⟨label, line, .empty, none⟩

def child (node : Node) (slot : Slot) : Option NodeId := node.children.get slot

end Node

/-- Nodes are numbered in the order they are added, and link to each other by number. Any number may
be linked from anywhere, so nodes may be shared. -/
structure Tree where
  nodes : Array Node
  root : Option NodeId
  deriving DecidableEq, Repr, Inhabited

namespace Tree

def empty : Tree := ⟨#[], none⟩

def size (tree : Tree) : Nat := tree.nodes.size

def node? (tree : Tree) (id : NodeId) : Option Node := tree.nodes[id]?

/-- Adds a node without links; its number is the size that the tree had. -/
def add (tree : Tree) (label : Label) (line : UInt32) : Tree :=
  { tree with nodes := tree.nodes.push (.leaf label line) }

def modifyNode (tree : Tree) (id : NodeId) (change : Node → Node) : Tree :=
  { tree with nodes := tree.nodes.modify id change }

def setChild (tree : Tree) (parent : NodeId) (slot : Slot) (child : Option NodeId) : Tree :=
  tree.modifyNode parent fun node => { node with children := node.children.set slot child }

def setSibling (tree : Tree) (id : NodeId) (next : Option NodeId) : Tree :=
  tree.modifyNode id fun node => { node with sibling := next }

def setRoot (tree : Tree) (root : Option NodeId) : Tree := { tree with root }

/-- Makes each listed node the sibling of the one before it. The last one keeps its sibling. -/
def link : Tree → List NodeId → Tree
  | tree, id :: next :: rest => (tree.setSibling id (some next)).link (next :: rest)
  | tree, _ => tree

/-- The first `fuel` nodes of a list, in sibling order. -/
def chainUpTo (tree : Tree) : Nat → Option NodeId → List (NodeId × Node)
  | 0, _ => []
  | _, none => []
  | fuel + 1, some id =>
    match tree.node? id with
    | none => []
    | some node => (id, node) :: tree.chainUpTo fuel node.sibling

/-- The list that starts with `first`. A list without a cycle has no more members than the tree
has nodes, so none is cut. -/
def chain (tree : Tree) (first : Option NodeId) : List (NodeId × Node) :=
  tree.chainUpTo tree.size first

def list (tree : Tree) (node : Node) (slot : Slot) : List (NodeId × Node) :=
  tree.chain (node.child slot)

end Tree

end ScopeCheck
