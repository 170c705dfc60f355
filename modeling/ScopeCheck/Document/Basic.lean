import ScopeCheck.Tree.Basic

namespace ScopeCheck

structure Entry where
  label : Label
  line : UInt32
  children : List (Option Nat)
  sibling : Option Nat
  deriving DecidableEq, Repr, Inhabited

/-- Entries link to each other by their places. Nothing is known of the links yet. -/
structure Document where
  root : Option Nat
  entries : List Entry
  deriving DecidableEq, Repr, Inhabited

namespace Entry

/-- The places that an entry links to, in the order of its children and its sibling last. -/
def links (entry : Entry) : List Nat :=
  entry.children.filterMap id ++ entry.sibling.toList

def toNode (entry : Entry) : Node :=
  ⟨entry.label, entry.line, .ofList entry.children, entry.sibling⟩

end Entry

namespace Document

def size (doc : Document) : Nat := doc.entries.length

/-- The places that a document links to: the root, then what the entries link to. -/
def links (doc : Document) : List Nat :=
  doc.root.toList ++ doc.entries.flatMap Entry.links

/-- The tree of the entries, each a node under its place in the list. -/
def toTree (doc : Document) : Tree :=
  ⟨(doc.entries.map Entry.toNode).toArray, doc.root⟩

end Document

end ScopeCheck
