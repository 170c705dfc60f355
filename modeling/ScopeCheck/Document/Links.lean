import ScopeCheck.Document.Basic

namespace ScopeCheck

inductive LinkError where
  | danglingRoot (root size : Nat)
  | tooManyChildren (place count : Nat)
  | danglingLink (place target size : Nat)
  | sharedNode (target : Nat)
  deriving DecidableEq, Repr

namespace LinkError

def message : LinkError → String
  | danglingRoot root size =>
    "Root " ++ toString root ++ " is out of range for a tree of " ++ toString size ++ " nodes"
  | tooManyChildren place count =>
    "Node " ++ toString place ++ " has " ++ toString count ++ " children, at most 3 are allowed"
  | danglingLink place target size =>
    "Node " ++ toString place ++ " links to node " ++ toString target ++ ", but the tree has "
      ++ toString size ++ " nodes"
  | sharedNode target => "Node " ++ toString target ++ " is linked more than once"

end LinkError

namespace Document

/-- The places linked to so far: a mark for each entry. -/
abbrev Linked := Array Bool

/-- Marks the targets of the entry at `place`, up to the first that is out of range or marked. -/
def markTargets (size place : Nat) : List Nat → Linked → Except LinkError Linked
  | [], linked => .ok linked
  | target :: rest, linked =>
    if size ≤ target then .error (.danglingLink place target size)
    else if linked.getD target false then .error (.sharedNode target)
    else markTargets size place rest (linked.setIfInBounds target true)

def markEntries (size : Nat) : Nat → List Entry → Linked → Except LinkError Linked
  | _, [], linked => .ok linked
  | place, entry :: rest, linked =>
    if 3 < entry.children.length then .error (.tooManyChildren place entry.children.length)
    else do
      let linked ← markTargets size place entry.links linked
      markEntries size (place + 1) rest linked

def markRoot (size : Nat) : Option Nat → Linked → Except LinkError Linked
  | none, linked => .ok linked
  | some root, linked =>
    if size ≤ root then .error (.danglingRoot root size)
    else .ok (linked.setIfInBounds root true)

/-- Finds the first fault: the root, then entry by entry the number of children and each link. -/
def checkLinks (doc : Document) : Except LinkError Unit := do
  let linked ← markRoot doc.size doc.root (Array.replicate doc.size false)
  let _ ← markEntries doc.size 0 doc.entries linked
  return ()

end Document

end ScopeCheck
