import ScopeCheck.Scope.Table

namespace ScopeCheck

structure Frame where
  scope : ScopeId
  nextSlot : UInt32
  deriving DecidableEq, Repr, Inhabited

/-- The active scopes, innermost first. Each time a scope becomes active its slots are counted from
zero. -/
structure ActiveScopes where
  frames : List Frame
  deriving DecidableEq, Repr, Inhabited

namespace ActiveScopes

def empty : ActiveScopes := ⟨[]⟩

def isEmpty (active : ActiveScopes) : Bool := active.frames.isEmpty

def depth (active : ActiveScopes) : Nat := active.frames.length

def scopes (active : ActiveScopes) : List ScopeId := active.frames.map Frame.scope

def top (active : ActiveScopes) : Option ScopeId := active.frames.head?.map Frame.scope

def push (active : ActiveScopes) (scope : ScopeId) : ActiveScopes := ⟨⟨scope, 0⟩ :: active.frames⟩

def pop (active : ActiveScopes) : ActiveScopes := ⟨active.frames.tail⟩

def nextSlot (active : ActiveScopes) : Option UInt32 := active.frames.head?.map Frame.nextSlot

/-- Gives out a slot of the innermost scope. -/
def takeSlot : ActiveScopes → ActiveScopes
  | ⟨[]⟩ => ⟨[]⟩
  | ⟨frame :: frames⟩ => ⟨{ frame with nextSlot := frame.nextSlot + 1 } :: frames⟩

end ActiveScopes

end ScopeCheck
