import ScopeCheck.Analysis.State

namespace ScopeCheck

structure Builtin where
  name : String
  type : ValueType
  params : List ValueType
  deriving DecidableEq, Repr

namespace Builtin

/-- `input` reads a number and `output` writes one. -/
def all : List Builtin := [⟨"input", .integer, []⟩, ⟨"output", .void, [.integer]⟩]

def definition (builtin : Builtin) : Definition where
  name := builtin.name
  kind := .function
  type := builtin.type
  line := 0
  origin := .builtin builtin.params

end Builtin

def State.declareBuiltins (state : State) : State :=
  Builtin.all.foldl (fun state builtin => state.declare none builtin.definition) state

end ScopeCheck
