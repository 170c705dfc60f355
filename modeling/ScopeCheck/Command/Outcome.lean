namespace ScopeCheck

/-- What a run of the program comes to: its exit code and what it writes. -/
structure Outcome where
  exit : UInt32
  stdout : String
  stderr : String
  deriving DecidableEq, Repr, Inhabited

/-- An error that ends a run, with its causes from the outside in. -/
structure Failure where
  headline : String
  causes : List String
  deriving DecidableEq, Repr, Inhabited

namespace Failure

/-- Further lines of a cause are indented like its first. -/
def indent (margin text : String) : String := ("\n" ++ margin).intercalate (text.splitOn "\n")

/-- Causes are numbered when there are several. -/
def causeLines : List String → List String
  | [cause] => ["    " ++ indent "    " cause]
  | causes => causes.mapIdx fun i cause => "    " ++ toString i ++ ": " ++ indent "       " cause

def text (failure : Failure) : String :=
  "Error: " ++ failure.headline ++ "\n"
    ++ match failure.causes with
      | [] => ""
      | causes => "\nCaused by:\n" ++ "\n".intercalate (causeLines causes) ++ "\n"

/-- A run that fails writes nothing to its output; `notices` are written before the error. -/
def outcome (failure : Failure) (notices : String) : Outcome := ⟨1, "", notices ++ failure.text⟩

end Failure

end ScopeCheck
