import ScopeCheck.Command.Check
import ScopeCheck.Command.Explain
import ScopeCheck.Command.Help

namespace ScopeCheck

open Text (Display)

namespace Halt

def outcome : Halt → Outcome
  | help command => ⟨0, command.helpText, ""⟩
  | version => ⟨0, "cminus " ++ programVersion ++ "\n", ""⟩
  | usage error => ⟨2, "", "error: " ++ error.message ++ "\n"⟩

end Halt

def pathsOf (arguments : List String) : List Path :=
  match Request.ofArguments arguments with
  | .ok (.check request) => request.paths
  | _ => []

/-- The program as a function of its arguments, of the files that they lead to, and of what shows its
output. -/
def run (files : Files) (workingDirectory : String) (arguments : List String)
    (display : Display := .plain) : Outcome :=
  match Request.ofArguments arguments with
  | .error halt => halt.outcome
  | .ok (.check request) => request.run files workingDirectory display
  | .ok (.explain query) => Explain.run display query

end ScopeCheck
