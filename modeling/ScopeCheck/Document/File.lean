import ScopeCheck.Document.Reader
import ScopeCheck.Files.Basic

namespace ScopeCheck

inductive LoadError where
  | unreadable (path : Path)
  | badTree (error : TreeError)
  deriving DecidableEq, Repr

namespace LoadError

/-- The messages from the outside in: a file that cannot be read and a text that is no document have
a cause of their own. -/
def messages : LoadError → List String
  | unreadable path =>
    let cause := "not a readable text file"
    ["Failed to read syntax tree '" ++ path.text ++ "': " ++ cause, cause]
  | badTree .malformed =>
    let cause := "not a tree document"
    ["Invalid syntax tree JSON: " ++ cause, cause]
  | badTree (.badLink error) => [error.message]

end LoadError

namespace Tree

def load (files : Files) (path : Path) : Except LoadError Tree :=
  match (files path).text? with
  | none => .error (.unreadable path)
  | some text =>
    match ofText text with
    | .error error => .error (.badTree error)
    | .ok tree => .ok tree

end Tree

end ScopeCheck
