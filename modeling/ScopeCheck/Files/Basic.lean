import ScopeCheck.Files.Path

namespace ScopeCheck

inductive FileEntry where
  | missing
  | directory
  | file (bytes : List UInt8)
  deriving DecidableEq, Repr, Inhabited

namespace FileEntry

def text? : FileEntry → Option String
  | file bytes => String.fromUTF8? ⟨bytes.toArray⟩
  | _ => none

end FileEntry

abbrev Files := Path → FileEntry

/-- Files held in memory, below a directory that is the start of relative paths. Each has the names
on the way to it; the directories on that way are there too. -/
structure Snapshot where
  entries : List (List String × FileEntry)
  deriving DecidableEq, Repr, Inhabited

namespace Snapshot

def entryAt (snapshot : Snapshot) (names : List String) : FileEntry :=
  match snapshot.entries.find? (·.1 = names) with
  | some entry => entry.2
  | none =>
    if names = [] ∨ snapshot.entries.any (fun entry => names.isPrefixOf entry.1) then .directory
    else .missing

/-- Follows the parts of a path from the directory `here`. Nothing is known above the start. -/
def follow (snapshot : Snapshot) : List String → List (List Char) → FileEntry
  | here, [] => snapshot.entryAt here
  | here, part :: parts =>
    match snapshot.entryAt here with
    | .directory =>
      if Path.isIdle part then follow snapshot here parts
      else if part = ['.', '.'] then
        match here with
        | [] => .missing
        | _ :: _ => follow snapshot here.dropLast parts
      else follow snapshot (here ++ [String.ofList part]) parts
    | _ => .missing

/-- What stands at a path. Absolute paths lead outside. -/
def files (snapshot : Snapshot) : Files := fun path =>
  match path.text.toList with
  | [] | '/' :: _ => .missing
  | text => snapshot.follow [] (Path.split text)

end Snapshot

end ScopeCheck
