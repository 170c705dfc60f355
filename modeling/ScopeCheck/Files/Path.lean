namespace ScopeCheck

/-- A path is text. Going up cuts off the last component, whatever it means on a disk. -/
structure Path where
  text : String
  deriving DecidableEq, Repr, Inhabited

namespace Path

def split (text : List Char) : List (List Char) :=
  text.foldr (fun c parts =>
    if c = '/' then [] :: parts
    else match parts with
      | [] => [[c]]
      | part :: parts => (c :: part) :: parts) [[]]

def joinParts : List (List Char) → List Char
  | [] => []
  | [part] => part
  | part :: parts => part ++ '/' :: joinParts parts

/-- The start that says where a path begins: a slash, a dot that is a part of its own, or
nothing. -/
def base : List Char → List Char
  | '/' :: _ => ['/']
  | ['.'] | '.' :: '/' :: _ => ['.']
  | _ => []

/-- Whether a part between slashes is no component: empty, or a dot. -/
def isIdle (part : List Char) : Bool := part = [] || part = ['.']

def trimIdle (parts : List (List Char)) : List (List Char) :=
  (parts.reverse.dropWhile isIdle).reverse

/-- The path without its last component. The root has none to lose, and neither has the empty
path. -/
def parent? (path : Path) : Option Path :=
  let text := path.text.toList
  let start := base text
  match trimIdle (split (text.drop start.length)) with
  | [] => if start = ['.'] then some ⟨""⟩ else none
  | parts => some ⟨String.ofList (start ++ joinParts (trimIdle parts.dropLast))⟩

def join (directory : Path) (name : String) : Path :=
  match directory.text.toList.getLast? with
  | none => ⟨name⟩
  | some '/' => ⟨directory.text ++ name⟩
  | some _ => ⟨directory.text ++ "/" ++ name⟩

/-- A path and all that is left of it when components are cut off, for `fuel` times at most. -/
def climbUpTo : Nat → Path → List Path
  | 0, _ => []
  | fuel + 1, path =>
    match path.parent? with
    | none => [path]
    | some parent => path :: climbUpTo fuel parent

/-- A path, its parent, and so on. Each is shorter than the one before. -/
def climb (path : Path) : List Path := climbUpTo (path.text.length + 1) path

end Path

end ScopeCheck
