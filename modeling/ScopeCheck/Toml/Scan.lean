namespace ScopeCheck.Toml

/-- A scanner reads from the front of a text and gives back what is left of it. -/
abbrev Scan := StateT (List Char) Option

namespace Scan

/-- The rest of the text, of which nothing is taken. -/
def ahead : Scan (List Char) := fun text => some (text, text)

/-- Takes a character that is there, or nothing. -/
def accept (c : Char) : Scan Bool
  | d :: rest => if d = c then some (true, rest) else some (false, d :: rest)
  | [] => some (false, [])

/-- Takes one of some characters, if one is there. -/
def acceptOneOf (cs : List Char) : Scan Bool
  | d :: rest => if d ∈ cs then some (true, rest) else some (false, d :: rest)
  | [] => some (false, [])

def expect (c : Char) : Scan Unit
  | d :: rest => if d = c then some ((), rest) else none
  | [] => none

def word : List Char → Scan Unit
  | [] => pure ()
  | c :: rest => do expect c; word rest

def takeWhile (condition : Char → Bool) : Scan (List Char) := fun text =>
  some (text.takeWhile condition, text.dropWhile condition)

/-- Takes a number of characters that all satisfy a condition. -/
def exactly (condition : Char → Bool) : Nat → Scan (List Char)
  | 0 => pure []
  | n + 1 => fun
    | c :: rest => if condition c then (exactly condition n rest).map fun (cs, rest) => (c :: cs, rest) else none
    | [] => none

/-- Runs a scanner, and gives what it took of the text as well. -/
def spelled {α : Type} (scan : Scan α) : Scan (α × List Char) := fun text =>
  (scan text).map fun (a, rest) => ((a, text.take (text.length - rest.length)), rest)

def blanks : Scan Unit := do
  let _ ← takeWhile fun c => c = ' ' || c = '\t'

def newLine : Scan Unit
  | '\n' :: rest => some ((), rest)
  | '\r' :: '\n' :: rest => some ((), rest)
  | _ => none

/-- The characters of comments and one-line strings: no control character but the tab. -/
def isPlain (c : Char) : Bool := c = '\t' || decide (' ' ≤ c ∧ c ≤ '~') || decide ('\x80' ≤ c)

def comment : Scan Unit := do
  if ← accept '#' then
    let _ ← takeWhile isPlain

/-- The end of a line, which the end of the text is too. -/
def lineEnd : Scan Unit
  | [] => some ((), [])
  | text => newLine text

/-- What may stand behind the last thing on a line. -/
def lineRest : Scan Unit := do
  blanks
  comment
  lineEnd

def triviaUpTo : Nat → Scan Unit
  | 0 => pure ()
  | fuel + 1 => do
    blanks
    match ← ahead with
    | '#' :: _ => comment; newLine; triviaUpTo fuel
    | '\n' :: _ | '\r' :: _ => newLine; triviaUpTo fuel
    | _ => return ()

/-- Blanks, line ends and comments, each of which takes a character at least. -/
def trivia : Scan Unit := do
  triviaUpTo ((← ahead).length + 1)

end Scan

end ScopeCheck.Toml
