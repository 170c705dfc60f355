import ScopeCheck.Text.Hex
import ScopeCheck.Toml.Scan

namespace ScopeCheck.Toml

namespace Scan

open Text (hexNumber? charAt?)

def escaped? : Char → Option Char
  | 'b' => some '\x08'
  | 't' => some '\t'
  | 'n' => some '\n'
  | 'f' => some '\x0c'
  | 'r' => some '\r'
  | '"' => some '"'
  | '\\' => some '\\'
  | _ => none

def consText (c : Char) : Option (List Char × List Char) → Option (List Char × List Char)
  | some (text, rest) => some (c :: text, rest)
  | none => none

/-- Reads a string with escapes behind its quote. -/
def escapedText : Scan (List Char)
  | '"' :: rest => some ([], rest)
  | '\\' :: 'u' :: a :: b :: c :: d :: rest => do
    let c ← (hexNumber? [a, b, c, d]).bind charAt?
    consText c (escapedText rest)
  | '\\' :: 'U' :: a :: b :: c :: d :: e :: f :: g :: h :: rest => do
    let c ← (hexNumber? [a, b, c, d, e, f, g, h]).bind charAt?
    consText c (escapedText rest)
  | '\\' :: c :: rest => do
    let c ← escaped? c
    consText c (escapedText rest)
  | c :: rest => if isPlain c && c ≠ '\\' then consText c (escapedText rest) else none
  | [] => none

/-- Reads a string without escapes behind its quote. -/
def literalText : Scan (List Char)
  | '\'' :: rest => some ([], rest)
  | c :: rest => if isPlain c then consText c (literalText rest) else none
  | [] => none

/-- Whether a backslash stands at the end of its line, with nothing but blanks behind it. -/
def endsLine (text : List Char) : Bool :=
  match text.dropWhile fun c => c = ' ' || c = '\t' with
  | '\n' :: _ | '\r' :: '\n' :: _ => true
  | _ => false

/-- Reads a string with escapes on several lines. One or two quotes may stand before the closing
three. A backslash at the end of a line takes the blanks and line ends that follow with it; `skip`
says that these are being passed over. -/
def escapedLines : Bool → Scan (List Char)
  | _, '"' :: '"' :: '"' :: '"' :: '"' :: rest => some (['"', '"'], rest)
  | _, '"' :: '"' :: '"' :: '"' :: rest => some (['"'], rest)
  | _, '"' :: '"' :: '"' :: rest => some ([], rest)
  | skip, '\r' :: '\n' :: rest =>
    if skip then escapedLines true rest else consText '\n' (escapedLines false rest)
  | skip, '\n' :: rest =>
    if skip then escapedLines true rest else consText '\n' (escapedLines false rest)
  | _, '\\' :: 'u' :: a :: b :: c :: d :: rest => do
    let c ← (hexNumber? [a, b, c, d]).bind charAt?
    consText c (escapedLines false rest)
  | _, '\\' :: 'U' :: a :: b :: c :: d :: e :: f :: g :: h :: rest => do
    let c ← (hexNumber? [a, b, c, d, e, f, g, h]).bind charAt?
    consText c (escapedLines false rest)
  | _, '\\' :: c :: rest =>
    if endsLine (c :: rest) then escapedLines true (c :: rest)
    else do
      let c ← escaped? c
      consText c (escapedLines false rest)
  | skip, c :: rest =>
    if skip && (c = ' ' || c = '\t') then escapedLines true rest
    else if isPlain c && c ≠ '\\' then consText c (escapedLines false rest)
    else none
  | _, [] => none

/-- Reads a string without escapes on several lines. -/
def literalLines : Scan (List Char)
  | '\'' :: '\'' :: '\'' :: '\'' :: '\'' :: rest => some (['\'', '\''], rest)
  | '\'' :: '\'' :: '\'' :: '\'' :: rest => some (['\''], rest)
  | '\'' :: '\'' :: '\'' :: rest => some ([], rest)
  | '\r' :: '\n' :: rest => consText '\n' (literalLines rest)
  | '\n' :: rest => consText '\n' (literalLines rest)
  | c :: rest => if isPlain c then consText c (literalLines rest) else none
  | [] => none

/-- A line end right behind the opening quotes is no part of the string. -/
def skipFirstLineEnd : List Char → List Char
  | '\n' :: rest => rest
  | '\r' :: '\n' :: rest => rest
  | text => text

def string : Scan String
  | '"' :: '"' :: '"' :: rest =>
    (escapedLines false (skipFirstLineEnd rest)).map fun (text, rest) => (String.ofList text, rest)
  | '\'' :: '\'' :: '\'' :: rest =>
    (literalLines (skipFirstLineEnd rest)).map fun (text, rest) => (String.ofList text, rest)
  | '"' :: rest => (escapedText rest).map fun (text, rest) => (String.ofList text, rest)
  | '\'' :: rest => (literalText rest).map fun (text, rest) => (String.ofList text, rest)
  | _ => none

def isBareKey (c : Char) : Bool := c.isAlphanum || c = '_' || c = '-'

def bareKey : Scan String := do
  match ← takeWhile isBareKey with
  | [] => failure
  | key => return String.ofList key

/-- A key between two dots. It may be quoted, on one line. -/
def simpleKey : Scan String
  | '"' :: rest => (escapedText rest).map fun (text, rest) => (String.ofList text, rest)
  | '\'' :: rest => (literalText rest).map fun (text, rest) => (String.ofList text, rest)
  | text => bareKey text

def keyUpTo : Nat → Scan (List String)
  | 0 => failure
  | parts + 1 => do
    blanks
    let first ← simpleKey
    blanks
    if ← accept '.' then return first :: (← keyUpTo parts)
    else return [first]

def maxDepth : Nat := 79

/-- A key with the dots in it. -/
def key : Scan (List String) := keyUpTo maxDepth

end Scan

end ScopeCheck.Toml
