import ScopeCheck.Json.Value
import ScopeCheck.Text.Hex

namespace ScopeCheck.Json

inductive Token where
  | openBrace
  | closeBrace
  | openBracket
  | closeBracket
  | comma
  | colon
  | null
  | boolean (value : Bool)
  | number (value : Number)
  | string (value : Literal)
  deriving DecidableEq, Repr

def isBlank (c : Char) : Bool := c = ' ' || c = '\t' || c = '\n' || c = '\r'

/-- A character of a string, or the code unit that a `\u` escape names. -/
inductive Piece where
  | char (c : Char)
  | unit (code : Nat)
  deriving DecidableEq, Repr

namespace Piece

/-- The text that code units and characters spell. Two units of a surrogate pair side by side are
one character; half of a pair spells nothing. -/
def spell : List Piece → Option (List Char)
  | [] => some []
  | .char c :: rest => (spell rest).map (c :: ·)
  | .unit code :: rest =>
    if code < 0xD800 ∨ 0xDFFF < code then (spell rest).map (Char.ofNat code :: ·)
    else match rest with
      | .unit low :: rest =>
        if code < 0xDC00 ∧ 0xDC00 ≤ low ∧ low ≤ 0xDFFF then
          (spell rest).map (Char.ofNat (0x10000 + (code - 0xD800) * 0x400 + (low - 0xDC00)) :: ·)
        else none
      | _ => none

def toLiteral (pieces : List Piece) : Literal :=
  match spell pieces with
  | some chars => .text (String.ofList chars)
  | none => .halfPair

end Piece

def escaped? : Char → Option Char
  | '"' => some '"'
  | '\\' => some '\\'
  | '/' => some '/'
  | 'b' => some '\x08'
  | 'f' => some '\x0c'
  | 'n' => some '\n'
  | 'r' => some '\r'
  | 't' => some '\t'
  | _ => none

/-- Reads a string behind its opening quote, up to and with the closing one. -/
def scanString : List Char → Option (List Piece × List Char)
  | [] => none
  | '"' :: rest => some ([], rest)
  | '\\' :: 'u' :: a :: b :: c :: d :: rest => do
    let code ← Text.hexNumber? [a, b, c, d]
    let (pieces, rest) ← scanString rest
    return (.unit code :: pieces, rest)
  | '\\' :: c :: rest => do
    let c ← escaped? c
    let (pieces, rest) ← scanString rest
    return (.char c :: pieces, rest)
  | c :: rest =>
    if c < ' ' || c = '\\' then none
    else do
      let (pieces, rest) ← scanString rest
      return (.char c :: pieces, rest)

/-- The digits at the front, of which there must be one. -/
def scanDigits (text : List Char) : Option (List Char × List Char) :=
  match text.takeWhile Char.isDigit with
  | [] => none
  | digits => some (digits, text.dropWhile Char.isDigit)

/-- The digits before the point: a zero stands alone. -/
def scanWhole : List Char → Option (Nat × List Char)
  | '0' :: rest => some (0, rest)
  | text => (scanDigits text).map fun (digits, rest) => (Nat.ofDigitChars 10 digits 0, rest)

def scanFraction : List Char → Option (List Char × List Char)
  | '.' :: rest => scanDigits rest
  | text => some ([], text)

def scanPower : List Char → Option (Int × List Char)
  | '-' :: rest => (scanDigits rest).map fun (digits, rest) => (-(Nat.ofDigitChars 10 digits 0 : Nat), rest)
  | '+' :: rest => (scanDigits rest).map fun (digits, rest) => ((Nat.ofDigitChars 10 digits 0 : Nat), rest)
  | text => (scanDigits text).map fun (digits, rest) => ((Nat.ofDigitChars 10 digits 0 : Nat), rest)

def scanExponent : List Char → Option (Option Int × List Char)
  | 'e' :: rest | 'E' :: rest => (scanPower rest).map fun (power, rest) => (some power, rest)
  | text => some (none, text)

def scanUnsigned (negative : Bool) (text : List Char) : Option (Number × List Char) := do
  let (whole, text) ← scanWhole text
  let (fraction, text) ← scanFraction text
  let (exponent, text) ← scanExponent text
  return (⟨negative, whole, fraction, exponent⟩, text)

def scanNumber : List Char → Option (Number × List Char)
  | '-' :: rest => scanUnsigned true rest
  | text => scanUnsigned false text

def scanToken : List Char → Option (Token × List Char)
  | '\x7b' :: rest => some (.openBrace, rest)
  | '\x7d' :: rest => some (.closeBrace, rest)
  | '[' :: rest => some (.openBracket, rest)
  | ']' :: rest => some (.closeBracket, rest)
  | ',' :: rest => some (.comma, rest)
  | ':' :: rest => some (.colon, rest)
  | '"' :: rest => (scanString rest).map fun (pieces, rest) => (.string (Piece.toLiteral pieces), rest)
  | 'n' :: 'u' :: 'l' :: 'l' :: rest => some (.null, rest)
  | 't' :: 'r' :: 'u' :: 'e' :: rest => some (.boolean true, rest)
  | 'f' :: 'a' :: 'l' :: 's' :: 'e' :: rest => some (.boolean false, rest)
  | text => (scanNumber text).map fun (value, rest) => (.number value, rest)

/-- At most `fuel` tokens and blanks. Each takes a character at least. -/
def tokensUpTo : Nat → List Char → Option (List Token)
  | _, [] => some []
  | 0, _ => none
  | fuel + 1, c :: rest =>
    if isBlank c then tokensUpTo fuel rest
    else do
      let (token, rest) ← scanToken (c :: rest)
      let tokens ← tokensUpTo fuel rest
      return token :: tokens

def tokens (text : List Char) : Option (List Token) := tokensUpTo text.length text

end ScopeCheck.Json
