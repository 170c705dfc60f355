import ScopeCheck.Json.Value

namespace ScopeCheck.Json

def hexChar (n : Nat) : Char := Nat.digitChar n

/-- A quote, a backslash and the control characters below the blank are escaped, nothing else. -/
def escapeChar (c : Char) : List Char :=
  match c with
  | '"' => ['\\', '"']
  | '\\' => ['\\', '\\']
  | '\x08' => ['\\', 'b']
  | '\t' => ['\\', 't']
  | '\n' => ['\\', 'n']
  | '\x0c' => ['\\', 'f']
  | '\r' => ['\\', 'r']
  | c => if c < ' ' then ['\\', 'u', '0', '0', hexChar (c.toNat / 16), hexChar (c.toNat % 16)] else [c]

def quote (text : String) : List Char :=
  '"' :: (text.toList.flatMap escapeChar ++ ['"'])

namespace Literal

/-- A string that spells no text is written as one of its kind, the first half of a pair alone. -/
def print : Literal → List Char
  | .text value => quote value
  | .halfPair => ['"', '\\', 'u', 'd', '8', '0', '0', '"']

end Literal

namespace Number

def print (number : Number) : List Char :=
  (if number.negative then ['-'] else [])
    ++ Nat.toDigits 10 number.whole
    ++ (if number.fraction.isEmpty then [] else '.' :: number.fraction)
    ++ match number.exponent with
      | none => []
      | some power => 'e' :: ((if power < 0 then ['-'] else []) ++ Nat.toDigits 10 power.natAbs)

end Number

def newLine (depth : Nat) : List Char := '\n' :: List.replicate (2 * depth) ' '

mutual

def print (depth : Nat) : Json → List Char
  | .null => "null".toList
  | .boolean true => "true".toList
  | .boolean false => "false".toList
  | .number value => value.print
  | .string value => value.print
  | .array [] => ['[', ']']
  | .array (item :: items) =>
    '[' :: (newLine (depth + 1) ++ print (depth + 1) item
      ++ printItems (depth + 1) items ++ newLine depth ++ [']'])
  | .object [] => ['\x7b', '\x7d']
  | .object ((name, value) :: members) =>
    '\x7b' :: (newLine (depth + 1) ++ name.print ++ [':', ' '] ++ print (depth + 1) value
      ++ printMembers (depth + 1) members ++ newLine depth ++ ['\x7d'])

/-- The items behind the first, each with the comma before it. -/
def printItems (depth : Nat) : List Json → List Char
  | [] => []
  | item :: items => ',' :: (newLine depth ++ print depth item ++ printItems depth items)

/-- The members behind the first, each with the comma before it. -/
def printMembers (depth : Nat) : List (Literal × Json) → List Char
  | [] => []
  | (name, value) :: members =>
    ',' :: (newLine depth ++ name.print ++ [':', ' '] ++ print depth value
      ++ printMembers depth members)

end

def pretty (value : Json) : String := String.ofList (print 0 value)

end ScopeCheck.Json
