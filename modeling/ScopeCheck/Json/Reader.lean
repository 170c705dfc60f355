import ScopeCheck.Json.Token

namespace ScopeCheck.Json

mutual

def readValue : Nat → List Token → Option (Json × List Token)
  | 0, _ => none
  | fuel + 1, token :: rest =>
    match token with
    | .null => some (.null, rest)
    | .boolean value => some (.boolean value, rest)
    | .number value => some (.number value, rest)
    | .string value => some (.string value, rest)
    | .openBracket =>
      match rest with
      | .closeBracket :: rest => some (.array [], rest)
      | rest => (readItems fuel rest).map fun (items, rest) => (.array items, rest)
    | .openBrace =>
      match rest with
      | .closeBrace :: rest => some (.object [], rest)
      | rest => (readMembers fuel rest).map fun (members, rest) => (.object members, rest)
    | _ => none
  | _ + 1, [] => none

def readItems : Nat → List Token → Option (List Json × List Token)
  | 0, _ => none
  | fuel + 1, tokens => do
    let (item, rest) ← readValue fuel tokens
    match rest with
    | .closeBracket :: rest => return ([item], rest)
    | .comma :: rest =>
      let (items, rest) ← readItems fuel rest
      return (item :: items, rest)
    | _ => none

def readMembers : Nat → List Token → Option (List (Literal × Json) × List Token)
  | fuel + 1, .string name :: .colon :: rest => do
    let (value, rest) ← readValue fuel rest
    match rest with
    | .closeBrace :: rest => return ([(name, value)], rest)
    | .comma :: rest =>
      let (members, rest) ← readMembers fuel rest
      return ((name, value) :: members, rest)
    | _ => none
  | _, _ => none

end

/-- The value that a list of tokens spells. Every token takes at most two calls, one for the value
it starts and one for the list it opens. -/
def ofTokens? (tokens : List Token) : Option Json :=
  match readValue (2 * tokens.length) tokens with
  | some (value, []) => some value
  | _ => none

def parse? (text : List Char) : Option Json := do
  ofTokens? (← tokens text)

end ScopeCheck.Json
