import ScopeCheck.Document.Links
import ScopeCheck.Document.Word
import ScopeCheck.Json.Reader

namespace ScopeCheck

namespace Json

mutual

def nesting : Json → Nat
  | array items => itemsNesting items + 1
  | object members => membersNesting members + 1
  | _ => 0

def itemsNesting : List Json → Nat
  | [] => 0
  | item :: items => max item.nesting (itemsNesting items)

def membersNesting : List (Literal × Json) → Nat
  | [] => 0
  | (_, value) :: members => max value.nesting (membersNesting members)

end

mutual

/-- Whether every string spells a text and every number is finite as a double. -/
def hasValues : Json → Bool
  | number value => value.isFinite
  | string value => value ≠ .halfPair
  | array items => itemsHaveValues items
  | object members => membersHaveValues members
  | _ => true

def itemsHaveValues : List Json → Bool
  | [] => true
  | item :: items => item.hasValues && itemsHaveValues items

def membersHaveValues : List (Literal × Json) → Bool
  | [] => true
  | (name, value) :: members =>
    decide (name ≠ .halfPair) && value.hasValues && membersHaveValues members

end

def namedMembers? : Json → Option (List (String × Json))
  | object members => members.mapM fun
    | (.text name, value) => some (name, value)
    | (.halfPair, _) => none
  | _ => none

/-- The value of a member that may be left out but not repeated. -/
def uniqueMember? (name : String) (members : List (String × Json)) : Option (Option Json) :=
  match members.filter (·.1 = name) with
  | [] => some none
  | [member] => some (some member.2)
  | _ => none

/-- Reads a member that may be left out. -/
def memberD {α : Type} (name : String) (members : List (String × Json)) (read : Json → Option α)
    (default : α) : Option α := do
  match ← uniqueMember? name members with
  | none => return default
  | some value => read value

def member? {α : Type} (name : String) (members : List (String × Json)) (read : Json → Option α) :
    Option α := do
  match ← uniqueMember? name members with
  | none => none
  | some value => read value

def nullable? {α : Type} (read : Json → Option α) : Json → Option (Option α)
  | null => some none
  | value => (read value).map some

def list? {α : Type} (read : Json → Option α) : Json → Option (List α)
  | array items => items.mapM read
  | _ => none

def place? (value : Json) : Option Nat := value.natBelow? UInt64.size

def word32? (value : Json) : Option UInt32 := (value.natBelow? UInt32.size).map UInt32.ofNat

def int64? (value : Json) : Option Int64 := do
  let n ← value.int?
  if Int64.minValue.toInt ≤ n ∧ n ≤ Int64.maxValue.toInt then some (Int64.ofInt n) else none

/-- A word: a string, or an object with that one member, which holds nothing. -/
def word? : Json → Option String
  | string (.text word) => some word
  | object [(.text word, null)] => some word
  | object [(.text word, object [])] => some word
  | _ => none

end Json

namespace NodeKind

/-- A kind is given by its word or by its number. -/
def ofJson? (value : Json) : Option NodeKind :=
  match value.text? with
  | some word => ofWord? word
  | none => do all[← value.place?]?

end NodeKind

namespace Label

open Json in
def ofMembers? (members : List (String × Json)) (kind : NodeKind) : Option Label :=
  let name? := member? "name" members text?
  let type? := member? "type" members (·.word?.bind ValueType.ofWord?)
  match kind with
  | .ifThen => some (.statement .ifThen)
  | .whileDo => some (.statement .whileDo)
  | .block => some (.statement .block)
  | .ret => some (.statement .ret)
  | .operation => do
    let op ← member? "op" members (·.word?.bind Operator.ofWord?)
    return .expression (.operation op)
  | .constant => do
    let value ← member? "value" members int64?
    return .expression (.constant value)
  | .identifier => do return .expression (.identifier (← name?))
  | .element => do return .expression (.element (← name?))
  | .call => do return .expression (.call (← name?))
  | .variable => do
    let size ← memberD "size" members (nullable? word32?) none
    return .declaration ⟨.variable, ← name?, ← type?, size⟩
  | .function => do return .declaration ⟨.function, ← name?, ← type?, none⟩
  | .parameter => do
    let name ← memberD "name" members text? ""
    return .declaration ⟨.parameter, name, ← type?, none⟩

end Label

namespace Entry

/-- A document nests 127 arrays and objects at most; a node stands two levels deep in it. -/
def maxNesting : Nat := 125

open Json in
def ofJson? (value : Json) : Option Entry := do
  guard (value.hasValues && value.nesting ≤ maxNesting)
  let members ← value.namedMembers?
  let kind ← member? "kind" members NodeKind.ofJson?
  let label ← Label.ofMembers? members kind
  let line ← memberD "line" members word32? 0
  let children ← memberD "children" members (list? (nullable? place?)) []
  let sibling ← memberD "sibling" members (nullable? place?) none
  return ⟨label, line, children, sibling⟩

end Entry

namespace Document

open Json in
def ofMembers? (members : List (String × Json)) : Option Document := do
  let root ← memberD "root" members (nullable? place?) none
  let entries ← memberD "nodes" members (list? Entry.ofJson?) []
  return ⟨root, entries⟩

/-- An array gives the root and the nodes by their places. -/
def ofJson? : Json → Option Document
  | .array [] => ofMembers? []
  | .array [root] => ofMembers? [("root", root)]
  | .array [root, nodes] => ofMembers? [("root", root), ("nodes", nodes)]
  | value => do ofMembers? (← value.namedMembers?)

/-- A text is read as a whole before any link is looked at. -/
def parse? (text : List Char) : Option Document := do
  ofJson? (← Json.parse? text)

end Document

inductive TreeError where
  | malformed
  | badLink (error : LinkError)
  deriving DecidableEq, Repr

namespace Tree

def ofText (text : String) : Except TreeError Tree := do
  match Document.parse? text.toList with
  | none => throw .malformed
  | some doc =>
    match doc.checkLinks with
    | .error error => throw (.badLink error)
    | .ok () => return doc.toTree

end Tree

end ScopeCheck
