import ScopeCheck.Tree.Basic

namespace ScopeCheck

/-- Putting a tree together node by node. -/
abbrev Assembly := StateM Tree

namespace Assembly

def add (label : Label) (line : UInt32) : Assembly NodeId :=
  modifyGet fun tree => (tree.size, tree.add label line)

/-- Links a list and gives its first node. -/
def link (items : List NodeId) : Assembly (Option NodeId) :=
  modifyGet fun tree => (items.head?, tree.link items)

def setChild (parent : NodeId) (slot : Slot) (child : Option NodeId) : Assembly Unit :=
  modify fun tree => tree.setChild parent slot child

def setRoot (root : Option NodeId) : Assembly Unit := modify fun tree => tree.setRoot root

def declare (line : UInt32) (kind : DeclarationKind) (name : String) (type : ValueType)
    (size : Option UInt32) : Assembly NodeId :=
  add (.declaration ⟨kind, name, type, size⟩) line

def scalar (line : UInt32) (name : String) (type : ValueType) : Assembly NodeId :=
  declare line .variable name type none

def array (line : UInt32) (name : String) (size : UInt32) : Assembly NodeId :=
  declare line .variable name .array (some size)

def parameter (line : UInt32) (name : String) (type : ValueType) : Assembly NodeId :=
  declare line .parameter name type none

/-- The empty list of parameters is written as one that is void and has no name. -/
def noParameters (line : UInt32) : Assembly NodeId := declare line .parameter "" .void none

def function (line : UInt32) (name : String) (type : ValueType) (params : List NodeId)
    (body : NodeId) : Assembly NodeId := do
  let node ← declare line .function name type none
  let params ← link params
  setChild node .first params
  setChild node .second (some body)
  return node

def block (line : UInt32) (declarations statements : List NodeId) : Assembly NodeId := do
  let node ← add (.statement .block) line
  let declarations ← link declarations
  let statements ← link statements
  setChild node .first declarations
  setChild node .second statements
  return node

def ifThen (line : UInt32) (condition thenBranch : NodeId) (elseBranch : Option NodeId) :
    Assembly NodeId := do
  let node ← add (.statement .ifThen) line
  setChild node .first (some condition)
  setChild node .second (some thenBranch)
  setChild node .third elseBranch
  return node

def whileDo (line : UInt32) (condition body : NodeId) : Assembly NodeId := do
  let node ← add (.statement .whileDo) line
  setChild node .first (some condition)
  setChild node .second (some body)
  return node

def ret (line : UInt32) (value : Option NodeId) : Assembly NodeId := do
  let node ← add (.statement .ret) line
  setChild node .first value
  return node

def operation (line : UInt32) (op : Operator) (left right : NodeId) : Assembly NodeId := do
  let node ← add (.expression (.operation op)) line
  setChild node .first (some left)
  setChild node .second (some right)
  return node

def assignment (line : UInt32) (target value : NodeId) : Assembly NodeId :=
  operation line .assign target value

def constant (line : UInt32) (value : Int64) : Assembly NodeId :=
  add (.expression (.constant value)) line

def identifier (line : UInt32) (name : String) : Assembly NodeId :=
  add (.expression (.identifier name)) line

def element (line : UInt32) (name : String) (index : NodeId) : Assembly NodeId := do
  let node ← add (.expression (.element name)) line
  setChild node .first (some index)
  return node

def call (line : UInt32) (callee : String) (args : List NodeId) : Assembly NodeId := do
  let node ← add (.expression (.call callee)) line
  let args ← link args
  setChild node .first args
  return node

/-- Links the items of the program and makes the first one the root. -/
def finish (items : List NodeId) : Assembly Unit := do
  let root ← link items
  setRoot root

end Assembly

/-- One step of an assembly with what it is given. -/
inductive Part where
  | scalar (line : UInt32) (name : String) (type : ValueType)
  | array (line : UInt32) (name : String) (size : UInt32)
  | parameter (line : UInt32) (name : String) (type : ValueType)
  | noParameters (line : UInt32)
  | function (line : UInt32) (name : String) (type : ValueType) (params : List NodeId)
    (body : NodeId)
  | block (line : UInt32) (declarations statements : List NodeId)
  | ifThen (line : UInt32) (condition thenBranch : NodeId) (elseBranch : Option NodeId)
  | whileDo (line : UInt32) (condition body : NodeId)
  | ret (line : UInt32) (value : Option NodeId)
  | operation (line : UInt32) (op : Operator) (left right : NodeId)
  | assignment (line : UInt32) (target value : NodeId)
  | constant (line : UInt32) (value : Int64)
  | identifier (line : UInt32) (name : String)
  | element (line : UInt32) (name : String) (index : NodeId)
  | call (line : UInt32) (callee : String) (args : List NodeId)
  deriving DecidableEq, Repr

namespace Assembly

def ofPart : Part → Assembly NodeId
  | .scalar line name type => scalar line name type
  | .array line name size => array line name size
  | .parameter line name type => parameter line name type
  | .noParameters line => noParameters line
  | .function line name type params body => function line name type params body
  | .block line declarations statements => block line declarations statements
  | .ifThen line condition thenBranch elseBranch => ifThen line condition thenBranch elseBranch
  | .whileDo line condition body => whileDo line condition body
  | .ret line value => ret line value
  | .operation line op left right => operation line op left right
  | .assignment line target value => assignment line target value
  | .constant line value => constant line value
  | .identifier line name => identifier line name
  | .element line name index => element line name index
  | .call line callee args => call line callee args

/-- Takes the steps in order; the nodes are what they give. -/
def ofParts (parts : List Part) : Assembly (List NodeId) := parts.mapM ofPart

end Assembly

namespace Tree

def addPart (tree : Tree) (part : Part) : Tree := ((Assembly.ofPart part).run tree).2

def finish (tree : Tree) (items : List NodeId) : Tree := ((Assembly.finish items).run tree).2

/-- The tree of a program that is put together from its parts, in order. -/
def ofParts (parts : List Part) (items : List NodeId) : Tree :=
  (((Assembly.ofParts parts).run empty).2).finish items

end Tree

end ScopeCheck
