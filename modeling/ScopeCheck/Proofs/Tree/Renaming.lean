import ScopeCheck.Proofs.Tree.Positions

namespace ScopeCheck

def Expression.rename (f : String → String) : Expression → Expression
  | .identifier name => .identifier (f name)
  | .element name => .element (f name)
  | .call callee => .call (f callee)
  | expr => expr

theorem Expression.rename_id (expr : Expression) : expr.rename (fun name => name) = expr := by
  cases expr <;> rfl

def Declaration.rename (f : String → String) (decl : Declaration) : Declaration :=
  { decl with name := f decl.name }

namespace Label

def rename (f : String → String) : Label → Label
  | statement stmt => statement stmt
  | expression expr => expression (expr.rename f)
  | declaration decl => declaration (decl.rename f)

def name? : Label → Option String
  | statement _ => none
  | expression expr => expr.name?
  | declaration decl => some decl.name

theorem rename_id (label : Label) : label.rename (fun name => name) = label := by
  cases label with
  | statement stmt => rfl
  | expression expr => rw [rename, expr.rename_id]
  | declaration decl => rfl

end Label

def Node.rename (f : String → String) (node : Node) : Node :=
  { node with label := node.label.rename f }

theorem Node.rename_id (node : Node) : node.rename (fun name => name) = node := by
  rw [rename, Label.rename_id]

namespace Event

def mapNode (change : NodeId → Node → Node) : Event → Event
  | enter id node => enter id (change id node)
  | leave id node => leave id (change id node)

theorem filterMap_entered?_mapNode (change : NodeId → Node → Node) (events : List Event) :
    (events.map (mapNode change)).filterMap entered? =
      (events.filterMap entered?).map fun item => (item.1, change item.1 item.2) := by
  rw [List.filterMap_map, List.map_filterMap]
  congr 1
  funext event
  cases event <;> rfl

theorem leftIds_mapNode (change : NodeId → Node → Node) (events : List Event) :
    leftIds (events.map (mapNode change)) = leftIds events := by
  induction events with
  | nil => rfl
  | cons event events ih =>
    cases event with
    | enter id node => exact ih
    | leave id node => exact congrArg (id :: ·) ih

end Event

namespace Forest

variable (change : NodeId → Node → Node)

def mapNodes : Forest → Forest
  | nil => nil
  | cons id node first second third rest =>
    cons id (change id node) first.mapNodes second.mapNodes third.mapNodes rest.mapNodes

theorem events_mapNodes (forest : Forest) :
    (forest.mapNodes change).events = forest.events.map (Event.mapNode change) := by
  induction forest with
  | nil => rfl
  | cons id node first second third rest ihFirst ihSecond ihThird ihRest =>
    simp [mapNodes, events_cons, Event.mapNode, ihFirst, ihSecond, ihThird, ihRest]

theorem mapNodes_eq_self {forest : Forest}
    (h : ∀ id node, (id, node) ∈ forest.entered → change id node = node) :
    forest.mapNodes change = forest := by
  induction forest with
  | nil => rfl
  | cons id node first second third rest ihFirst ihSecond ihThird ihRest =>
    simp only [entered_cons, List.mem_cons, List.mem_append] at h
    rw [mapNodes, h id node (.inl rfl),
      ihFirst fun other otherNode hmem => h other otherNode (.inr (.inl (.inl (.inl hmem)))),
      ihSecond fun other otherNode hmem => h other otherNode (.inr (.inl (.inl (.inr hmem)))),
      ihThird fun other otherNode hmem => h other otherNode (.inr (.inl (.inr hmem))),
      ihRest fun other otherNode hmem => h other otherNode (.inr (.inr hmem))]

end Forest

namespace Tree

/-- The tree with other names: `names` says what each name becomes, node by node. -/
def rename (names : NodeId → String → String) (tree : Tree) : Tree :=
  { tree with nodes := tree.nodes.mapIdx fun id node => node.rename (names id) }

variable (names : NodeId → String → String) (tree : Tree)

theorem size_rename : (tree.rename names).size = tree.size := by
  simp [rename, size]

theorem rename_id : tree.rename (fun _ name => name) = tree := by
  rw [rename]
  congr 1
  apply Array.ext_getElem?
  intro id
  rw [Array.getElem?_mapIdx]
  cases tree.nodes[id]? with
  | none => rfl
  | some node => rw [Option.map_some, node.rename_id]

theorem node?_rename (id : NodeId) :
    (tree.rename names).node? id = (tree.node? id).map (Node.rename (names id)) := by
  simp [rename, node?]

theorem forestUpTo_rename (fuel : Nat) (start : Option NodeId) :
    (tree.rename names).forestUpTo fuel start =
      (tree.forestUpTo fuel start).mapNodes fun id => Node.rename (names id) := by
  induction fuel generalizing start with
  | zero => rfl
  | succ fuel ih =>
    cases start with
    | none => rfl
    | some id =>
      simp only [forestUpTo, node?_rename]
      cases tree.node? id with
      | none => rfl
      | some node => simp only [Option.map_some, Forest.mapNodes, Node.rename, ih]

theorem eventsFrom_rename (start : Option NodeId) :
    (tree.rename names).eventsFrom start =
      (tree.eventsFrom start).map (Event.mapNode fun id => Node.rename (names id)) := by
  rw [eventsFrom, eventsFrom, size_rename, ← events_forestUpTo, forestUpTo_rename,
    Forest.events_mapNodes, events_forestUpTo]

theorem events_rename :
    (tree.rename names).events =
      tree.events.map (Event.mapNode fun id => Node.rename (names id)) :=
  eventsFrom_rename names tree tree.root

theorem chain_rename (start : Option NodeId) :
    (tree.rename names).chain start =
      (tree.chain start).map fun item => (item.1, item.2.rename (names item.1)) := by
  rw [chain, chain, size_rename]
  generalize tree.size = fuel
  induction fuel generalizing start with
  | zero => rfl
  | succ fuel ih =>
    cases start with
    | none => rfl
    | some id =>
      simp only [chainUpTo, node?_rename]
      cases tree.node? id with
      | none => rfl
      | some node => simp only [Option.map_some, List.map_cons, Node.rename, ih]

theorem wellLinked_mapIdx {change : NodeId → Node → Node} {tree : Tree} (h : tree.WellLinked)
    (hchange : ∀ id node, (change id node).links = node.links) :
    ({ tree with nodes := tree.nodes.mapIdx change } : Tree).WellLinked := by
  have hmap : (tree.nodes.mapIdx change).toList.map Node.links =
      tree.nodes.toList.map Node.links := by
    apply List.ext_getElem?
    intro id
    simp only [List.getElem?_map, Array.getElem?_toList, Array.getElem?_mapIdx]
    cases tree.nodes[id]? with
    | none => rfl
    | some node => simp only [Option.map_some, hchange]
  have hlinks : ({ tree with nodes := tree.nodes.mapIdx change } : Tree).links = tree.links := by
    rw [links, links, List.flatMap_def, List.flatMap_def, hmap]
  refine ⟨?_, hlinks ▸ h.nodup⟩
  rw [hlinks]
  simpa [size] using h.lt_size

variable {names tree}

theorem wellLinked_rename (h : tree.WellLinked) : (tree.rename names).WellLinked :=
  wellLinked_mapIdx h fun _ _ => rfl

end Tree

end ScopeCheck
