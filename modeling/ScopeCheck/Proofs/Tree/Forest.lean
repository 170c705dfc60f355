import ScopeCheck.Tree.Walk

namespace ScopeCheck

/-- A list of nodes in sibling order, each with the lists in its child slots. -/
inductive Forest where
  | nil
  | cons (id : NodeId) (node : Node) (first second third rest : Forest)

namespace Event

def entered? : Event → Option (NodeId × Node)
  | enter id node => some (id, node)
  | leave .. => none

def left? : Event → Option (NodeId × Node)
  | enter .. => none
  | leave id node => some (id, node)

end Event

namespace Forest

def events : Forest → List Event
  | nil => []
  | cons id node first second third rest =>
    .enter id node :: (first.events ++ second.events ++ third.events
      ++ .leave id node :: rest.events)

def entered (forest : Forest) : List (NodeId × Node) := forest.events.filterMap Event.entered?

def left (forest : Forest) : List (NodeId × Node) := forest.events.filterMap Event.left?

def ids (forest : Forest) : List NodeId := forest.entered.map Prod.fst

/-- The members of the outermost list. -/
def spine : Forest → List (NodeId × Node)
  | nil => []
  | cons id node _ _ _ rest => (id, node) :: rest.spine

@[simp]
theorem events_nil : nil.events = [] := rfl

theorem events_cons (id : NodeId) (node : Node) (first second third rest : Forest) :
    (cons id node first second third rest).events =
      .enter id node :: (first.events ++ second.events ++ third.events
        ++ .leave id node :: rest.events) := rfl

@[simp]
theorem entered_nil : nil.entered = [] := rfl

@[simp]
theorem entered_cons (id : NodeId) (node : Node) (first second third rest : Forest) :
    (cons id node first second third rest).entered =
      (id, node) :: (first.entered ++ second.entered ++ third.entered ++ rest.entered) := by
  simp [entered, events_cons, List.filterMap_cons, Event.entered?]

@[simp]
theorem left_nil : nil.left = [] := rfl

@[simp]
theorem left_cons (id : NodeId) (node : Node) (first second third rest : Forest) :
    (cons id node first second third rest).left =
      first.left ++ second.left ++ third.left ++ (id, node) :: rest.left := by
  simp [left, events_cons, List.filterMap_cons, Event.left?]

@[simp]
theorem ids_nil : nil.ids = [] := rfl

@[simp]
theorem ids_cons (id : NodeId) (node : Node) (first second third rest : Forest) :
    (cons id node first second third rest).ids =
      id :: (first.ids ++ second.ids ++ third.ids ++ rest.ids) := by
  simp [ids]

theorem mem_entered {forest : Forest} {id : NodeId} {node : Node} :
    (id, node) ∈ forest.entered ↔ .enter id node ∈ forest.events := by
  simp only [entered, List.mem_filterMap]
  constructor
  · rintro ⟨event, hmem, hevent⟩
    cases event with
    | enter other otherNode =>
      cases hevent
      exact hmem
    | leave other otherNode => cases hevent
  · intro h
    exact ⟨_, h, rfl⟩

theorem id_mem_ids {forest : Forest} {id : NodeId} {node : Node}
    (h : (id, node) ∈ forest.entered) : id ∈ forest.ids :=
  List.mem_map_of_mem h

/-- What is entered is left, and nothing else is. -/
theorem left_perm_entered (forest : Forest) : forest.left.Perm forest.entered := by
  induction forest with
  | nil => exact .refl _
  | cons id node first second third rest ihFirst ihSecond ihThird ihRest =>
    rw [left_cons, entered_cons]
    -- A node is entered before the lists in its child slots, and left after them.
    refine List.perm_middle.trans (.cons _ ?_)
    exact ((ihFirst.append ihSecond).append ihThird).append ihRest

theorem spine_subset (forest : Forest) : forest.spine ⊆ forest.entered := by
  induction forest with
  | nil => exact List.nil_subset _
  | cons id node first second third rest _ _ _ ih =>
    intro item hitem
    rw [spine] at hitem
    rw [entered_cons]
    rcases List.mem_cons.mp hitem with rfl | hitem
    · exact List.mem_cons_self
    · exact List.mem_cons_of_mem _ (List.mem_append_right _ (ih hitem))

theorem length_spine_le (forest : Forest) : forest.spine.length ≤ forest.ids.length := by
  induction forest with
  | nil => exact Nat.le_refl _
  | cons id node first second third rest _ _ _ ih =>
    simp only [spine, ids_cons, List.length_cons, List.length_append]
    omega

def append : Forest → Forest → Forest
  | nil, tail => tail
  | cons id node first second third rest, tail =>
    cons id node first second third (rest.append tail)

theorem events_append (forest tail : Forest) :
    (forest.append tail).events = forest.events ++ tail.events := by
  induction forest with
  | nil => rfl
  | cons id node first second third rest _ _ _ ihRest =>
    simp [append, events_cons, ihRest]

theorem ids_append (forest tail : Forest) : (forest.append tail).ids = forest.ids ++ tail.ids := by
  rw [ids, entered, events_append, List.filterMap_append, List.map_append]
  rfl

end Forest

namespace Tree

/-- The part of a tree whose paths of child and sibling links are shorter than `fuel`. -/
def forestUpTo (tree : Tree) : Nat → Option NodeId → Forest
  | 0, _ => .nil
  | _, none => .nil
  | fuel + 1, some id =>
    match tree.node? id with
    | none => .nil
    | some node =>
      .cons id node (tree.forestUpTo fuel node.children.first)
        (tree.forestUpTo fuel node.children.second) (tree.forestUpTo fuel node.children.third)
        (tree.forestUpTo fuel node.sibling)

/-- What the root leads to. -/
def forest (tree : Tree) : Forest := tree.forestUpTo tree.size tree.root

theorem events_forestUpTo (tree : Tree) (fuel : Nat) (first : Option NodeId) :
    (tree.forestUpTo fuel first).events = tree.eventsUpTo fuel first := by
  induction fuel generalizing first with
  | zero => rfl
  | succ fuel ih =>
    cases first with
    | none => rfl
    | some id =>
      simp only [forestUpTo, eventsUpTo]
      cases tree.node? id with
      | none => rfl
      | some node => simp only [Forest.events_cons, ih]

theorem events_forest (tree : Tree) : tree.forest.events = tree.events :=
  events_forestUpTo tree tree.size tree.root

/-- The forest has every node that `first` leads to, and every node where the links have it. -/
inductive Unfolds (tree : Tree) : Option NodeId → Forest → Prop
  | nil : Unfolds tree none .nil
  | cons {id : NodeId} {node : Node} {first second third rest : Forest}
      (hnode : tree.node? id = some node) (hfirst : Unfolds tree node.children.first first)
      (hsecond : Unfolds tree node.children.second second)
      (hthird : Unfolds tree node.children.third third) (hrest : Unfolds tree node.sibling rest) :
      Unfolds tree (some id) (.cons id node first second third rest)

namespace Unfolds

variable {tree : Tree} {start : Option NodeId} {forest : Forest}

theorem unique {other : Forest} (h : tree.Unfolds start forest) (h' : tree.Unfolds start other) :
    forest = other := by
  induction h generalizing other with
  | nil =>
    cases h'
    rfl
  | cons hnode _ _ _ _ ihFirst ihSecond ihThird ihRest =>
    cases h' with
    | cons hnode' hfirst hsecond hthird hrest =>
      obtain rfl : _ = _ := Option.some.inj (hnode.symm.trans hnode')
      rw [ihFirst hfirst, ihSecond hsecond, ihThird hthird, ihRest hrest]

theorem node_of_mem (h : tree.Unfolds start forest) {id : NodeId} {node : Node}
    (hmem : (id, node) ∈ forest.entered) : tree.node? id = some node := by
  induction h with
  | nil => cases hmem
  | cons hnode _ _ _ _ ihFirst ihSecond ihThird ihRest =>
    simp only [Forest.entered_cons, List.mem_cons, List.mem_append] at hmem
    rcases hmem with heq | ((hmem | hmem) | hmem) | hmem
    · cases heq
      exact hnode
    · exact ihFirst hmem
    · exact ihSecond hmem
    · exact ihThird hmem
    · exact ihRest hmem

theorem lt_size_of_mem (h : tree.Unfolds start forest) {id : NodeId} (hmem : id ∈ forest.ids) :
    id < tree.size := by
  obtain ⟨⟨_, node⟩, hentered, rfl⟩ := List.mem_map.mp hmem
  obtain ⟨hlt, -⟩ := Array.getElem?_eq_some_iff.mp (h.node_of_mem hentered)
  exact hlt

/-- A forest that has everything is what is read off the links with fuel for its length. -/
theorem forestUpTo_eq (h : tree.Unfolds start forest) {fuel : Nat}
    (hfuel : forest.ids.length ≤ fuel) : tree.forestUpTo fuel start = forest := by
  induction h generalizing fuel with
  | nil => cases fuel <;> rfl
  | cons hnode _ _ _ _ ihFirst ihSecond ihThird ihRest =>
    simp only [Forest.ids_cons, List.length_cons, List.length_append] at hfuel
    obtain ⟨fuel, rfl⟩ := Nat.exists_eq_add_one_of_ne_zero (by omega : fuel ≠ 0)
    rw [forestUpTo, hnode]
    simp only
    rw [ihFirst (by omega), ihSecond (by omega), ihThird (by omega), ihRest (by omega)]

theorem chainUpTo_eq (h : tree.Unfolds start forest) {fuel : Nat}
    (hfuel : forest.spine.length ≤ fuel) : tree.chainUpTo fuel start = forest.spine := by
  induction h generalizing fuel with
  | nil => cases fuel <;> rfl
  | cons hnode _ _ _ _ _ _ _ ihRest =>
    simp only [Forest.spine, List.length_cons] at hfuel ⊢
    obtain ⟨fuel, rfl⟩ := Nat.exists_eq_add_one_of_ne_zero (by omega : fuel ≠ 0)
    rw [chainUpTo, hnode]
    simp only
    rw [ihRest (by omega)]

end Unfolds

end Tree

end ScopeCheck
