import Mathlib.Data.List.Induction
import Mathlib.Data.List.Perm.Basic
import ScopeCheck.Proofs.Tree.WellLinked
import ScopeCheck.Tree.Assembly

namespace ScopeCheck

theorem Slot.eq_zero_or_one_or_two : ∀ slot : Slot, slot = 0 ∨ slot = 1 ∨ slot = 2 := by
  decide

namespace Node

/-- The node as it is without its sibling. -/
def alone (node : Node) : Node := { node with sibling := none }

end Node

/-- A node as it is asked for: its label and line, and the list that each child slot leads to. -/
structure Outline where
  line : UInt32
  label : Label
  first : List NodeId
  second : List NodeId
  third : List NodeId

namespace Outline

def leaf (line : UInt32) (label : Label) : Outline := ⟨line, label, [], [], []⟩

def list : Outline → Slot → List NodeId
  | outline, 0 => outline.first
  | outline, 1 => outline.second
  | outline, 2 => outline.third

end Outline

namespace Part

/-- The nodes that a part is given, in order. -/
def members : Part → List NodeId
  | function _ _ _ params body => params ++ [body]
  | block _ declarations statements => declarations ++ statements
  | ifThen _ condition thenBranch elseBranch => [condition, thenBranch] ++ elseBranch.toList
  | whileDo _ condition body => [condition, body]
  | ret _ value => value.toList
  | operation _ _ left right => [left, right]
  | assignment _ target value => [target, value]
  | element _ _ index => [index]
  | call _ _ args => args
  | scalar .. | array .. | parameter .. | noParameters .. | constant .. | identifier .. => []

/-- The node that each part stands for. -/
def outline : Part → Outline
  | scalar line name type => .leaf line (.declaration ⟨.variable, name, type, none⟩)
  | array line name size => .leaf line (.declaration ⟨.variable, name, .array, some size⟩)
  | parameter line name type => .leaf line (.declaration ⟨.parameter, name, type, none⟩)
  | noParameters line => .leaf line (.declaration ⟨.parameter, "", .void, none⟩)
  | function line name type params body =>
    ⟨line, .declaration ⟨.function, name, type, none⟩, params, [body], []⟩
  | block line declarations statements => ⟨line, .statement .block, declarations, statements, []⟩
  | ifThen line condition thenBranch elseBranch =>
    ⟨line, .statement .ifThen, [condition], [thenBranch], elseBranch.toList⟩
  | whileDo line condition body => ⟨line, .statement .whileDo, [condition], [body], []⟩
  | ret line value => ⟨line, .statement .ret, value.toList, [], []⟩
  | operation line op left right => ⟨line, .expression (.operation op), [left], [right], []⟩
  | assignment line target value =>
    ⟨line, .expression (.operation .assign), [target], [value], []⟩
  | constant line value => .leaf line (.expression (.constant value))
  | identifier line name => .leaf line (.expression (.identifier name))
  | element line name index => ⟨line, .expression (.element name), [index], [], []⟩
  | call line callee args => ⟨line, .expression (.call callee), args, [], []⟩

def lists (part : Part) : List (List NodeId) :=
  [part.outline.first, part.outline.second, part.outline.third]

def children (part : Part) : Slots :=
  ⟨part.outline.first.head?, part.outline.second.head?, part.outline.third.head?⟩

/-- The node of a part before anything is linked behind it. -/
def toNode (part : Part) : Node := ⟨part.outline.label, part.outline.line, part.children, none⟩

/-- No node that is given is left out, and no other one is in the lists. -/
theorem flatten_lists (part : Part) : part.lists.flatten = part.members := by
  cases part <;> simp [lists, outline, Outline.leaf, members]

theorem flatten_flatMap_lists (parts : List Part) :
    (parts.flatMap lists).flatten = parts.flatMap members := by
  rw [List.flatMap_def, List.flatMap_def, List.flatten_flatten, List.map_map]
  exact congrArg (fun f => (parts.map f).flatten) (funext flatten_lists)

theorem links_children (part : Part) :
    part.children.links = part.lists.flatMap fun list => list.head?.toList := by
  rw [children, lists]
  cases part.outline.first <;> cases part.outline.second <;> cases part.outline.third <;> rfl

theorem list_mem_lists (part : Part) (slot : Slot) : part.outline.list slot ∈ part.lists := by
  obtain rfl | rfl | rfl := slot.eq_zero_or_one_or_two
  all_goals simp [Outline.list, lists]

theorem child_of_alone_eq {part : Part} {node : Node} (h : node.alone = part.toNode)
    (slot : Slot) : node.child slot = (part.outline.list slot).head? := by
  have hchildren : node.children = part.children := congrArg Node.children h
  rw [Node.child, hchildren]
  obtain rfl | rfl | rfl := slot.eq_zero_or_one_or_two
  all_goals rfl

end Part

namespace Tree

variable {tree after : Tree} {list : List NodeId}

/-- What starts with a node and goes on with its siblings is this list, to its end. -/
inductive Spells (tree : Tree) : Option NodeId → List NodeId → Prop
  | nil : Spells tree none []
  | cons {id : NodeId} {node : Node} {rest : List NodeId} (hnode : tree.node? id = some node)
    (hrest : Spells tree node.sibling rest) : Spells tree (some id) (id :: rest)

namespace Spells

variable {start : Option NodeId}

theorem chainUpTo_eq (h : tree.Spells start list) {fuel : Nat} (hfuel : list.length ≤ fuel) :
    (tree.chainUpTo fuel start).map Prod.fst = list := by
  induction h generalizing fuel with
  | nil => cases fuel <;> rfl
  | cons hnode _ ih =>
    rw [List.length_cons] at hfuel
    obtain ⟨fuel, rfl⟩ := Nat.exists_eq_add_one_of_ne_zero (by omega : fuel ≠ 0)
    simp only [chainUpTo, hnode, List.map_cons, ih (by omega : _ ≤ fuel)]

theorem lt_size (h : tree.Spells start list) {id : NodeId} (hmem : id ∈ list) : id < tree.size := by
  induction h with
  | nil => cases hmem
  | cons hnode _ ih =>
    rcases List.mem_cons.mp hmem with rfl | hmem
    · exact (Array.getElem?_eq_some_iff.mp hnode).1
    · exact ih hmem

theorem chain_eq (h : tree.Spells start list) (hnodup : list.Nodup) :
    (tree.chain start).map Prod.fst = list := by
  have hsubset : list ⊆ List.range tree.size := fun _ hmem => List.mem_range.mpr (h.lt_size hmem)
  exact h.chainUpTo_eq (by simpa using hnodup.length_le_of_subset hsubset)

theorem of_node? (h : tree.Spells start list)
    (hsame : ∀ id ∈ list, after.node? id = tree.node? id) : after.Spells start list := by
  induction h with
  | nil => exact .nil
  | @cons id _ _ hnode _ ih =>
    have hrest := ih fun id hmem => hsame id (List.mem_cons_of_mem _ hmem)
    exact .cons ((hsame id List.mem_cons_self).trans hnode) hrest

end Spells

theorem node?_setSibling (tree : Tree) (id other : NodeId) (next : Option NodeId) :
    (tree.setSibling id next).node? other =
      if id = other then (tree.node? other).map ({ · with sibling := next }) else tree.node? other :=
  Array.getElem?_modify

theorem filterMap_sibling_modify {nodes : List Node} {id next : NodeId} {node : Node}
    (hnode : nodes[id]? = some node) (hfree : node.sibling = none) :
    ((nodes.modify id ({ · with sibling := some next })).filterMap Node.sibling).Perm
      (next :: nodes.filterMap Node.sibling) := by
  induction nodes generalizing id with
  | nil => cases hnode
  | cons head nodes ih =>
    cases id with
    | zero =>
      cases hnode
      simp [hfree]
    | succ id =>
      have hrest : ((nodes.modify id ({ · with sibling := some next })).filterMap Node.sibling).Perm
          (next :: nodes.filterMap Node.sibling) := ih (by simpa using hnode)
      rw [List.modify_succ_cons]
      cases hsibling : head.sibling with
      | none => simpa [hsibling] using hrest
      | some other => simpa [hsibling] using (hrest.cons other).trans (.swap next other _)

theorem siblings_setSibling {id next : NodeId} {node : Node} (hnode : tree.node? id = some node)
    (hfree : node.sibling = none) :
    (tree.setSibling id (some next)).siblings.Perm (next :: tree.siblings) := by
  rw [siblings, siblings, setSibling, modifyNode, Array.toList_modify]
  exact filterMap_sibling_modify (by simpa [node?] using hnode) hfree

theorem map_alone_setSibling (tree : Tree) (id : NodeId) (next : Option NodeId) :
    (tree.setSibling id next).nodes.toList.map Node.alone = tree.nodes.toList.map Node.alone := by
  rw [setSibling, modifyNode, Array.toList_modify]
  refine List.ext_getElem? fun other => ?_
  simp only [List.getElem?_map, List.getElem?_modify]
  cases tree.nodes.toList[other]? with
  | none => rfl
  | some node =>
    by_cases h : id = other <;> simp [h, Node.alone]

/-- What linking a list does: its nodes are linked in order, and nothing else changes. -/
structure Chains (tree after : Tree) (list : List NodeId) : Prop where
  root : after.root = tree.root
  alone : after.nodes.toList.map Node.alone = tree.nodes.toList.map Node.alone
  frame : ∀ id ∉ list, after.node? id = tree.node? id
  spells : after.Spells list.head? list
  siblings : after.siblings.Perm (list.tail ++ tree.siblings)

theorem Chains.size (h : Chains tree after list) : after.size = tree.size := by
  simpa [Tree.size] using congrArg List.length h.alone

theorem chains_link (hnodup : list.Nodup)
    (hfree : ∀ id ∈ list, ∃ node, tree.node? id = some node ∧ node.sibling = none) :
    Chains tree (tree.link list) list := by
  induction list generalizing tree with
  | nil => exact ⟨rfl, rfl, fun _ _ => rfl, .nil, .refl _⟩
  | cons id list ih =>
    obtain ⟨node, hnode, hsibling⟩ := hfree id List.mem_cons_self
    obtain ⟨hnot, hrest⟩ := List.nodup_cons.mp hnodup
    cases list with
    | nil =>
      refine ⟨rfl, rfl, fun _ _ => rfl, .cons hnode ?_, .refl _⟩
      rw [hsibling]
      exact .nil
    | cons next list =>
      have hlinked : Chains (tree.setSibling id (some next))
          ((tree.setSibling id (some next)).link (next :: list)) (next :: list) := by
        refine ih hrest fun other hother => ?_
        rw [node?_setSibling, if_neg (by rintro rfl; exact hnot hother)]
        exact hfree other (List.mem_cons_of_mem _ hother)
      have hhead : (tree.link (id :: next :: list)).node? id =
          some { node with sibling := some next } := by
        rw [link, hlinked.frame id hnot, node?_setSibling, if_pos rfl, hnode]
        rfl
      refine ⟨hlinked.root, hlinked.alone.trans (map_alone_setSibling ..), fun other hother => ?_,
        .cons hhead hlinked.spells, ?_⟩
      · rw [List.mem_cons, not_or] at hother
        rw [link, hlinked.frame other hother.2, node?_setSibling, if_neg (Ne.symm hother.1)]
      · have hfirst : (tree.setSibling id (some next)).siblings.Perm (next :: tree.siblings) :=
          siblings_setSibling hnode hsibling
        exact hlinked.siblings.trans ((hfirst.append_left _).trans List.perm_middle)

/-- The lists have been linked in a tree, and no others. -/
structure Linked (tree : Tree) (lists : List (List NodeId)) : Prop where
  spells : ∀ list ∈ lists, tree.Spells list.head? list
  free : ∀ id node, tree.node? id = some node → id ∉ lists.flatten → node.sibling = none
  siblings : tree.siblings.Perm (lists.flatMap List.tail)

namespace Linked

variable {lists : List (List NodeId)}

theorem empty : empty.Linked [] := ⟨nofun, fun _ _ h => by simp [node?, Tree.empty] at h, .refl _⟩

theorem push (h : tree.Linked lists) {node : Node} (hnode : node.sibling = none) :
    ({ tree with nodes := tree.nodes.push node } : Tree).Linked lists where
  spells list hlist := by
    have hspells := h.spells list hlist
    refine hspells.of_node? fun id hmem => ?_
    exact Array.getElem?_push_lt (hspells.lt_size hmem) |>.trans
      (Array.getElem?_eq_getElem (hspells.lt_size hmem)).symm
  free id other hother hnot := by
    simp only [node?, Array.getElem?_push] at hother
    split at hother
    · cases hother
      exact hnode
    · exact h.free id other hother hnot
  siblings := by simpa [Tree.siblings, hnode] using h.siblings

theorem link (h : tree.Linked lists) (hnodup : (lists.flatten ++ list).Nodup)
    (hlt : ∀ id ∈ list, id < tree.size) :
    (tree.link list).Linked (lists ++ [list]) ∧ Chains tree (tree.link list) list := by
  obtain ⟨-, hlist, hdisjoint⟩ := List.nodup_append.mp hnodup
  have hout : ∀ id ∈ list, id ∉ lists.flatten := fun id hid hmem => hdisjoint id hmem id hid rfl
  have hchains : Chains tree (tree.link list) list := by
    refine chains_link hlist fun id hid => ?_
    obtain ⟨node, hnode⟩ : ∃ node, tree.node? id = some node :=
      ⟨_, Array.getElem?_eq_getElem (hlt id hid)⟩
    exact ⟨node, hnode, h.free id node hnode (hout id hid)⟩
  refine ⟨⟨?_, ?_, ?_⟩, hchains⟩
  · rw [List.forall_mem_append]
    refine ⟨fun other hother => ?_, by simpa using hchains.spells⟩
    refine (h.spells other hother).of_node? fun id hid => hchains.frame id fun hmem => ?_
    exact hout id hmem (List.mem_flatten.mpr ⟨other, hother, hid⟩)
  · intro id node hnode hnot
    rw [List.flatten_concat, List.mem_append, not_or] at hnot
    rw [hchains.frame id hnot.2] at hnode
    exact h.free id node hnode hnot.1
  · rw [List.flatMap_append, List.flatMap_singleton]
    exact hchains.siblings.trans ((h.siblings.append_left _).trans List.perm_append_comm)

theorem foldl_link (h : tree.Linked lists) {more : List (List NodeId)}
    (hnodup : (lists.flatten ++ more.flatten).Nodup) (hlt : ∀ id ∈ more.flatten, id < tree.size) :
    (more.foldl Tree.link tree).Linked (lists ++ more) ∧
      (more.foldl Tree.link tree).root = tree.root ∧
      (more.foldl Tree.link tree).nodes.toList.map Node.alone =
        tree.nodes.toList.map Node.alone := by
  induction more generalizing tree lists with
  | nil => exact ⟨by simpa using h, rfl, rfl⟩
  | cons list more ih =>
    rw [List.flatten_cons] at hnodup hlt
    rw [List.forall_mem_append] at hlt
    rw [← List.append_assoc] at hnodup
    obtain ⟨hlinked, hchains⟩ := h.link (List.nodup_append.mp hnodup).1 hlt.1
    obtain ⟨hall, hroot, halone⟩ := ih hlinked (by simpa using hnodup)
      (by rw [hchains.size]; exact hlt.2)
    rw [List.append_assoc, List.singleton_append] at hall
    exact ⟨hall, hroot.trans hchains.root, halone.trans hchains.alone⟩

end Linked

def push (tree : Tree) (node : Node) : Tree := { tree with nodes := tree.nodes.push node }

theorem setChild_push (tree : Tree) (node : Node) (slot : Slot) (child : Option NodeId) :
    (tree.push node).setChild tree.size slot child =
      tree.push { node with children := node.children.set slot child } := by
  simp only [setChild, modifyNode, push, Tree.mk.injEq, and_true]
  apply Array.ext_getElem?
  intro id
  simp only [Array.getElem?_modify, Array.getElem?_push, size, eq_comm (a := id)]
  by_cases h : tree.nodes.size = id <;> simp [h]

theorem setChild_setSibling (tree : Tree) (parent id : NodeId) (slot : Slot)
    (child next : Option NodeId) :
    (tree.setSibling id next).setChild parent slot child =
      (tree.setChild parent slot child).setSibling id next := by
  simp only [setChild, setSibling, modifyNode, Tree.mk.injEq, and_true]
  apply Array.ext_getElem?
  intro other
  simp only [Array.getElem?_modify]
  split <;> split <;> simp [Function.comp_def]

theorem setChild_link (tree : Tree) (list : List NodeId) (parent : NodeId) (slot : Slot)
    (child : Option NodeId) :
    (tree.link list).setChild parent slot child =
      (tree.setChild parent slot child).link list := by
  induction tree, list using link.induct with
  | case1 tree id next rest ih => rw [link, ih, setChild_setSibling, link]
  | case2 tree list hshort =>
    unfold link
    split
    · exact absurd rfl (hshort _ _ _)
    · rfl

/-- A step adds one node with its links, and links its lists; it does not matter which of the links
are set first. -/
theorem run_ofPart (tree : Tree) (part : Part) :
    (Assembly.ofPart part).run tree = (tree.size, part.lists.foldl link (tree.push part.toNode)) := by
  cases part with
  | function line name type params body =>
    change (tree.size,
      (((tree.push _).link params).setChild tree.size .first _).setChild _ .second _) = _
    rw [setChild_link, setChild_link, setChild_push, setChild_push]
    rfl
  | block line declarations statements =>
    change (tree.size, ((((tree.push _).link declarations).link statements).setChild
      tree.size .first _).setChild _ .second _) = _
    rw [setChild_link, setChild_link, setChild_link, setChild_link, setChild_push, setChild_push]
    rfl
  | ifThen line condition thenBranch elseBranch =>
    change (tree.size, (((tree.push _).setChild tree.size .first _).setChild _ .second _).setChild
      _ .third elseBranch) = _
    rw [setChild_push, setChild_push, setChild_push]
    cases elseBranch <;> rfl
  | ret line value =>
    change (tree.size, (tree.push _).setChild tree.size .first value) = _
    rw [setChild_push]
    cases value <;> rfl
  | whileDo line first second | operation line _ first second | assignment line first second =>
    change (tree.size, ((tree.push _).setChild tree.size .first _).setChild _ .second _) = _
    rw [setChild_push, setChild_push]
    rfl
  | element line name index =>
    change (tree.size, (tree.push _).setChild tree.size .first _) = _
    rw [setChild_push]
    rfl
  | call line callee args =>
    change (tree.size, ((tree.push _).link args).setChild tree.size .first _) = _
    rw [setChild_link, setChild_push]
    rfl
  | scalar | array | parameter | noParameters | constant | identifier => rfl

theorem addPart_eq (tree : Tree) (part : Part) :
    tree.addPart part = part.lists.foldl link (tree.push part.toNode) := by
  rw [addPart, run_ofPart]

theorem size_link (tree : Tree) (list : List NodeId) : (tree.link list).size = tree.size := by
  induction tree, list using link.induct with
  | case1 tree id next rest ih => rw [link, ih, setSibling, modifyNode, size, Array.size_modify, size]
  | case2 tree list hshort =>
    unfold link
    split
    · exact absurd rfl (hshort _ _ _)
    · rfl

theorem size_addPart (tree : Tree) (part : Part) : (tree.addPart part).size = tree.size + 1 := by
  rw [addPart_eq]
  simp only [Part.lists, List.foldl_cons, List.foldl_nil, size_link]
  exact Array.size_push _

/-- The steps give the numbers of the nodes that they add, one after the other. -/
theorem run_ofParts (tree : Tree) (parts : List Part) :
    (Assembly.ofParts parts).run tree =
      (List.range' tree.size parts.length, parts.foldl addPart tree) := by
  induction parts generalizing tree with
  | nil => rfl
  | cons part parts ih =>
    have hfirst : (Assembly.ofPart part).run tree = (tree.size, tree.addPart part) := by
      rw [run_ofPart, addPart_eq]
    have hrest := ih (tree.addPart part)
    rw [size_addPart] at hrest
    rw [Assembly.ofParts, List.mapM_cons, StateT.run_bind, hfirst]
    change (tree.size :: ((Assembly.ofParts parts).run (tree.addPart part)).1,
      ((Assembly.ofParts parts).run (tree.addPart part)).2) = _
    rw [hrest]
    rfl

/-- The nodes that some steps give. -/
def partIds (parts : List Part) : List NodeId := ((Assembly.ofParts parts).run empty).1

theorem partIds_eq (parts : List Part) : partIds parts = List.range parts.length := by
  rw [partIds, run_ofParts]
  exact List.range_eq_range'.symm

theorem linked_addPart {lists : List (List NodeId)} (h : tree.Linked lists) {part : Part}
    (hlt : ∀ id ∈ part.members, id < tree.size)
    (hnodup : (lists.flatten ++ part.members).Nodup) :
    (tree.addPart part).Linked (lists ++ part.lists) ∧ (tree.addPart part).root = tree.root ∧
      (tree.addPart part).nodes.toList.map Node.alone =
        tree.nodes.toList.map Node.alone ++ [part.toNode] := by
  rw [← part.flatten_lists] at hlt hnodup
  have hpush : (tree.push part.toNode).Linked lists := h.push rfl
  obtain ⟨hlinked, hroot, halone⟩ := hpush.foldl_link hnodup fun id hid => by
    rw [size, push, Array.size_push]
    exact Nat.lt_succ_of_lt (hlt id hid)
  rw [addPart_eq]
  refine ⟨hlinked, hroot, halone.trans ?_⟩
  rw [push, Array.toList_push, List.map_append]
  rfl

theorem linked_foldl_addPart {parts : List Part}
    (hearlier : ∀ (i : Nat) (part : Part), parts[i]? = some part → ∀ id ∈ part.members, id < i)
    (honce : (parts.flatMap Part.members).Nodup) :
    (parts.foldl addPart empty).Linked (parts.flatMap Part.lists) ∧
      (parts.foldl addPart empty).root = none ∧
      (parts.foldl addPart empty).nodes.toList.map Node.alone = parts.map Part.toNode := by
  induction parts using List.reverseRecOn with
  | nil => exact ⟨.empty, rfl, rfl⟩
  | append_singleton parts part ih =>
    rw [List.flatMap_append, List.flatMap_singleton] at honce
    have hbefore : ∀ (i : Nat) (part : Part), parts[i]? = some part → ∀ id ∈ part.members, id < i :=
      fun i other hother => hearlier i other (List.getElem?_append_left
        (List.getElem?_eq_some_iff.mp hother).1 ▸ hother)
    obtain ⟨hlinked, hroot, halone⟩ := ih hbefore (List.nodup_append.mp honce).1
    have hsize : (parts.foldl addPart empty).size = parts.length := by
      simpa [size] using congrArg List.length halone
    have hlast := hearlier parts.length part (by simp)
    rw [← hsize] at hlast
    rw [← Part.flatten_flatMap_lists] at honce
    obtain ⟨hall, hroot', halone'⟩ := linked_addPart hlinked hlast honce
    rw [List.foldl_concat, List.flatMap_append, List.flatMap_singleton, List.map_append]
    exact ⟨hall, hroot'.trans hroot, halone'.trans (by rw [halone]; rfl)⟩

section OfParts

variable {parts : List Part} {items : List NodeId}

theorem ofParts_eq : ofParts parts items =
    ((parts.foldl addPart empty).link items).setRoot items.head? := by
  rw [ofParts, run_ofParts]
  rfl

theorem linked_ofParts
    (hearlier : ∀ (i : Nat) (part : Part), parts[i]? = some part → ∀ id ∈ part.members, id < i)
    (hitems : ∀ id ∈ items, id < parts.length)
    (honce : (parts.flatMap Part.members ++ items).Nodup) :
    (ofParts parts items).Linked (parts.flatMap Part.lists ++ [items]) ∧
      (ofParts parts items).root = items.head? ∧
      (ofParts parts items).nodes.toList.map Node.alone = parts.map Part.toNode := by
  obtain ⟨hlinked, -, halone⟩ := linked_foldl_addPart hearlier (List.nodup_append.mp honce).1
  have hsize : (parts.foldl addPart empty).size = parts.length := by
    simpa [size] using congrArg List.length halone
  rw [← Part.flatten_flatMap_lists] at honce
  rw [← hsize] at hitems
  obtain ⟨hall, hchains⟩ := hlinked.link honce hitems
  rw [ofParts_eq]
  refine ⟨⟨fun list hlist => (hall.spells list hlist).of_node? fun _ _ => rfl, hall.free,
    hall.siblings⟩, rfl, hchains.alone.trans halone⟩

section

variable (hearlier : ∀ (i : Nat) (part : Part), parts[i]? = some part → ∀ id ∈ part.members, id < i)
  (hitems : ∀ id ∈ items, id < parts.length)
  (honce : (parts.flatMap Part.members ++ items).Nodup)

include hearlier hitems honce

theorem links_ofParts_perm :
    (ofParts parts items).links.Perm (parts.flatMap Part.members ++ items) := by
  obtain ⟨hlinked, hroot, halone⟩ := linked_ofParts hearlier hitems honce
  have hchildren : (ofParts parts items).nodes.toList.flatMap (fun node => node.children.links) =
      (parts.flatMap Part.lists).flatMap fun list => list.head?.toList := by
    have hflat : ((ofParts parts items).nodes.toList.map Node.alone).flatMap
        (fun node => node.children.links) =
          (ofParts parts items).nodes.toList.flatMap fun node => node.children.links :=
      List.flatMap_map ..
    rw [← hflat, halone, List.flatMap_map, List.flatMap_assoc]
    exact congrArg (parts.flatMap ·) (funext Part.links_children)
  have hheads : (items.head?.toList
      ++ (parts.flatMap Part.lists).flatMap fun list => list.head?.toList).Perm
        ((parts.flatMap Part.lists ++ [items]).flatMap fun list => list.head?.toList) := by
    rw [List.flatMap_append, List.flatMap_singleton]
    exact List.perm_append_comm
  calc (ofParts parts items).links.Perm _ := links_perm _
    _ = _ := by rw [hroot, hchildren, ← List.append_assoc]
    (_ : List NodeId).Perm _ := hheads.append hlinked.siblings
    (_ : List NodeId).Perm _ := heads_append_tails_perm _
    _ = _ := by simp [Part.flatten_flatMap_lists]

theorem wellLinked_ofParts : (ofParts parts items).WellLinked := by
  obtain ⟨-, -, halone⟩ := linked_ofParts hearlier hitems honce
  have hperm := links_ofParts_perm hearlier hitems honce
  have hsize : (ofParts parts items).size = parts.length := by
    simpa [size] using congrArg List.length halone
  refine ⟨fun target htarget => ?_, hperm.nodup_iff.mpr honce⟩
  rw [hsize]
  rcases List.mem_append.mp (hperm.mem_iff.mp htarget) with hmem | hmem
  · obtain ⟨part, hpart, hmember⟩ := List.mem_flatMap.mp hmem
    obtain ⟨i, hi⟩ := List.getElem?_of_mem hpart
    exact Nat.lt_trans (hearlier i part hi target hmember) (List.getElem?_eq_some_iff.mp hi).1
  · exact hitems target hmem

/-- The lists behind each node and behind the root are the ones that were given. -/
theorem lists_ofParts :
    (∀ (i : Nat) (part : Part), parts[i]? = some part → ∃ node,
      (ofParts parts items).node? i = some node ∧ node.label = part.outline.label ∧
        node.line = part.outline.line ∧
        ∀ slot, node.child slot = (part.outline.list slot).head? ∧
          ((ofParts parts items).list node slot).map Prod.fst = part.outline.list slot) ∧
      ((ofParts parts items).chain (ofParts parts items).root).map Prod.fst = items := by
  obtain ⟨hlinked, hroot, halone⟩ := linked_ofParts hearlier hitems honce
  have hnodup : ((parts.flatMap Part.lists) ++ [items]).flatten.Nodup := by
    rwa [List.flatten_concat, Part.flatten_flatMap_lists]
  have hchain : ∀ list ∈ parts.flatMap Part.lists ++ [items],
      ((ofParts parts items).chain list.head?).map Prod.fst = list := fun list hlist =>
    (hlinked.spells list hlist).chain_eq ((List.pairwise_flatten.mp hnodup).1 list hlist)
  refine ⟨fun i part hpart => ?_, by rw [hroot]; exact hchain items (by simp)⟩
  obtain ⟨node, hnode, heq⟩ : ∃ node, (ofParts parts items).node? i = some node ∧
      node.alone = part.toNode := by
    have hplace := congrArg (fun nodes : List Node => nodes[i]?) halone
    simpa [hpart, node?] using hplace
  refine ⟨node, hnode, congrArg Node.label heq, congrArg Node.line heq, fun slot => ?_⟩
  have hchild : node.child slot = (part.outline.list slot).head? := Part.child_of_alone_eq heq slot
  refine ⟨hchild, ?_⟩
  rw [list, hchild]
  apply hchain
  exact List.mem_append_left _ (List.mem_flatMap.mpr
    ⟨part, List.mem_of_getElem? hpart, part.list_mem_lists slot⟩)

end

end OfParts

end Tree

end ScopeCheck
