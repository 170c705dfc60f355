import Mathlib.Data.List.Nodup
import Mathlib.Data.List.Perm.Basic
import Mathlib.Logic.Equiv.Basic
import ScopeCheck.Proofs.Tree.Interior
import ScopeCheck.Proofs.Tree.Renaming

namespace ScopeCheck

open Equiv (swap)

theorem Slots.exists_of_mem_links {slots : Slots} {link : NodeId} (h : link ∈ slots.links) :
    ∃ slot, slots.get slot = some link := by
  obtain ⟨child, hchild, hlink⟩ := List.mem_filterMap.mp h
  simp only [toList, List.mem_cons, List.not_mem_nil, or_false] at hchild
  rcases hchild with rfl | rfl | rfl
  · exact ⟨0, hlink⟩
  · exact ⟨1, hlink⟩
  · exact ⟨2, hlink⟩

namespace Forest

theorem ids_mapNodes (change : NodeId → Node → Node) (forest : Forest) :
    (forest.mapNodes change).ids = forest.ids := by
  rw [ids, entered, events_mapNodes, Event.filterMap_entered?_mapNode, List.map_map]
  rfl

theorem spine_append (forest tail : Forest) :
    (forest.append tail).spine = forest.spine ++ tail.spine := by
  induction forest with
  | nil => rfl
  | cons id node _ _ _ rest _ _ _ ihRest => rw [append, spine, spine, ihRest, List.cons_append]

theorem map_fst_spine_mapNodes (change : NodeId → Node → Node) (forest : Forest) :
    (forest.mapNodes change).spine.map Prod.fst = forest.spine.map Prod.fst := by
  induction forest with
  | nil => rfl
  | cons id node _ _ _ rest _ _ _ ihRest =>
    rw [mapNodes, spine, spine, List.map_cons, List.map_cons, ihRest]

theorem exists_append_of_mem_spine {forest : Forest} {id : NodeId} {node : Node}
    (h : (id, node) ∈ forest.spine) :
    ∃ before first second third rest,
      forest = append before (cons id node first second third rest) := by
  induction forest with
  | nil => cases h
  | cons top topNode first second third rest _ _ _ ihRest =>
    rcases List.mem_cons.mp h with heq | h
    · cases heq
      exact ⟨nil, first, second, third, rest, rfl⟩
    · obtain ⟨before, f, s, t, r, rfl⟩ := ihRest h
      exact ⟨cons top topNode first second third before, f, s, t, r, rfl⟩

end Forest

namespace Tree

variable (tree : Tree) (first second : NodeId)

/-- What follows after a node in its list. -/
def siblingOf (id : NodeId) : Option NodeId := (tree.node? id).bind Node.sibling

/-- A node with the sibling that it has once `first` and `second` have traded places. -/
def trade (id : NodeId) (node : Node) : Node :=
  { node with sibling := (tree.siblingOf (swap first second id)).map (swap first second) }

theorem trade_label (id : NodeId) (node : Node) :
    (tree.trade first second id node).label = node.label := rfl

theorem trade_line (id : NodeId) (node : Node) :
    (tree.trade first second id node).line = node.line := rfl

/-- The tree in which two nodes have traded places in the lists that they stand in. -/
def exchange : Tree where
  nodes := tree.nodes.mapIdx (tree.trade first second)
  root := tree.root.map (swap first second)

/-- A node with all that is below it, and without its siblings. -/
inductive Branch (id : NodeId) (node : Node) : Forest → Prop
  | mk {f s t : Forest} (hnode : tree.node? id = some node)
      (hfirst : tree.Unfolds node.children.first f) (hsecond : tree.Unfolds node.children.second s)
      (hthird : tree.Unfolds node.children.third t) : Branch id node (.cons id node f s t .nil)

/-- Two nodes that follow one another in the outermost list. -/
structure Neighbours (node next : Node) : Prop where
  mem : (first, node) ∈ tree.chain tree.root
  sibling : node.sibling = some second
  next : tree.node? second = some next

variable {tree first second} {id : NodeId} {node next : Node} {start : Option NodeId}
  {forest : Forest}

theorem Branch.spine_eq (h : tree.Branch id node forest) : forest.spine = [(id, node)] := by
  cases h
  rfl

theorem node?_exchange (id : NodeId) :
    (tree.exchange first second).node? id = (tree.node? id).map (tree.trade first second id) := by
  simp [exchange, node?]

theorem siblingOf_eq (h : tree.node? id = some node) : tree.siblingOf id = node.sibling := by
  rw [siblingOf, h, Option.bind_some]

theorem Unfolds.exchange_of_not_mem (h : tree.Unfolds start forest) (hfirst : first ∉ forest.ids)
    (hsecond : second ∉ forest.ids) :
    start.map (swap first second) = start ∧ (tree.exchange first second).Unfolds start forest ∧
      forest.mapNodes (tree.trade first second) = forest := by
  induction h with
  | nil => exact ⟨rfl, .nil, rfl⟩
  | @cons id node _ _ _ _ hnode _ _ _ _ ihFirst ihSecond ihThird ihRest =>
    simp only [Forest.ids_cons, List.mem_cons, List.mem_append, not_or] at hfirst hsecond
    obtain ⟨hne, ⟨⟨hfirst₁, hfirst₂⟩, hfirst₃⟩, hfirst₄⟩ := hfirst
    obtain ⟨hne', ⟨⟨hsecond₁, hsecond₂⟩, hsecond₃⟩, hsecond₄⟩ := hsecond
    obtain ⟨-, hunfolds₁, hmap₁⟩ := ihFirst hfirst₁ hsecond₁
    obtain ⟨-, hunfolds₂, hmap₂⟩ := ihSecond hfirst₂ hsecond₂
    obtain ⟨-, hunfolds₃, hmap₃⟩ := ihThird hfirst₃ hsecond₃
    obtain ⟨hsibling, hunfolds₄, hmap₄⟩ := ihRest hfirst₄ hsecond₄
    have hswap : swap first second id = id :=
      Equiv.swap_apply_of_ne_of_ne (Ne.symm hne) (Ne.symm hne')
    have htrade : tree.trade first second id node = node := by
      rw [trade, hswap, siblingOf_eq hnode, hsibling]
    refine ⟨congrArg some hswap, ?_, ?_⟩
    · refine .cons ?_ hunfolds₁ hunfolds₂ hunfolds₃ hunfolds₄
      rw [node?_exchange, hnode, Option.map_some, htrade]
    · rw [Forest.mapNodes, htrade, hmap₁, hmap₂, hmap₃, hmap₄]

theorem Unfolds.exchange_mapNodes (h : tree.Unfolds start forest)
    (hmem : first ∉ forest.ids ∧ second ∉ forest.ids) :
    (tree.exchange first second).Unfolds start (forest.mapNodes (tree.trade first second)) := by
  obtain ⟨-, hkept, hmap⟩ := h.exchange_of_not_mem hmem.1 hmem.2
  rwa [hmap]

section Reorder

variable {before f s t f' s' t' rest : Forest}

/-- The two at the start of a list. What comes after the first one comes after the second one, and
the other way round. -/
theorem Unfolds.exchange_pair
    (h : tree.Unfolds start (.cons first node f s t (.cons second next f' s' t' rest)))
    (hnodup : (Forest.cons first node f s t (.cons second next f' s' t' rest)).ids.Nodup) :
    (tree.exchange first second).Unfolds (start.map (swap first second))
      ((Forest.cons second next f' s' t' (.cons first node f s t rest)).mapNodes
        (tree.trade first second)) := by
  have hmem : ∀ kid ∈ [f, s, t, f', s', t', rest], first ∉ kid.ids ∧ second ∉ kid.ids := by
    simp only [Forest.ids_cons, List.nodup_cons, List.nodup_append, List.mem_append,
      List.mem_cons] at hnodup
    grind
  cases h with
  | cons hnode hf hs ht htail =>
  generalize hsibling : node.sibling = sibling at htail
  cases htail with
  | cons hnext hf' hs' ht' hrest =>
  -- Three links change: the one to the pair, the one between the two, and the one that leads on.
  have hlast := (hrest.exchange_of_not_mem (hmem rest (by simp)).1 (hmem rest (by simp)).2).1
  have hnode' : (tree.trade first second first node).sibling = next.sibling := by
    rw [trade, Equiv.swap_apply_left, siblingOf_eq hnext, hlast]
  have hnext' : (tree.trade first second second next).sibling = some first := by
    rw [trade, Equiv.swap_apply_right, siblingOf_eq hnode, hsibling, Option.map_some,
      Equiv.swap_apply_right]
  rw [Option.map_some, Equiv.swap_apply_left]
  refine .cons (by rw [node?_exchange, hnext, Option.map_some])
    (hf'.exchange_mapNodes (hmem f' (by simp))) (hs'.exchange_mapNodes (hmem s' (by simp)))
    (ht'.exchange_mapNodes (hmem t' (by simp))) ?_
  rw [hnext']
  refine .cons (by rw [node?_exchange, hnode, Option.map_some])
    (hf.exchange_mapNodes (hmem f (by simp))) (hs.exchange_mapNodes (hmem s (by simp)))
    (ht.exchange_mapNodes (hmem t (by simp))) ?_
  rw [hnode']
  exact hrest.exchange_mapNodes (hmem rest (by simp))

/-- The list in which the two follow one another has them the other way round. -/
theorem Unfolds.exchange
    (h : tree.Unfolds start
      (before.append (.cons first node f s t (.cons second next f' s' t' rest))))
    (hnodup : (before.append (.cons first node f s t (.cons second next f' s' t' rest))).ids.Nodup) :
    (tree.exchange first second).Unfolds (start.map (swap first second))
      ((before.append (.cons second next f' s' t' (.cons first node f s t rest))).mapNodes
        (tree.trade first second)) := by
  induction before generalizing start with
  | nil => exact h.exchange_pair hnodup
  | cons id top f₀ s₀ t₀ tail _ _ _ ihTail =>
    rw [Forest.append, Forest.ids_cons, List.nodup_cons, List.nodup_append] at hnodup
    obtain ⟨hid, -, htail, hdisjoint⟩ := hnodup
    simp only [Forest.ids_append, Forest.ids_cons, List.mem_append, List.mem_cons] at hid hdisjoint
    have hmem : ∀ kid ∈ [f₀, s₀, t₀], first ∉ kid.ids ∧ second ∉ kid.ids := by grind
    have hswap : swap first second id = id :=
      Equiv.swap_apply_of_ne_of_ne (by grind) (by grind)
    cases h with
    | cons htop hf₀ hs₀ ht₀ hrest =>
      have hsibling : (tree.trade first second id top).sibling =
          top.sibling.map (swap first second) := by
        rw [trade, hswap, siblingOf_eq htop]
      rw [Option.map_some, hswap]
      refine .cons (by rw [node?_exchange, htop, Option.map_some])
        (hf₀.exchange_mapNodes (hmem f₀ (by simp))) (hs₀.exchange_mapNodes (hmem s₀ (by simp)))
        (ht₀.exchange_mapNodes (hmem t₀ (by simp))) ?_
      rw [hsibling]
      exact ihTail hrest htail

end Reorder

theorem Unfolds.of_append {before tail : Forest} (h : tree.Unfolds start (before.append tail)) :
    ∃ start, tree.Unfolds start tail := by
  induction before generalizing start with
  | nil => exact ⟨start, h⟩
  | cons _ _ _ _ _ _ _ _ _ ihRest =>
    cases h with
    | cons _ _ _ _ hrest => exact ihRest hrest

section Links

variable (hfirst : first < tree.size) (hsecond : second < tree.size)

theorem siblings_eq (tree : Tree) :
    tree.siblings = ((List.range tree.size).map tree.siblingOf).flatMap Option.toList := by
  have hsiblings : (List.range tree.size).map tree.siblingOf =
      tree.nodes.toList.map Node.sibling := by
    apply List.ext_getElem?
    intro id
    by_cases hlt : id < tree.nodes.size
    · simp [hlt, size, siblingOf, node?]
    · simp [hlt, size]
  rw [hsiblings, List.flatMap_map, siblings, List.filterMap_eq_flatMap_toList]

theorem childLinks_exchange (hchild : ∀ id node (slot : Slot), tree.node? id = some node →
    node.child slot ≠ some first ∧ node.child slot ≠ some second) :
    (tree.exchange first second).nodes.toList.flatMap (fun node => node.children.links) =
      (tree.nodes.toList.flatMap fun node => node.children.links).map (swap first second) := by
  have hnodes : (tree.exchange first second).nodes.toList.map Node.children =
      tree.nodes.toList.map Node.children := by
    apply List.ext_getElem?
    intro id
    simp only [exchange, List.getElem?_map, Array.getElem?_toList, Array.getElem?_mapIdx,
      Option.map_map]
    rfl
  have hflat : ∀ nodes : List Node, nodes.flatMap (fun node => node.children.links) =
      (nodes.map Node.children).flatMap Slots.links := fun _ => (List.flatMap_map ..).symm
  rw [hflat, hnodes, ← hflat, List.map_flatMap]
  refine List.flatMap_congr fun node hnode => ?_
  obtain ⟨id, hid⟩ := List.mem_iff_getElem?.mp hnode
  refine ((List.map_congr_left fun link hlink => ?_).trans (List.map_id _)).symm
  obtain ⟨slot, hslot⟩ := Slots.exists_of_mem_links hlink
  obtain ⟨hne, hne'⟩ := hchild id node slot (by rwa [Array.getElem?_toList] at hid)
  exact Equiv.swap_apply_of_ne_of_ne (fun heq => hne (heq ▸ hslot)) fun heq => hne' (heq ▸ hslot)

include hfirst hsecond

theorem map_swap_range_perm :
    ((List.range tree.size).map (swap first second)).Perm (List.range tree.size) := by
  have hlt : ∀ id < tree.size, swap first second id < tree.size := by
    intro id hid
    rw [Equiv.swap_apply_def]
    grind
  refine (List.perm_ext_iff_of_nodup
    (List.Nodup.map (swap first second).injective List.nodup_range) List.nodup_range).mpr fun id => ?_
  simp only [List.mem_map, List.mem_range]
  constructor
  · rintro ⟨id, hid, rfl⟩
    exact hlt id hid
  · exact fun hid => ⟨_, hlt id hid, Equiv.swap_apply_self first second id⟩

theorem siblings_exchange_perm :
    (tree.exchange first second).siblings.Perm (tree.siblings.map (swap first second)) := by
  have hsize : (tree.exchange first second).size = tree.size := by
    simp [exchange, size]
  have hsibling : ∀ id ∈ List.range tree.size, (tree.exchange first second).siblingOf id =
      (tree.siblingOf (swap first second id)).map (swap first second) := by
    intro id hid
    have hlt : id < tree.nodes.size := List.mem_range.mp hid
    have hnode : tree.node? id = some tree.nodes[id] := Array.getElem?_eq_getElem hlt
    rw [siblingOf, node?_exchange, hnode]
    rfl
  have hmap : (List.range tree.size).map (tree.exchange first second).siblingOf =
      (((List.range tree.size).map (swap first second)).map tree.siblingOf).map
        (Option.map (swap first second)) := by
    rw [List.map_map, List.map_map]
    exact List.map_congr_left hsibling
  have hflat : ∀ links : List (Option NodeId), (links.map (Option.map (swap first second))).flatMap
      Option.toList = (links.flatMap Option.toList).map (swap first second) := by
    intro links
    rw [List.flatMap_map, List.map_flatMap]
    congr 1
    funext link
    cases link <;> rfl
  rw [siblings_eq, siblings_eq, hsize, hmap, hflat]
  exact (((map_swap_range_perm hfirst hsecond).map _).flatMap_right _).map _

theorem links_exchange_perm (hchild : ∀ id node (slot : Slot), tree.node? id = some node →
    node.child slot ≠ some first ∧ node.child slot ≠ some second) :
    (tree.exchange first second).links.Perm (tree.links.map (swap first second)) := by
  have hroot : (tree.exchange first second).root.toList =
      tree.root.toList.map (swap first second) := by
    rw [exchange]
    cases tree.root <;> rfl
  refine (links_perm _).trans (.trans ?_ ((links_perm tree).map _).symm)
  rw [List.map_append, List.map_append, ← hroot, ← childLinks_exchange hchild]
  exact ((siblings_exchange_perm hfirst hsecond).append_left _).append_left _

end Links

namespace Neighbours

variable (h : tree.Neighbours first second node next) (hwell : tree.WellLinked)

include h hwell

theorem mem_spine : (first, node) ∈ tree.forest.spine := by
  have hmem := h.mem
  rwa [hwell.unfolds.chain_eq hwell tree.continues_root] at hmem

theorem inside (p : Label → Bool) : tree.Inside p [] first ∧ tree.Inside p [] second := by
  have hfirst : tree.Inside p [] first :=
    hwell.unfolds.inside_of_spine (fun top htop => .root htop) _ (h.mem_spine hwell)
  exact ⟨hfirst, .sibling hfirst (node?_of_mem_chain h.mem) h.sibling⟩

theorem wellLinked : (tree.exchange first second).WellLinked := by
  obtain ⟨hfirst, hsecond⟩ := h.inside hwell fun _ => true
  have hlt := lt_size_of_node? (node?_of_mem_chain h.mem)
  have hlt' := lt_size_of_node? h.next
  -- The links are the old ones with the two renamed, and a renaming keeps them apart.
  have hperm := links_exchange_perm hlt hlt' fun id other slot hother =>
    ⟨hfirst.child_ne hwell hother slot, hsecond.child_ne hwell hother slot⟩
  refine ⟨fun target htarget => ?_, ?_⟩
  · obtain ⟨older, holder, rfl⟩ := List.mem_map.mp (hperm.mem_iff.mp htarget)
    have hkept := (map_swap_range_perm hlt hlt').mem_iff.mp
      (List.mem_map_of_mem (List.mem_range.mpr (hwell.lt_size older holder)))
    rw [exchange, size, Array.size_mapIdx]
    exact List.mem_range.mp hkept
  · exact hperm.nodup_iff.mpr (hwell.nodup.map (swap first second).injective)

/-- The two with all that is below them, what comes before them and what comes after: the root leads to
this in the one order before the exchange and in the other one after it. -/
theorem exists_forest : ∃ before item nextItem rest,
    tree.Branch first node item ∧ tree.Branch second next nextItem ∧
      tree.forest = Forest.append before (item.append (nextItem.append rest)) ∧
        (tree.exchange first second).forest = (Forest.append before
          (nextItem.append (item.append rest))).mapNodes (tree.trade first second) := by
  obtain ⟨before, f, s, t, tail, hforest⟩ := Forest.exists_append_of_mem_spine (h.mem_spine hwell)
  have hunfolds := hwell.unfolds
  have hnodup := hwell.nodup_ids
  rw [hforest] at hunfolds hnodup
  obtain ⟨start, hpair⟩ := hunfolds.of_append
  cases hpair with
  | cons hnode hf hs ht htail =>
    generalize hsibling : node.sibling = sibling at htail
    obtain rfl := hsibling.symm.trans h.sibling
    cases htail with
    | cons hnext hf' hs' ht' hrest =>
      obtain rfl := Option.some.inj (h.next.symm.trans hnext)
      exact ⟨before, _, _, _, .mk hnode hf hs ht, .mk hnext hf' hs' ht', hforest,
        (h.wellLinked hwell).unfolds.unique (hunfolds.exchange hnodup)⟩

/-- The outermost list is the same up to the order of the two. -/
theorem chain_exchange : ∃ before rest,
    (tree.chain tree.root).map Prod.fst = before ++ first :: second :: rest ∧
      ((tree.exchange first second).chain (tree.exchange first second).root).map Prod.fst =
        before ++ second :: first :: rest := by
  obtain ⟨before, item, nextItem, rest, hitem, hnext, hforest, hforest'⟩ := h.exists_forest hwell
  have hwell' := h.wellLinked hwell
  refine ⟨before.spine.map Prod.fst, rest.spine.map Prod.fst, ?_, ?_⟩
  · rw [hwell.unfolds.chain_eq hwell tree.continues_root, hforest, Forest.spine_append,
      Forest.spine_append, Forest.spine_append, hitem.spine_eq, hnext.spine_eq]
    simp
  · rw [hwell'.unfolds.chain_eq hwell' (continues_root _), hforest', Forest.map_fst_spine_mapNodes,
      Forest.spine_append, Forest.spine_append, Forest.spine_append, hitem.spine_eq, hnext.spine_eq]
    simp

theorem reachable_iff : (tree.exchange first second).Reachable id ↔ tree.Reachable id := by
  obtain ⟨before, item, nextItem, rest, -, -, hforest, hforest'⟩ := h.exists_forest hwell
  rw [reachable_iff_mem_ids hwell.unfolds, reachable_iff_mem_ids (h.wellLinked hwell).unfolds, hforest,
    hforest']
  simp only [Forest.ids_mapNodes, Forest.ids_append, List.mem_append]
  tauto

theorem sameInside : tree.SameInside (tree.exchange first second) where
  reachable _ hid := (h.reachable_iff hwell).mpr hid
  node id other _ hother := ⟨_, by rw [node?_exchange, hother]; rfl⟩
  child id other slot forest hid hother hforest := by
    obtain ⟨hfirst, hsecond⟩ := h.inside hwell fun _ => true
    exact (hforest.exchange_of_not_mem (hfirst.not_mem_child hwell hid hother hforest)
      (hsecond.not_mem_child hwell hid hother hforest)).2.1

end Neighbours

end Tree

end ScopeCheck
