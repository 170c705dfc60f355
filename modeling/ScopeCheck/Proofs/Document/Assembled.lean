import ScopeCheck.Analysis.Model
import ScopeCheck.Proofs.Document.Format
import ScopeCheck.Proofs.Json.RoundTrip
import ScopeCheck.Proofs.Tree.Assembly

namespace ScopeCheck

def Node.entry (node : Node) : Entry :=
  ⟨node.label, node.line, node.children.toList, node.sibling⟩

namespace Tree

variable {tree : Tree}

def document (tree : Tree) : Document := ⟨tree.root, tree.nodes.toList.map Node.entry⟩

theorem toTree_document (tree : Tree) : tree.document.toTree = tree := by
  have hnode : Entry.toNode ∘ Node.entry = id := rfl
  rw [Document.toTree, document, List.map_map, hnode, List.map_id, Array.toArray_toList]

/-- The check of a document passes just the trees in which no node is linked twice. -/
theorem checkLinks_document_iff : tree.document.checkLinks = .ok () ↔ tree.WellLinked := by
  have hcount : ∀ entry ∈ tree.document.entries, entry.children.length ≤ 3 := by
    intro entry hentry
    obtain ⟨node, -, rfl⟩ := List.mem_map.mp hentry
    exact Nat.le_refl 3
  have hlinks : tree.links = tree.document.links := by
    rw [← Document.links_toTree hcount, toTree_document]
  have hsize : tree.size = tree.document.size := by
    rw [← Document.size_toTree, toTree_document]
  rw [Document.checkLinks_eq_ok_iff, ← hlinks, ← hsize]
  exact ⟨fun h => ⟨h.1, h.2.1⟩, fun h => ⟨h.lt_size, h.nodup, hcount⟩⟩

/-- A tree that is put together step by step, where each step is given nodes of steps before it and no
node is given twice, passes the check of a document. The nodes have the labels and lines of the steps,
and their child slots lead to the lists that were given, in order. Every text that describes the tree
is read as this tree, and so analysed alike. -/
theorem ofParts_agrees {parts : List Part} {items : List NodeId}
    (hearlier : ∀ (i : Nat) (part : Part), parts[i]? = some part →
      ∀ id ∈ part.members, id ∈ partIds (parts.take i))
    (hitems : ∀ id ∈ items, id ∈ partIds parts)
    (honce : (parts.flatMap Part.members ++ items).Nodup) :
    partIds parts = List.range parts.length ∧
    ((ofParts parts items).WellLinked ∧ (ofParts parts items).document.checkLinks = .ok ()) ∧
    (ofParts parts items).size = parts.length ∧
    (∀ (i : Nat) (part : Part), parts[i]? = some part → ∃ node,
      (ofParts parts items).node? i = some node ∧ node.label = part.outline.label ∧
        node.line = part.outline.line ∧
        ∀ slot, node.child slot = (part.outline.list slot).head? ∧
          ((ofParts parts items).list node slot).map Prod.fst = part.outline.list slot) ∧
    (ofParts parts items).root = items.head? ∧
    ((ofParts parts items).chain (ofParts parts items).root).map Prod.fst = items ∧
    ∀ text value, Json.parse? text.toList = some value → Described value (ofParts parts items) →
      ∃ loaded, ofText text = .ok loaded ∧ loaded = ofParts parts items ∧
        ∀ builtins, analyze builtins loaded = analyze builtins (ofParts parts items) := by
  have hbefore : ∀ (i : Nat) (part : Part), parts[i]? = some part →
      ∀ id ∈ part.members, id < i := by
    intro i part hpart id hid
    have hmem := hearlier i part hpart id hid
    rw [partIds_eq, List.mem_range, List.length_take] at hmem
    exact Nat.lt_of_lt_of_le hmem (Nat.min_le_left _ _)
  have hlt : ∀ id ∈ items, id < parts.length := by
    intro id hid
    have hmem := hitems id hid
    rwa [partIds_eq, List.mem_range] at hmem
  obtain ⟨-, hroot, halone⟩ := linked_ofParts hbefore hlt honce
  obtain ⟨hlists, hchain⟩ := lists_ofParts hbefore hlt honce
  have hwell := wellLinked_ofParts hbefore hlt honce
  refine ⟨partIds_eq parts, ⟨hwell, checkLinks_document_iff.mpr hwell⟩, ?_, hlists, hroot, hchain, ?_⟩
  · simpa [size] using congrArg List.length halone
  · intro text value htext hvalue
    exact ⟨_, hvalue.ofText_eq htext hwell, rfl, fun _ => rfl⟩

/-- An array, and a function without parameters and with an empty body. -/
def outlineParts : List Part :=
  [.array 1 "a" 10, .noParameters 2, .block 2 [] [], .function 2 "main" .void [1] 2]

def outlineTree : Tree where
  nodes := #[
    ⟨.declaration ⟨.variable, "a", .array, some 10⟩, 1, .empty, some 3⟩,
    .leaf (.declaration ⟨.parameter, "", .void, none⟩) 2,
    .leaf (.statement .block) 2,
    ⟨.declaration ⟨.function, "main", .void, none⟩, 2, ⟨some 1, some 2, none⟩, none⟩]
  root := some 0

open Json in
/-- The tree in the format, with members in other orders. -/
def outlineValue : Json :=
  ofMembers [
    ("nodes", .array [
      ofMembers [("name", .ofText "a"), ("kind", .ofText "var"), ("type", .ofText "array"),
        ("size", ofNat 10), ("line", ofNat 1), ("sibling", ofNat 3)],
      ofMembers [("type", .ofText "void"), ("kind", .ofText "param"), ("line", ofNat 2)],
      ofMembers [("line", ofNat 2), ("kind", .ofText "compound"), ("children", .array [])],
      ofMembers [("kind", .ofText "fun"), ("name", .ofText "main"), ("type", .ofText "void"),
        ("line", ofNat 2), ("children", .array [ofNat 1, ofNat 2])]]),
    ("root", ofNat 0)]

theorem ofParts_outlineParts : ofParts outlineParts [0, 3] = outlineTree := by decide +kernel

open Json in
theorem described_outlineValue : Described outlineValue outlineTree := by
  refine .intro (.given (.node (by decide))) (.given ⟨_, rfl, .cons ?_ (.cons ?_ (.cons ?_
    (.cons ?_ .nil)))⟩) (.swap _ _ _)
  · exact .intro (.ofVariable (.given (.size 10))) (.given rfl) .omitted rfl (by decide)
      (.given (.node (by decide))) (.swap _ _ _)
  · exact .intro (.ofParameter .omitted) (.given rfl) .omitted rfl (by decide) .omitted
      (.swap _ _ _)
  · exact .intro (.statement .block) (.given rfl) (.given ⟨_, rfl, .nil⟩) rfl (by decide) .omitted
      (.swap _ _ _)
  · exact .intro .ofFunction (.given rfl) (.given ⟨_, rfl, .cons (.node (by decide))
      (.cons (.node (by decide)) .nil)⟩) rfl (by decide) .omitted (.refl _)

theorem writable_outlineValue : outlineValue.Writable := by
  have hnone : (Json.array []).Writable := .array nofun
  have hpair : (Json.array [.ofNat 1, .ofNat 2]).Writable := .array (by simp)
  refine Json.writable_ofMembers (List.forall_mem_cons.mpr ⟨.array ?_, by simp⟩)
  simp only [List.forall_mem_cons]
  exact ⟨Json.writable_ofMembers (by simp), Json.writable_ofMembers (by simp),
    Json.writable_ofMembers (by simp [hnone]), Json.writable_ofMembers (by simp [hpair]), nofun⟩

/-- The array and the function are read from the text of that value. -/
theorem ofParts_agrees_outline :
    (∀ (i : Nat) (part : Part), outlineParts[i]? = some part →
      ∀ id ∈ part.members, id ∈ partIds (outlineParts.take i)) ∧
    (∀ id ∈ [0, 3], id ∈ partIds outlineParts) ∧
    (outlineParts.flatMap Part.members ++ [0, 3]).Nodup ∧
    outlineTree.document.checkLinks = .ok () ∧
    (outlineTree.chain (some 0)).map Prod.fst = [0, 3] ∧
    ofText outlineValue.pretty = .ok outlineTree := by
  have hearlier : ∀ (i : Nat) (part : Part), outlineParts[i]? = some part →
      ∀ id ∈ part.members, id ∈ partIds (outlineParts.take i) := by
    intro i part hpart
    match i with
    | 0 | 1 | 2 | 3 =>
      obtain rfl : _ = part := Option.some.inj hpart
      decide
    | i + 4 => cases hpart
  have hitems : ∀ id ∈ [0, 3], id ∈ partIds outlineParts := by decide
  have honce : (outlineParts.flatMap Part.members ++ [0, 3]).Nodup := by decide
  have hagrees := ofParts_agrees hearlier hitems honce
  rw [ofParts_outlineParts] at hagrees
  obtain ⟨-, ⟨-, hcheck⟩, -, -, -, hchain, hread⟩ := hagrees
  obtain ⟨_, hload, rfl, -⟩ := hread _ _ (Json.parse?_pretty writable_outlineValue)
    described_outlineValue
  exact ⟨hearlier, hitems, honce, hcheck, hchain, hload⟩

end Tree

end ScopeCheck
