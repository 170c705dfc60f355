import Mathlib.Data.List.Forall2
import ScopeCheck.Proofs.Document.Checks
import ScopeCheck.Proofs.Json.Members
import ScopeCheck.Proofs.Json.Numerals

namespace ScopeCheck

namespace Json

/-- A link is the number of a node, or null. -/
inductive Refers : Json → Option NodeId → Prop
  | null : Refers .null none
  | node {id : NodeId} (h : id < UInt64.size) : Refers (ofNat id) (some id)

inductive Measures : Json → Option UInt32 → Prop
  | null : Measures .null none
  | size (size : UInt32) : Measures (ofNat size.toNat) (some size)

/-- A member that may be left out where it says what goes without saying. -/
inductive Optionally {α : Type} (name : String) (means : Json → α → Prop) (unsaid : α) :
    α → List (String × Json) → Prop
  | given {value : Json} {a : α} (h : means value a) :
    Optionally name means unsaid a [(name, value)]
  | omitted : Optionally name means unsaid unsaid []

/-- An array describes items one by one. -/
def Lists {α : Type} (means : Json → α → Prop) (value : Json) (items : List α) : Prop :=
  ∃ values, value = .array values ∧ List.Forall₂ means values items

end Json

open Json

/-- The members that say what a node is, beside its kind. -/
inductive Label.Payload : Label → List (String × Json) → Prop
  | statement (stmt : Statement) : Payload (.statement stmt) []
  | operation (op : Operator) : Payload (.expression (.operation op)) [("op", ofText op.word)]
  | constant (value : Int64) :
    Payload (.expression (.constant value)) [("value", ofInt value.toInt)]
  | identifier (name : String) :
    Payload (.expression (.identifier name)) [("name", ofText name)]
  | element (name : String) : Payload (.expression (.element name)) [("name", ofText name)]
  | call (name : String) : Payload (.expression (.call name)) [("name", ofText name)]
  | ofVariable {name : String} {type : ValueType} {size : Option UInt32}
    {part : List (String × Json)} (hsize : Optionally "size" Measures none size part) :
    Payload (.declaration ⟨.variable, name, type, size⟩)
      (("name", ofText name) :: ("type", ofText type.word) :: part)
  | ofFunction {name : String} {type : ValueType} :
    Payload (.declaration ⟨.function, name, type, none⟩)
      [("name", ofText name), ("type", ofText type.word)]
  | ofParameter {name : String} {type : ValueType} {part : List (String × Json)}
    (hname : Optionally "name" (fun value name => value = ofText name) "" name part) :
    Payload (.declaration ⟨.parameter, name, type, none⟩) (part ++ [("type", ofText type.word)])

/-- An object describes a node: it has its kind and what goes with it, its line, its children by
their slots and its sibling, in any order. -/
inductive Node.Described : Json → Node → Prop
  | intro {node : Node} {members payload line children sibling : List (String × Json)}
    {refs : List (Option NodeId)}
    (hpayload : node.label.Payload payload)
    (hline : Optionally "line" (fun value line => value = ofNat line.toNat) 0 node.line line)
    (hchildren : Optionally "children" (Lists Refers) [] refs children)
    (hslots : Slots.ofList refs = node.children) (hcount : refs.length ≤ 3)
    (hsibling : Optionally "sibling" Refers none node.sibling sibling)
    (hmembers : members.Perm (("kind", ofText node.label.kind.word) ::
      (payload ++ (line ++ (children ++ sibling))))) :
    Described (ofMembers members) node

/-- An object describes a tree: it has the root and the nodes by their numbers. -/
inductive Tree.Described : Json → Tree → Prop
  | intro {tree : Tree} {members root nodes : List (String × Json)}
    (hroot : Optionally "root" Refers none tree.root root)
    (hnodes : Optionally "nodes" (Lists Node.Described) [] tree.nodes.toList nodes)
    (hmembers : members.Perm (root ++ nodes)) :
    Described (ofMembers members) tree

namespace Json

/-- A value that passes in a document and nests no deeper than this. -/
def Plain (depth : Nat) (value : Json) : Prop := value.hasValues = true ∧ value.nesting ≤ depth

theorem plain_ofText (text : String) (depth : Nat) : Plain depth (ofText text) :=
  ⟨rfl, Nat.zero_le _⟩

theorem plain_ofNat {n : Nat} (h : n < UInt64.size) (depth : Nat) : Plain depth (ofNat n) :=
  ⟨Number.isFinite_integer false h, Nat.zero_le _⟩

theorem plain_word32 (word : UInt32) (depth : Nat) : Plain depth (ofNat word.toNat) :=
  plain_ofNat (Nat.lt_trans word.toNat_lt_size (by decide)) depth

theorem plain_ofInt (value : Int64) (depth : Nat) : Plain depth (ofInt value.toInt) := by
  have hlow := value.le_toInt
  have hhigh := value.toInt_lt
  have hsize : UInt64.size = 18446744073709551616 := rfl
  exact ⟨Number.isFinite_integer _ (by omega), Nat.zero_le _⟩

theorem Refers.plain {value : Json} {ref : Option NodeId} (h : Refers value ref) (depth : Nat) :
    Plain depth value := by
  cases h with
  | null => exact ⟨rfl, Nat.zero_le _⟩
  | node h => exact plain_ofNat h depth

theorem Measures.plain {value : Json} {size : Option UInt32} (h : Measures value size)
    (depth : Nat) : Plain depth value := by
  cases h with
  | null => exact ⟨rfl, Nat.zero_le _⟩
  | size size => exact plain_word32 size depth

theorem nullable?_ofNat {α : Type} (read : Json → Option α) (n : Nat) :
    nullable? read (ofNat n) = (read (ofNat n)).map some := rfl

theorem Measures.nullable?_eq {value : Json} {size : Option UInt32} (h : Measures value size) :
    nullable? word32? value = some size := by
  cases h with
  | null => rfl
  | size size => rw [nullable?_ofNat, word32?_ofNat, Option.map_some]

theorem Refers.nullable?_eq {value : Json} {ref : Option NodeId} (h : Refers value ref) :
    nullable? place? value = some ref := by
  cases h with
  | null => rfl
  | node h => rw [nullable?_ofNat, place?, natBelow?_ofNat h, Option.map_some]

theorem Lists.list?_refers {value : Json} {refs : List (Option NodeId)}
    (h : Lists Refers value refs) : list? (nullable? place?) value = some refs := by
  obtain ⟨values, rfl, hvalues⟩ := h
  rw [list?]
  induction hvalues with
  | nil => rfl
  | cons hvalue _ ih =>
    simp only [List.mapM_cons, hvalue.nullable?_eq, ih, Option.bind_eq_bind, Option.bind_some,
      Option.pure_def]

theorem plain_array {depth : Nat} {items : List Json} (h : ∀ item ∈ items, Plain depth item) :
    Plain (depth + 1) (.array items) := by
  have hboth : itemsHaveValues items = true ∧ itemsNesting items ≤ depth := by
    induction items with
    | nil => exact ⟨rfl, Nat.zero_le _⟩
    | cons item items ih =>
      obtain ⟨hvalues, hnesting⟩ := h item List.mem_cons_self
      obtain ⟨hrest, hdeep⟩ := ih fun item hitem => h item (List.mem_cons_of_mem _ hitem)
      exact ⟨by rw [itemsHaveValues, hvalues, hrest]; rfl, Nat.max_le.mpr ⟨hnesting, hdeep⟩⟩
  exact ⟨hboth.1, Nat.succ_le_succ hboth.2⟩

theorem Lists.plain {value : Json} {refs : List (Option NodeId)} (h : Lists Refers value refs) :
    Plain 1 value := by
  obtain ⟨values, rfl, hvalues⟩ := h
  refine plain_array fun item hitem => ?_
  induction hvalues with
  | nil => cases hitem
  | cons hvalue _ ih =>
    rcases List.mem_cons.mp hitem with rfl | hitem
    · exact hvalue.plain 0
    · exact ih hitem

theorem plain_object {depth : Nat} {members : List (Literal × Json)}
    (h : ∀ member ∈ members, member.1 ≠ .halfPair ∧ Plain depth member.2) :
    Plain (depth + 1) (.object members) := by
  have hboth : membersHaveValues members = true ∧ membersNesting members ≤ depth := by
    induction members with
    | nil => exact ⟨rfl, Nat.zero_le _⟩
    | cons member members ih =>
      obtain ⟨hname, hvalues, hnesting⟩ := h member List.mem_cons_self
      obtain ⟨hrest, hdeep⟩ := ih fun member hmem => h member (List.mem_cons_of_mem _ hmem)
      refine ⟨?_, Nat.max_le.mpr ⟨hnesting, hdeep⟩⟩
      rw [membersHaveValues, decide_eq_true hname, hvalues, hrest]
      rfl
  exact ⟨hboth.1, Nat.succ_le_succ hboth.2⟩

theorem plain_ofMembers {depth : Nat} {members : List (String × Json)}
    (h : ∀ member ∈ members, Plain depth member.2) : Plain (depth + 1) (ofMembers members) := by
  refine plain_object fun member hmember => ?_
  obtain ⟨named, hnamed, rfl⟩ := List.mem_map.mp hmember
  exact ⟨Literal.noConfusion, h named hnamed⟩

end Json

namespace Json.Optionally

variable {α : Type} {name : String} {means : Json → α → Prop} {unsaid a : α}
  {part : List (String × Json)} {read : Json → Option α}

theorem names_sublist (h : Optionally name means unsaid a part) :
    (part.map Prod.fst).Sublist [name] := by
  cases h with
  | given => exact .refl _
  | omitted => exact List.nil_sublist _

theorem fst_eq (h : Optionally name means unsaid a part) : ∀ member ∈ part, member.1 = name := by
  cases h <;> simp

theorem plain (h : Optionally name means unsaid a part) {depth : Nat}
    (hmeans : ∀ value a, means value a → Plain depth value) :
    ∀ member ∈ part, Plain depth member.2 := by
  cases h with
  | given hvalue => simpa using hmeans _ _ hvalue
  | omitted => exact List.forall_mem_nil _

theorem memberD_eq (h : Optionally name means unsaid a part) {members : List (String × Json)}
    (hnodup : (members.map Prod.fst).Nodup) (hpart : ∀ member ∈ part, member ∈ members)
    (hback : ∀ member ∈ members, member.1 = name → member ∈ part)
    (hread : ∀ value a, means value a → read value = some a) :
    memberD name members read unsaid = some a := by
  cases h with
  | given hvalue =>
    exact (memberD_of_mem hnodup (hpart _ List.mem_cons_self) read unsaid).trans (hread _ _ hvalue)
  | omitted => exact memberD_eq_default fun member hmem heq => nomatch hback member hmem heq

end Json.Optionally

namespace Label.Payload

variable {label : Label} {payload members : List (String × Json)}

theorem names_sublist (h : Payload label payload) :
    (payload.map Prod.fst).Sublist ["op", "value", "name", "type", "size"] := by
  cases h with
  | statement => exact List.nil_sublist _
  | operation | constant | identifier | element | call =>
    exact List.singleton_sublist.mpr (by simp)
  | ofVariable hsize =>
    exact .cons _ (.cons _ (.cons_cons _ (.cons_cons _ hsize.names_sublist)))
  | ofFunction => exact .cons _ (.cons _ (.cons_cons _ (.cons_cons _ (List.nil_sublist _))))
  | ofParameter hname =>
    rw [List.map_append]
    exact .cons _ (.cons _ (hname.names_sublist.append (by simp)))

theorem plain (h : Payload label payload) (depth : Nat) :
    ∀ member ∈ payload, Plain depth member.2 := by
  cases h with
  | ofVariable hsize =>
    have hpart := hsize.plain fun _ _ h => Measures.plain h depth
    simp only [List.forall_mem_cons]
    exact ⟨plain_ofText _ _, plain_ofText _ _, hpart⟩
  | ofParameter hname =>
    have hpart := hname.plain fun _ _ h => h ▸ plain_ofText _ depth
    rw [List.forall_mem_append]
    exact ⟨hpart, by simp [plain_ofText]⟩
  | _ => simp [plain_ofText, plain_ofInt]

theorem ofMembers?_eq (h : Payload label payload) (hnodup : (members.map Prod.fst).Nodup)
    (hpayload : ∀ member ∈ payload, member ∈ members)
    (hback : ∀ member ∈ members,
      member ∈ payload ∨ member.1 ∈ ["kind", "line", "children", "sibling"]) :
    ofMembers? members label.kind = some label := by
  have hfind : ∀ {α : Type} {name : String} {value : Json} (read : Json → Option α),
      (name, value) ∈ payload → member? name members read = read value := fun read hmem =>
    member?_of_mem hnodup (hpayload _ hmem) read
  have hown : ∀ {name : String}, name ∉ ["kind", "line", "children", "sibling"] →
      ∀ member ∈ members, member.1 = name → member ∈ payload := fun hname member hmem heq =>
    (hback member hmem).resolve_right (heq ▸ hname)
  have htype : ∀ {type : ValueType}, ("type", ofText type.word) ∈ payload →
      member? "type" members (·.word?.bind ValueType.ofWord?) = some type := by
    intro type hmem
    rw [hfind _ hmem]
    cases type <;> decide
  cases h with
  | statement stmt => cases stmt <;> rfl
  | operation op =>
    have hop : member? "op" members (·.word?.bind Operator.ofWord?) = some op := by
      rw [hfind _ List.mem_cons_self]
      cases op <;> decide
    simp only [ofMembers?, Label.kind, hop, Option.bind_eq_bind, Option.bind_some, Option.pure_def]
  | constant value =>
    simp only [ofMembers?, Label.kind, hfind _ List.mem_cons_self, int64?_ofInt,
      Option.bind_eq_bind, Option.bind_some, Option.pure_def]
  | identifier name | element name | call name =>
    simp only [ofMembers?, Label.kind, hfind _ List.mem_cons_self, text?_ofText,
      Option.bind_eq_bind, Option.bind_some, Option.pure_def]
  | @ofVariable name type size part hsize =>
    have hread : memberD "size" members (nullable? word32?) none = some size := by
      refine hsize.memberD_eq hnodup (fun member hmem => hpayload member (by simp [hmem])) ?_
        fun _ _ h => h.nullable?_eq
      intro member hmem heq
      rcases List.mem_cons.mp (hown (by decide) member hmem heq) with rfl | hrest
      · exact absurd heq (by simp)
      · rcases List.mem_cons.mp hrest with rfl | hpart
        · exact absurd heq (by simp)
        · exact hpart
    simp only [ofMembers?, Label.kind, NodeKind.ofDeclaration, hread, hfind _ List.mem_cons_self,
      htype (List.mem_cons_of_mem _ List.mem_cons_self), text?_ofText,
      Option.bind_eq_bind, Option.bind_some, Option.pure_def]
  | @ofFunction name type =>
    simp only [ofMembers?, Label.kind, NodeKind.ofDeclaration, hfind _ List.mem_cons_self,
      htype (List.mem_cons_of_mem _ List.mem_cons_self), text?_ofText,
      Option.bind_eq_bind, Option.bind_some, Option.pure_def]
  | @ofParameter name type part hname =>
    have hread : memberD "name" members text? "" = some name := by
      refine hname.memberD_eq hnodup (fun member hmem => hpayload member (by simp [hmem])) ?_
        fun _ _ h => h ▸ text?_ofText _
      intro member hmem heq
      rcases List.mem_append.mp (hown (by decide) member hmem heq) with hpart | hlast
      · exact hpart
      · rw [List.mem_singleton.mp hlast] at heq
        exact absurd heq (by simp)
    simp only [ofMembers?, Label.kind, NodeKind.ofDeclaration, hread,
      htype (List.mem_append_right _ List.mem_cons_self), Option.bind_eq_bind, Option.bind_some,
      Option.pure_def]

end Label.Payload

theorem NodeKind.ofJson?_word (kind : NodeKind) : ofJson? (ofText kind.word) = some kind := by
  cases kind <;> decide

namespace Node

section Members

variable {node : Node} {members payload line children sibling : List (String × Json)}
  {refs : List (Option NodeId)}
  (hpayload : node.label.Payload payload)
  (hline : Optionally "line" (fun value line => value = ofNat line.toNat) 0 node.line line)
  (hchildren : Optionally "children" (Lists Refers) [] refs children)
  (hsibling : Optionally "sibling" Refers none node.sibling sibling)
  (hmembers : members.Perm (("kind", ofText node.label.kind.word) ::
    (payload ++ (line ++ (children ++ sibling)))))

include hmembers

theorem mem_members (member : String × Json) :
    member ∈ members ↔ member = ("kind", ofText node.label.kind.word) ∨ member ∈ payload ∨
      member ∈ line ∨ member ∈ children ∨ member ∈ sibling := by
  rw [hmembers.mem_iff, List.mem_cons, List.mem_append, List.mem_append, List.mem_append]

include hpayload hline hchildren hsibling

theorem nodup_names : (members.map Prod.fst).Nodup := by
  have hsub := (hpayload.names_sublist.append (hline.names_sublist.append
    (hchildren.names_sublist.append hsibling.names_sublist))).cons_cons "kind"
  rw [(hmembers.map Prod.fst).nodup_iff]
  simpa using hsub.nodup (by decide)

theorem plain_members : Plain 2 (ofMembers members) := by
  refine plain_ofMembers fun member hmember => ?_
  rcases (mem_members hmembers member).mp hmember with rfl | h | h | h | h
  · exact plain_ofText _ _
  · exact hpayload.plain 1 member h
  · exact hline.plain (fun _ _ h => h ▸ plain_word32 _ 1) member h
  · exact hchildren.plain (fun _ _ h => Lists.plain h) member h
  · exact hsibling.plain (fun _ _ h => Refers.plain h 1) member h

theorem ofMembers?_members : Label.ofMembers? members node.label.kind = some node.label := by
  have hmem := mem_members hmembers
  have hnodup := nodup_names hpayload hline hchildren hsibling hmembers
  refine hpayload.ofMembers?_eq hnodup (fun member h => (hmem member).mpr (.inr (.inl h)))
    fun member h => ?_
  rcases (hmem member).mp h with rfl | h | h | h | h
  · exact .inr (by simp)
  · exact .inl h
  · exact .inr (by simp [hline.fst_eq member h])
  · exact .inr (by simp [hchildren.fst_eq member h])
  · exact .inr (by simp [hsibling.fst_eq member h])

theorem mem_of_name (member : String × Json) (hmember : member ∈ members) :
    (member.1 = "line" → member ∈ line) ∧ (member.1 = "children" → member ∈ children) ∧
      (member.1 = "sibling" → member ∈ sibling) := by
  rcases (mem_members hmembers member).mp hmember with rfl | h | h | h | h
  · simp
  · have hname := hpayload.names_sublist.subset (List.mem_map_of_mem h)
    refine ⟨?_, ?_, ?_⟩ <;>
      · intro heq
        rw [heq] at hname
        simp at hname
  · simp [hline.fst_eq member h, h]
  · simp [hchildren.fst_eq member h, h]
  · simp [hsibling.fst_eq member h, h]

theorem memberD_members :
    memberD "line" members word32? 0 = some node.line ∧
      memberD "children" members (list? (nullable? place?)) [] = some refs ∧
      memberD "sibling" members (nullable? place?) none = some node.sibling := by
  have hmem := mem_members hmembers
  have hnodup := nodup_names hpayload hline hchildren hsibling hmembers
  have hback := mem_of_name hpayload hline hchildren hsibling hmembers
  refine ⟨hline.memberD_eq hnodup (fun member h => (hmem member).mpr (by simp [h]))
      (fun member h => (hback member h).1) fun _ _ h => h ▸ word32?_ofNat _,
    hchildren.memberD_eq hnodup (fun member h => (hmem member).mpr (by simp [h]))
      (fun member h => (hback member h).2.1) fun _ _ h => h.list?_refers,
    hsibling.memberD_eq hnodup (fun member h => (hmem member).mpr (by simp [h]))
      (fun member h => (hback member h).2.2) fun _ _ h => h.nullable?_eq⟩

end Members

theorem Described.exists_entry {value : Json} {node : Node} (h : Described value node) :
    ∃ entry, Entry.ofJson? value = some entry ∧ entry.toNode = node ∧
      entry.children.length ≤ 3 := by
  obtain @⟨_, members, payload, line, children, sibling, refs, hpayload, hline, hchildren, hslots,
    hcount, hsibling, hmembers⟩ := h
  have hplain := plain_members hpayload hline hchildren hsibling hmembers
  have hlabel := ofMembers?_members hpayload hline hchildren hsibling hmembers
  obtain ⟨hlineRead, hchildrenRead, hsiblingRead⟩ :=
    memberD_members hpayload hline hchildren hsibling hmembers
  have hkind : member? "kind" members NodeKind.ofJson? = some node.label.kind := by
    rw [member?_of_mem (nodup_names hpayload hline hchildren hsibling hmembers)
      ((mem_members hmembers _).mpr (.inl rfl)), NodeKind.ofJson?_word]
  have hguard : (guard ((ofMembers members).hasValues &&
      decide ((ofMembers members).nesting ≤ Entry.maxNesting)) : Option Unit) = some () := by
    refine if_pos ?_
    rw [hplain.1, Bool.true_and, decide_eq_true_eq]
    exact Nat.le_trans hplain.2 (by decide)
  refine ⟨⟨node.label, node.line, refs, node.sibling⟩, ?_, ?_, hcount⟩
  · rw [Entry.ofJson?, hguard, namedMembers?_ofMembers]
    simp only [Option.bind_eq_bind, Option.bind_some, hkind, hlabel, hlineRead,
      hchildrenRead, hsiblingRead, Option.pure_def]
  · rw [Entry.toNode, hslots]

end Node

theorem Json.Lists.exists_entries {value : Json} {nodes : List Node}
    (h : Lists Node.Described value nodes) :
    ∃ entries, list? Entry.ofJson? value = some entries ∧ entries.map Entry.toNode = nodes ∧
      ∀ entry ∈ entries, entry.children.length ≤ 3 := by
  obtain ⟨values, rfl, hvalues⟩ := h
  rw [list?]
  induction hvalues with
  | nil => exact ⟨[], rfl, rfl, List.forall_mem_nil _⟩
  | cons hvalue _ ih =>
    obtain ⟨entry, hentry, hnode, hcount⟩ := hvalue.exists_entry
    obtain ⟨entries, hentries, hnodes, hcounts⟩ := ih
    refine ⟨entry :: entries, ?_, by rw [List.map_cons, hnode, hnodes],
      List.forall_mem_cons.mpr ⟨hcount, hcounts⟩⟩
    simp only [List.mapM_cons, hentry, hentries, Option.bind_eq_bind, Option.bind_some,
      Option.pure_def]

/-- A value in the format is read as a document whose tree is the one that it describes. -/
theorem Tree.Described.exists_document {value : Json} {tree : Tree} (h : Described value tree) :
    ∃ doc, Document.ofJson? value = some doc ∧ doc.toTree = tree ∧
      ∀ entry ∈ doc.entries, entry.children.length ≤ 3 := by
  obtain @⟨_, members, root, nodes, hroot, hnodes, hmembers⟩ := h
  have hnodesSub : (nodes.map Prod.fst).Sublist ["nodes"] := hnodes.names_sublist
  have hnodup : (members.map Prod.fst).Nodup := by
    have hsub := hroot.names_sublist.append hnodesSub
    rw [(hmembers.map Prod.fst).nodup_iff, List.map_append]
    exact hsub.nodup (by decide)
  have hmem : ∀ member, member ∈ members ↔ member ∈ root ∨ member ∈ nodes := fun member => by
    rw [hmembers.mem_iff, List.mem_append]
  have hrootRead : memberD "root" members (nullable? place?) none = some tree.root := by
    refine hroot.memberD_eq hnodup (fun member h => (hmem member).mpr (.inl h)) ?_
      fun _ _ h => h.nullable?_eq
    intro member h heq
    refine ((hmem member).mp h).resolve_right fun h => ?_
    rw [hnodes.fst_eq member h] at heq
    simp at heq
  obtain ⟨entries, hread, hentries, hcounts⟩ : ∃ entries,
      memberD "nodes" members (list? Entry.ofJson?) [] = some entries ∧
        entries.map Entry.toNode = tree.nodes.toList ∧
        ∀ entry ∈ entries, entry.children.length ≤ 3 := by
    generalize tree.nodes.toList = described at hnodes
    cases hnodes with
    | given hvalue =>
      obtain ⟨entries, hread, hentries⟩ := hvalue.exists_entries
      rw [memberD_of_mem hnodup ((hmem _).mpr (.inr List.mem_cons_self)), hread]
      exact ⟨entries, rfl, hentries⟩
    | omitted =>
      refine ⟨[], memberD_eq_default fun member h heq => ?_, rfl, List.forall_mem_nil _⟩
      rw [hroot.fst_eq member (((hmem member).mp h).resolve_right List.not_mem_nil)] at heq
      simp at heq
  refine ⟨⟨tree.root, entries⟩, ?_, ?_, hcounts⟩
  · have hmembers? : Document.ofJson? (ofMembers members) =
        (ofMembers members).namedMembers?.bind Document.ofMembers? := rfl
    rw [hmembers?, namedMembers?_ofMembers, Option.bind_some, Document.ofMembers?, hrootRead,
      Option.bind_eq_bind, Option.bind_some, hread]
    rfl
  · rw [Document.toTree, hentries]

/-- A text in the format is read as the tree that it describes, if no node is linked twice. -/
theorem Tree.Described.ofText_eq {text : String} {value : Json} {tree : Tree}
    (h : Described value tree) (htext : Json.parse? text.toList = some value)
    (hwell : tree.WellLinked) : ofText text = .ok tree := by
  obtain ⟨doc, hdoc, rfl, hcount⟩ := h.exists_document
  have hparse : Document.parse? text.toList = some doc := by
    rw [Document.parse?, htext, Option.bind_eq_bind, Option.bind_some, hdoc]
  refine (ofText_eq_ok_iff hparse).mpr ⟨Document.checkLinks_eq_ok_iff.mpr ⟨?_, ?_, hcount⟩, rfl⟩
  · rw [← Document.links_toTree hcount, ← Document.size_toTree]
    exact hwell.lt_size
  · rw [← Document.links_toTree hcount]
    exact hwell.nodup

end ScopeCheck
