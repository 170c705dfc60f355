import ScopeCheck.Proofs.Document.Links

namespace ScopeCheck

/-- A single check of a document. A target is fresh when it is none of the links before it. -/
inductive LinkCheck where
  | rootRange (root : Nat)
  | childCount (place count : Nat)
  | targetRange (place target : Nat)
  | targetFresh (earlier : List Nat) (target : Nat)
  deriving DecidableEq, Repr

namespace LinkCheck

/-- The error of a check that fails in a document of `size` entries. -/
def fault? (size : Nat) : LinkCheck → Option LinkError
  | rootRange root => if root < size then none else some (.danglingRoot root size)
  | childCount place count => if count ≤ 3 then none else some (.tooManyChildren place count)
  | targetRange place target =>
    if target < size then none else some (.danglingLink place target size)
  | targetFresh earlier target => if target ∈ earlier then some (.sharedNode target) else none

/-- The checks of the targets of the entry at `place`, where `earlier` are the links before them. -/
def ofTargets (place : Nat) : List Nat → List Nat → List LinkCheck
  | _, [] => []
  | earlier, target :: rest =>
    targetRange place target :: targetFresh earlier target
      :: ofTargets place (earlier ++ [target]) rest

/-- The checks of the entries from `place` on, where `earlier` are the links before them. -/
def ofEntries : Nat → List Nat → List Entry → List LinkCheck
  | _, _, [] => []
  | place, earlier, entry :: rest =>
    childCount place entry.children.length :: ofTargets place earlier entry.links
      ++ ofEntries (place + 1) (earlier ++ entry.links) rest

def firstFault? (size : Nat) (checks : List LinkCheck) : Option LinkError :=
  checks.findSome? (fault? size)

@[simp]
theorem firstFault?_nil (size : Nat) : firstFault? size [] = none := rfl

theorem firstFault?_cons (size : Nat) (check : LinkCheck) (rest : List LinkCheck) :
    firstFault? size (check :: rest) = (check.fault? size).or (firstFault? size rest) := by
  rw [firstFault?, List.findSome?_cons]
  cases check.fault? size <;> rfl

theorem firstFault?_append (size : Nat) (checks rest : List LinkCheck) :
    firstFault? size (checks ++ rest) = (firstFault? size checks).or (firstFault? size rest) :=
  List.findSome?_append

theorem firstFault?_eq_none_iff {size : Nat} {checks : List LinkCheck} :
    firstFault? size checks = none ↔ ∀ check ∈ checks, check.fault? size = none :=
  List.findSome?_eq_none_iff

variable {size place : Nat} {earlier : List Nat}

theorem fault?_ofTargets {targets : List Nat} (hlt : ∀ target ∈ targets, target < size)
    (hnodup : (earlier ++ targets).Nodup) :
    ∀ check ∈ ofTargets place earlier targets, check.fault? size = none := by
  induction targets generalizing earlier with
  | nil => simp [ofTargets]
  | cons target rest ih =>
    have hrest : (earlier ++ [target] ++ rest).Nodup := by simpa using hnodup
    have hfresh : target ∉ earlier := by
      intro hmem
      exact (List.nodup_append.mp hnodup).2.2 target hmem target List.mem_cons_self rfl
    rw [ofTargets, List.forall_mem_cons, List.forall_mem_cons]
    refine ⟨?_, ?_, ih (fun other hmem => hlt other (List.mem_cons_of_mem _ hmem)) hrest⟩
    · simp [fault?, hlt target List.mem_cons_self]
    · simp [fault?, hfresh]

theorem fault?_ofEntries {entries : List Entry}
    (hcount : ∀ entry ∈ entries, entry.children.length ≤ 3)
    (hlt : ∀ entry ∈ entries, ∀ target ∈ entry.links, target < size)
    (hnodup : (earlier ++ entries.flatMap Entry.links).Nodup) :
    ∀ check ∈ ofEntries place earlier entries, check.fault? size = none := by
  induction entries generalizing place earlier with
  | nil => simp [ofEntries]
  | cons entry rest ih =>
    rw [List.flatMap_cons, ← List.append_assoc] at hnodup
    obtain ⟨hcountEntry, hcountRest⟩ := List.forall_mem_cons.mp hcount
    obtain ⟨hltEntry, hltRest⟩ := List.forall_mem_cons.mp hlt
    rw [ofEntries, List.forall_mem_append, List.forall_mem_cons]
    refine ⟨⟨?_, ?_⟩, ih hcountRest hltRest hnodup⟩
    · simp [fault?, hcountEntry]
    · exact fault?_ofTargets hltEntry (List.nodup_append.mp hnodup).1

end LinkCheck

namespace Document

open LinkCheck

variable {size place : Nat} {linked : Linked} {done : List Nat} {error : LinkError}

theorem firstFault?_eq_none {α : Type} {checks : List LinkCheck} {result : Except LinkError α}
    {value : α} (h : ∀ error, result = .error error ↔ firstFault? size checks = some error)
    (hok : result = .ok value) : firstFault? size checks = none := by
  rw [Option.eq_none_iff_forall_ne_some]
  intro error hfault
  rw [(h error).mpr hfault] at hok
  cases hok

theorem markTargets_eq_error_iff {targets : List Nat} (h : Records size linked done)
    (error : LinkError) :
    markTargets size place targets linked = .error error ↔
      firstFault? size (ofTargets place done targets) = some error := by
  induction targets generalizing linked done with
  | nil => simp [markTargets, ofTargets]
  | cons target rest ih =>
    rw [markTargets, ofTargets, firstFault?_cons, firstFault?_cons]
    by_cases hlt : target < size
    · have hmarked := h.marked target
      by_cases hmem : target ∈ done
      · simp [fault?, hlt, Nat.not_le.mpr hlt, hmarked, hmem]
      · have hrest := ih (h.mark hlt (by simpa [hmem] using hmarked))
        simpa [fault?, hlt, Nat.not_le.mpr hlt, hmarked, hmem] using hrest
    · simp [fault?, hlt, Nat.not_lt.mp hlt]

theorem markEntries_eq_error_iff {entries : List Entry} (h : Records size linked done)
    (error : LinkError) :
    markEntries size place entries linked = .error error ↔
      firstFault? size (ofEntries place done entries) = some error := by
  induction entries generalizing place linked done with
  | nil => simp [markEntries, ofEntries]
  | cons entry rest ih =>
    rw [markEntries, ofEntries, firstFault?_append, firstFault?_cons]
    by_cases hcount : entry.children.length ≤ 3
    · simp only [fault?, hcount, Nat.not_lt.mpr hcount, if_true, if_false, Option.none_or]
      cases htargets : markTargets size place entry.links linked with
      | error fault =>
        rw [(markTargets_eq_error_iff h fault).mp htargets]
        simp [bind, Except.bind]
      | ok marked =>
        rw [firstFault?_eq_none (markTargets_eq_error_iff h) htargets, Option.none_or]
        exact ih (h.markTargets htargets)
    · simp [fault?, hcount, Nat.not_le.mp hcount]

theorem markRoot_eq_error_iff {root : Option Nat} (error : LinkError) :
    markRoot size root linked = .error error ↔
      firstFault? size (root.toList.map rootRange) = some error := by
  cases root with
  | none => simp [markRoot]
  | some root =>
    by_cases hlt : root < size
    · simp [markRoot, firstFault?_cons, fault?, hlt, Nat.not_le.mpr hlt]
    · simp [markRoot, firstFault?_cons, fault?, hlt, Nat.not_lt.mp hlt]

/-- The checks of a document in order: the root, then entry by entry the number of children and
each link. -/
def checks (doc : Document) : List LinkCheck :=
  doc.root.toList.map rootRange ++ ofEntries 0 doc.root.toList doc.entries

theorem checkLinks_eq_error_iff {doc : Document} (error : LinkError) :
    doc.checkLinks = .error error ↔ firstFault? doc.size doc.checks = some error := by
  rw [checkLinks, checks, firstFault?_append]
  cases hroot : markRoot doc.size doc.root (Array.replicate doc.size false) with
  | error fault =>
    rw [(markRoot_eq_error_iff fault).mp hroot]
    simp [bind, Except.bind]
  | ok linked =>
    rw [firstFault?_eq_none markRoot_eq_error_iff hroot, Option.none_or,
      ← markEntries_eq_error_iff (Records.markRoot hroot)]
    cases hentries : markEntries doc.size 0 doc.entries linked with
    | error fault => simp [bind, Except.bind, hentries]
    | ok marked => simp [bind, Except.bind, pure, Except.pure, hentries]

/-- A document passes the check if and only if it links to its own entries only, to none of them
twice, and no entry has more children than a node has slots. -/
theorem checkLinks_eq_ok_iff {doc : Document} :
    doc.checkLinks = .ok () ↔
      (∀ target ∈ doc.links, target < doc.size) ∧ doc.links.Nodup ∧
        ∀ entry ∈ doc.entries, entry.children.length ≤ 3 := by
  refine ⟨links_of_checkLinks, ?_⟩
  rintro ⟨hlt, hnodup, hcount⟩
  rw [links, List.forall_mem_append] at hlt
  obtain ⟨hltRoot, hltEntries⟩ := hlt
  have hnone : firstFault? doc.size doc.checks = none := by
    rw [firstFault?_eq_none_iff, checks, List.forall_mem_append]
    refine ⟨?_, fault?_ofEntries hcount ?_ hnodup⟩
    · simpa [fault?] using hltRoot
    · intro entry hentry target htarget
      exact hltEntries target (List.mem_flatMap.mpr ⟨entry, hentry, htarget⟩)
  cases hcheck : doc.checkLinks with
  | error error =>
    rw [(checkLinks_eq_error_iff error).mp hcheck] at hnone
    cases hnone
  | ok => rfl

theorem forall_links_lt_iff {doc : Document} :
    (∀ target ∈ doc.links, target < doc.size) ↔
      (∀ root ∈ doc.root, root < doc.size) ∧
        ∀ entry ∈ doc.entries, ∀ target ∈ entry.links, target < doc.size := by
  simp only [links, List.forall_mem_append, Option.mem_toList, List.mem_flatMap]
  refine and_congr_right fun _ => ⟨?_, ?_⟩
  · intro hlt entry hentry target htarget
    exact hlt target ⟨entry, hentry, htarget⟩
  · rintro hlt target ⟨entry, hentry, htarget⟩
    exact hlt entry hentry target htarget

theorem child_toNode (entry : Entry) (slot : Slot) :
    entry.toNode.child slot = entry.children[slot.val]?.join := by
  match slot with
  | 0 => rfl
  | 1 => rfl
  | 2 => rfl

theorem node?_toTree (doc : Document) (place : Nat) :
    doc.toTree.node? place = doc.entries[place]?.map Entry.toNode := by
  simp [toTree, Tree.node?]

end Document

namespace Tree

open Document LinkCheck

variable {text : String} {doc : Document}

theorem ofText_eq_ok_iff (h : Document.parse? text.toList = some doc) {tree : Tree} :
    ofText text = .ok tree ↔ doc.checkLinks = .ok () ∧ tree = doc.toTree := by
  simp only [ofText, h]
  cases doc.checkLinks <;> simp [throw, throwThe, MonadExceptOf.throw, pure, Except.pure, eq_comm]

theorem ofText_eq_error_iff (h : Document.parse? text.toList = some doc) {error : TreeError} :
    ofText text = .error error ↔
      ∃ fault, doc.checkLinks = .error fault ∧ error = .badLink fault := by
  simp only [ofText, h]
  cases doc.checkLinks <;> simp [throw, throwThe, MonadExceptOf.throw, pure, Except.pure, eq_comm]

/-- A document is taken if and only if its links are in range and all different and no entry has
more than three children; else its first fault is the error. The tree that is taken has a node for
each entry, with the links of the entry. -/
theorem ofText_outcome (h : Document.parse? text.toList = some doc) :
    ((∃ tree, ofText text = .ok tree) ↔
      (∀ root ∈ doc.root, root < doc.size) ∧
      (∀ entry ∈ doc.entries, entry.children.length ≤ 3) ∧
      (∀ entry ∈ doc.entries, ∀ target ∈ entry.links, target < doc.size) ∧
      doc.links.Nodup) ∧
    (∀ error, ofText text = .error error ↔
      ∃ fault, firstFault? doc.size doc.checks = some fault ∧ error = .badLink fault) ∧
    ∀ tree, ofText text = .ok tree →
      tree.size = doc.size ∧ tree.root = doc.root ∧
      ∀ place entry, doc.entries[place]? = some entry →
        ∃ node, tree.node? place = some node ∧ node.label = entry.label ∧ node.line = entry.line ∧
          node.sibling = entry.sibling ∧
          ∀ slot : Slot, node.child slot = entry.children[slot.val]?.join := by
  refine ⟨?_, ?_, ?_⟩
  · simp only [ofText_eq_ok_iff h, exists_and_left, exists_eq, and_true]
    rw [checkLinks_eq_ok_iff, forall_links_lt_iff]
    constructor
    · rintro ⟨⟨hroot, htargets⟩, hnodup, hcount⟩
      exact ⟨hroot, hcount, htargets, hnodup⟩
    · rintro ⟨hroot, hcount, htargets, hnodup⟩
      exact ⟨⟨hroot, htargets⟩, hnodup, hcount⟩
  · intro error
    simp only [ofText_eq_error_iff h, checkLinks_eq_error_iff]
  · intro tree htree
    obtain ⟨-, rfl⟩ := (ofText_eq_ok_iff h).mp htree
    refine ⟨size_toTree doc, rfl, ?_⟩
    intro place entry hentry
    refine ⟨entry.toNode, ?_, rfl, rfl, rfl, child_toNode entry⟩
    rw [node?_toTree, hentry, Option.map_some]

/-- The first entry links to the second one twice, before the second one links out of range. -/
def sharedText : String :=
  "[0,[\x7b\"kind\":\"compound\",\"children\":[1,null,1]\x7d,"
    ++ "\x7b\"kind\":\"return\",\"sibling\":7\x7d]]"

def sharedDocument : Document where
  root := some 0
  entries := [
    ⟨.statement .block, 0, [some 1, none, some 1], none⟩,
    ⟨.statement .ret, 0, [], some 7⟩]

def backwardText : String :=
  "[1,[\x7b\"kind\":\"const\",\"value\":5\x7d,\x7b\"kind\":\"return\",\"children\":[0]\x7d]]"

def backwardDocument : Document where
  root := some 1
  entries := [
    ⟨.expression (.constant 5), 0, [], none⟩,
    ⟨.statement .ret, 0, [some 0], none⟩]

theorem ofText_sharedText :
    Document.parse? sharedText.toList = some sharedDocument ∧
      ofText sharedText = .error (.badLink (.sharedNode 1)) ∧
      Document.parse? backwardText.toList = some backwardDocument ∧
      ∃ tree, ofText backwardText = .ok tree ∧ tree.size = 2 ∧ tree.root = some 1 := by
  have hshared : Document.parse? sharedText.toList = some sharedDocument :=
    (parse?_ofList (ofList_append rfl rfl)).trans (by decide +kernel)
  have hbackward : Document.parse? backwardText.toList = some backwardDocument :=
    (parse?_ofList rfl).trans (by decide +kernel)
  have herror := ((ofText_outcome hshared).2.1 _).mpr ⟨.sharedNode 1, by decide, rfl⟩
  obtain ⟨tree, htree⟩ := (ofText_outcome hbackward).1.mpr (by decide)
  obtain ⟨hsize, hroot, -⟩ := (ofText_outcome hbackward).2.2 tree htree
  exact ⟨hshared, herror, hbackward, tree, htree, hsize, hroot⟩

end Tree

end ScopeCheck
