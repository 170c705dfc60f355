import ScopeCheck.Document.Reader
import ScopeCheck.Proofs.Tree.WellLinked

namespace ScopeCheck

namespace Document

/-- The marks stand for the links in `done`, which are in range and all different. -/
structure Records (size : Nat) (linked : Linked) (done : List Nat) : Prop where
  size_eq : linked.size = size
  lt_size : ∀ target ∈ done, target < size
  nodup : done.Nodup
  marked : ∀ target, linked.getD target false = decide (target ∈ done)

variable {size : Nat} {linked linked' : Linked} {done : List Nat}

theorem records_nil (size : Nat) : Records size (Array.replicate size false) [] where
  size_eq := Array.size_replicate
  lt_size := by simp
  nodup := List.nodup_nil
  marked target := by simp [Array.getD, Array.getElem_replicate]

theorem Records.mark (h : Records size linked done) {target : Nat} (hlt : target < size)
    (hnew : linked.getD target false = false) :
    Records size (linked.setIfInBounds target true) (done ++ [target]) where
  size_eq := by simpa using h.size_eq
  lt_size other hmem := by
    rcases List.mem_append.mp hmem with hmem | hmem
    · exact h.lt_size other hmem
    · rwa [List.mem_singleton.mp hmem]
  nodup := by
    rw [h.marked, decide_eq_false_iff_not] at hnew
    refine List.nodup_append.mpr ⟨h.nodup, List.pairwise_singleton _ _, ?_⟩
    rintro other hmem _ htarget rfl
    rw [List.mem_singleton.mp htarget] at hmem
    exact hnew hmem
  marked other := by
    have hother := h.marked other
    simp only [Array.getD_eq_getD_getElem?, Array.getElem?_setIfInBounds, h.size_eq] at hother ⊢
    by_cases heq : target = other
    · subst heq
      simp [hlt]
    · simp [heq, hother, Ne.symm heq]

theorem Records.markTargets {place : Nat} {targets : List Nat} (h : Records size linked done)
    (hok : markTargets size place targets linked = .ok linked') :
    Records size linked' (done ++ targets) := by
  induction targets generalizing linked done with
  | nil =>
    cases hok
    simpa using h
  | cons target targets ih =>
    rw [Document.markTargets] at hok
    split at hok
    · cases hok
    · rename_i hlt
      split at hok
      · cases hok
      · rename_i hnew
        simpa using ih (h.mark (by omega) (by simpa using hnew)) hok

theorem Records.markEntries {place : Nat} {entries : List Entry} (h : Records size linked done)
    (hok : markEntries size place entries linked = .ok linked') :
    Records size linked' (done ++ entries.flatMap Entry.links) ∧
      ∀ entry ∈ entries, entry.children.length ≤ 3 := by
  induction entries generalizing place linked done with
  | nil =>
    cases hok
    simpa using h
  | cons entry entries ih =>
    rw [Document.markEntries] at hok
    split at hok
    · cases hok
    · rename_i hlength
      cases htargets : Document.markTargets size place entry.links linked with
      | error error =>
        rw [htargets] at hok
        cases hok
      | ok marked =>
        rw [htargets] at hok
        obtain ⟨hrest, hrestLength⟩ := ih (h.markTargets htargets) hok
        refine ⟨by simpa using hrest, ?_⟩
        intro other hmem
        rcases List.mem_cons.mp hmem with rfl | hmem
        · omega
        · exact hrestLength other hmem

theorem Records.markRoot {root : Option Nat} (hok : markRoot size root
    (Array.replicate size false) = .ok linked') : Records size linked' root.toList := by
  cases root with
  | none =>
    cases hok
    exact records_nil size
  | some root =>
    rw [Document.markRoot] at hok
    split at hok
    · cases hok
    · rename_i hlt
      cases hok
      simpa using (records_nil size).mark (by omega : root < size)
        (by simpa using (records_nil size).marked root)

/-- A document that passes the check links to its own entries only, to none of them twice. -/
theorem links_of_checkLinks {doc : Document} (h : doc.checkLinks = .ok ()) :
    (∀ target ∈ doc.links, target < doc.size) ∧ doc.links.Nodup ∧
      ∀ entry ∈ doc.entries, entry.children.length ≤ 3 := by
  rw [checkLinks] at h
  cases hroot : Document.markRoot doc.size doc.root (Array.replicate doc.size false) with
  | error error =>
    rw [hroot] at h
    cases h
  | ok linked =>
    rw [hroot] at h
    cases hentries : Document.markEntries doc.size 0 doc.entries linked with
    | error error =>
      simp only [bind, Except.bind, hentries] at h
      cases h
    | ok marked =>
      obtain ⟨hrecords, hlength⟩ := (Records.markRoot hroot).markEntries hentries
      exact ⟨hrecords.lt_size, hrecords.nodup, hlength⟩

theorem size_toTree (doc : Document) : doc.toTree.size = doc.size := by
  simp [toTree, Tree.size, size]

theorem links_toNode {entry : Entry} (h : entry.children.length ≤ 3) :
    entry.toNode.links = entry.links := by
  obtain ⟨label, line, children, sibling⟩ := entry
  have hslots : (Slots.ofList children).toList.filterMap id = children.filterMap id := by
    match children with
    | [] => rfl
    | [first] => cases first <;> rfl
    | [first, second] => cases first <;> cases second <;> rfl
    | [first, second, third] => cases first <;> cases second <;> cases third <;> rfl
    | _ :: _ :: _ :: _ :: _ =>
      simp only [List.length_cons] at h
      omega
  simp only [Node.links, Entry.toNode, Entry.links, List.filterMap_append, hslots]
  cases sibling <;> rfl

theorem links_toTree {doc : Document} (h : ∀ entry ∈ doc.entries, entry.children.length ≤ 3) :
    doc.toTree.links = doc.links := by
  simp only [Tree.links, toTree, links, List.flatMap_def, List.map_map]
  have hmap : doc.entries.map (Node.links ∘ Entry.toNode) = doc.entries.map Entry.links :=
    List.map_congr_left fun entry hmem => links_toNode (h entry hmem)
  rw [hmap]

theorem wellLinked_toTree {doc : Document} (h : doc.checkLinks = .ok ()) :
    doc.toTree.WellLinked := by
  obtain ⟨hlt, hnodup, hlength⟩ := links_of_checkLinks h
  constructor
  · rw [links_toTree hlength, size_toTree]
    exact hlt
  · rw [links_toTree hlength]
    exact hnodup

end Document

/-- Every tree that is read from a text is well linked. -/
theorem Tree.wellLinked_of_ofText {text : String} {tree : Tree} (h : ofText text = .ok tree) :
    tree.WellLinked := by
  rw [ofText] at h
  split at h
  · cases h
  · rename_i doc _
    split at h
    · cases h
    · rename_i hlinks
      cases h
      exact Document.wellLinked_toTree hlinks

theorem ofList_append {text rest : String} {chars others : List Char} (h : text = .ofList chars)
    (h' : rest = .ofList others) : text ++ rest = .ofList (chars ++ others) := by
  rw [h, h', String.ofList_append]

theorem Document.parse?_ofList {text : String} {chars : List Char} (h : text = .ofList chars) :
    parse? text.toList = parse? chars := by
  rw [h, String.toList_ofList]

/-- Reads a text that is given by its characters, so that none of them has to be decoded. -/
theorem Tree.ofText_eq_ok {text : String} {chars : List Char} {tree : Tree}
    (htext : text = .ofList chars)
    (h : ((Document.parse? chars).filter (·.checkLinks.isOk)).map Document.toTree = some tree) :
    ofText text = .ok tree := by
  obtain ⟨doc, hdoc, rfl⟩ := Option.map_eq_some_iff.mp h
  obtain ⟨hparse, hlinks⟩ := Option.filter_eq_some_iff.mp hdoc
  simp only [ofText, Document.parse?_ofList htext, hparse]
  cases hcheck : doc.checkLinks with
  | error error =>
    rw [hcheck] at hlinks
    cases hlinks
  | ok => rfl

end ScopeCheck
