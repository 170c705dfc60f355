import Mathlib.Data.List.FinRange
import ScopeCheck.Proofs.Analysis.RecastTypes
import ScopeCheck.Proofs.Document.Checks

namespace ScopeCheck

/-- The entry with its links led elsewhere. -/
def Entry.mapLinks (f : Nat → Nat) (entry : Entry) : Entry :=
  { entry with children := entry.children.map (Option.map f), sibling := entry.sibling.map f }

theorem Entry.links_mapLinks (f : Nat → Nat) (entry : Entry) :
    (entry.mapLinks f).links = entry.links.map f := by
  have hchildren : (entry.children.map (Option.map f)).filterMap id =
      (entry.children.filterMap id).map f := by
    rw [List.filterMap_map, List.map_filterMap]
    rfl
  have hsibling : (entry.sibling.map f).toList = entry.sibling.toList.map f := by
    cases entry.sibling <;> rfl
  rw [links, mapLinks, hchildren, hsibling, ← List.map_append]
  rfl

namespace Document

/-- Where a permutation of the entries puts what stands at a place. Beyond the entries nothing moves. -/
def place (doc : Document) (p : Equiv.Perm (Fin doc.size)) (id : Nat) : Nat :=
  if h : id < doc.size then p ⟨id, h⟩ else id

/-- The document with its entries in another order and with every link led after them. -/
def permute (doc : Document) (p : Equiv.Perm (Fin doc.size)) : Document where
  root := doc.root.map (doc.place p)
  entries := (List.ofFn fun i => doc.entries.get (p.symm i)).map (Entry.mapLinks (doc.place p))

/-- The document with more entries after its own. -/
def extend (doc : Document) (more : List Entry) : Document :=
  { doc with entries := doc.entries ++ more }

variable {doc : Document} {p : Equiv.Perm (Fin doc.size)}

theorem place_of_lt {id : Nat} (h : id < doc.size) : doc.place p id = p ⟨id, h⟩ := dif_pos h

theorem place_lt_iff {id : Nat} : doc.place p id < doc.size ↔ id < doc.size := by
  by_cases h : id < doc.size
  · rw [place_of_lt h]
    exact ⟨fun _ => h, fun _ => (p ⟨id, h⟩).isLt⟩
  · rw [place, dif_neg h]

theorem place_injective (p : Equiv.Perm (Fin doc.size)) : Function.Injective (doc.place p) := by
  intro id other h
  by_cases hid : id < doc.size
  · have hother : other < doc.size := place_lt_iff.mp (h ▸ place_lt_iff.mpr hid)
    rw [place_of_lt hid, place_of_lt hother] at h
    exact congrArg Fin.val (p.injective (Fin.ext h))
  · have hother : ¬ other < doc.size := fun hlt => hid (place_lt_iff.mp (h ▸ place_lt_iff.mpr hlt))
    rwa [place, place, dif_neg hid, dif_neg hother] at h

theorem size_permute : (doc.permute p).size = doc.size := by
  simp [permute, size]

theorem entries_permute_perm :
    (doc.permute p).entries.Perm (doc.entries.map (Entry.mapLinks (doc.place p))) := by
  have hperm : (List.ofFn fun i => doc.entries.get (p.symm i)).Perm (List.ofFn doc.entries.get) :=
    Equiv.Perm.ofFn_comp_perm p.symm doc.entries.get
  rw [List.ofFn_get] at hperm
  exact hperm.map _

theorem links_permute_perm : (doc.permute p).links.Perm (doc.links.map (doc.place p)) := by
  have hroot : (doc.root.map (doc.place p)).toList = doc.root.toList.map (doc.place p) := by
    cases doc.root <;> rfl
  have hlinks : (doc.entries.map (Entry.mapLinks (doc.place p))).flatMap Entry.links =
      (doc.entries.flatMap Entry.links).map (doc.place p) := by
    simp only [List.flatMap_map, List.map_flatMap, Entry.links_mapLinks]
  rw [links, links, List.map_append, ← hroot, ← hlinks]
  exact (List.Perm.refl _).append (entries_permute_perm.flatMap_right _)

/-- A document that is taken is taken in any order. -/
theorem checkLinks_permute (p : Equiv.Perm (Fin doc.size)) (h : doc.checkLinks = .ok ()) :
    (doc.permute p).checkLinks = .ok () := by
  rw [checkLinks_eq_ok_iff] at h ⊢
  obtain ⟨hlt, hnodup, hcount⟩ := h
  refine ⟨fun target hmem => ?_, ?_, fun entry hmem => ?_⟩
  · obtain ⟨older, holder, rfl⟩ := List.mem_map.mp (links_permute_perm.mem_iff.mp hmem)
    rw [size_permute]
    exact place_lt_iff.mpr (hlt older holder)
  · exact links_permute_perm.nodup_iff.mpr (hnodup.map (place_injective p))
  · obtain ⟨older, holder, rfl⟩ := List.mem_map.mp (entries_permute_perm.mem_iff.mp hmem)
    rw [Entry.mapLinks, List.length_map]
    exact hcount older holder

theorem getElem?_permute {id : Nat} {entry : Entry} (h : doc.entries[id]? = some entry) :
    (doc.permute p).entries[doc.place p id]? = some (entry.mapLinks (doc.place p)) := by
  obtain ⟨hlt, rfl⟩ := List.getElem?_eq_some_iff.mp h
  rw [place_of_lt hlt]
  simp [permute]
  rfl

theorem toNode_mapLinks (f : Nat → Nat) (entry : Entry) :
    (entry.mapLinks f).toNode = { entry.toNode with
      children := ⟨entry.toNode.children.first.map f, entry.toNode.children.second.map f,
        entry.toNode.children.third.map f⟩
      sibling := entry.sibling.map f } := by
  have hslot : ∀ slot : Nat, (entry.children.map (Option.map f))[slot]?.join =
      entry.children[slot]?.join.map f := by
    intro slot
    rw [List.getElem?_map]
    cases entry.children[slot]? <;> rfl
  simp only [Entry.toNode, Entry.mapLinks, Slots.ofList, hslot]

end Document

theorem Label.recast_id (label : Label) : label.recast (fun value => value) (fun size => size) = label := by
  cases label with
  | statement stmt => rfl
  | expression expr => cases expr <;> rfl
  | declaration decl => rfl

namespace Recast

def moving (place : NodeId → NodeId) (h : Function.Injective place) : Recast where
  place
  line l := l
  value _ value := value
  size _ size := size
  injective := h

theorem onNode_moving {place : NodeId → NodeId} (h : Function.Injective place) (id : NodeId)
    (entry : Entry) : (moving place h).onNode id entry.toNode = (entry.mapLinks place).toNode := by
  rw [Document.toNode_mapLinks, onNode]
  exact congrArg (Node.mk · _ _ _) entry.label.recast_id

theorem carries_permute (doc : Document) (p : Equiv.Perm (Fin doc.size)) :
    (moving (doc.place p) (Document.place_injective p)).Carries doc.toTree (doc.permute p).toTree where
  root := rfl
  node id node hnode := by
    rw [Document.node?_toTree] at hnode ⊢
    obtain ⟨entry, hentry, rfl⟩ := Option.map_eq_some_iff.mp hnode
    rw [onNode_moving, ← Option.map_some, ← Document.getElem?_permute hentry]
    rfl

def staying : Recast := moving id Function.injective_id

theorem carries_extend (doc : Document) (more : List Entry) :
    staying.Carries doc.toTree (doc.extend more).toTree where
  root := Option.map_id.symm ▸ rfl
  node place node hnode := by
    rw [Document.node?_toTree] at hnode
    obtain ⟨entry, hentry, rfl⟩ := Option.map_eq_some_iff.mp hnode
    have hlt : place < doc.entries.length := (List.getElem?_eq_some_iff.mp hentry).1
    have hlater : (doc.extend more).entries[place]? = some entry := by
      rw [Document.extend, List.getElem?_append_left hlt, hentry]
    have hlinks : entry.mapLinks id = entry := by
      simp [Entry.mapLinks]
    show (doc.extend more).toTree.node? place = _
    rw [Document.node?_toTree, hlater, staying, onNode_moving, hlinks]
    rfl

end Recast

/-- The same symbols, with the nodes that they come from elsewhere. -/
def SymbolTable.mapOrigins (f : NodeId → NodeId) (table : SymbolTable) : SymbolTable :=
  { table with
    symbols := table.symbols.map fun symbol => { symbol with origin := symbol.origin.mapNode f } }

theorem SymbolTable.mapOrigins_id (table : SymbolTable) : table.mapOrigins id = table := by
  have hsymbol : ∀ symbol : Symbol,
      { symbol with origin := symbol.origin.mapNode id } = symbol := by
    rintro ⟨⟨name, kind, type, line, origin⟩, scope, slot, references⟩
    cases origin <;> rfl
  simp [mapOrigins, hsymbol]

/-- What one model says of the nodes, the other one says of them where they have been moved to. -/
structure Model.Moved (place : NodeId → NodeId) (model other : Model) : Prop where
  scopes : other.scopes = model.scopes
  symbols : other.symbols = model.symbols.mapOrigins place
  diagnostics : other.diagnostics = model.diagnostics
  typeOf : ∀ id, other.facts.typeOf (place id) = model.facts.typeOf id
  scopeOf : ∀ id, other.facts.scopeOf (place id) = model.facts.scopeOf id
  resolution : ∀ id, other.facts.resolution (place id) = model.facts.resolution id
  declared : ∀ id, other.facts.declared (place id) = model.facts.declared id

/-- Nothing has been found out about a node. -/
structure NodeFacts.Silent (facts : NodeFacts) (id : NodeId) : Prop where
  typeOf : facts.typeOf id = none
  scopeOf : facts.scopeOf id = none
  resolution : facts.resolution id = none
  declared : facts.declared id = none

namespace Recast

variable {place : NodeId → NodeId} {h : Function.Injective place}

theorem onSymbols_moving (table : SymbolTable) :
    (moving place h).onSymbols table = table.mapOrigins place := by
  simp only [onSymbols, SymbolTable.mapOrigins, SymbolTable.mk.injEq, and_true]
  congr 1
  funext symbol
  have hline : ∀ definition : Definition, definition.mapLine (fun line => line) = definition := by
    rintro ⟨name, kind, type, line, origin⟩
    cases origin <;> rfl
  have hreferences : symbol.references.map (fun line => line) = symbol.references :=
    Array.map_id' _
  simp only [onSymbol, Symbol.mapLines, moving, hline, hreferences]

theorem RelatesModel.moved {model other : Model} (hmodels : (moving place h).RelatesModel model other) :
    model.Moved place other where
  scopes := hmodels.scopes
  symbols := hmodels.symbols.trans (onSymbols_moving _)
  diagnostics := hmodels.diagnostics.trans (Array.map_id' _)
  typeOf := hmodels.facts.typeOf
  scopeOf := hmodels.facts.scopeOf
  resolution := hmodels.facts.resolution
  declared := hmodels.facts.declared

theorem mapLine_error (error : AnalysisError) : error.mapLine (moving place h).line = error := by
  cases error <;> rfl

/-- Where no node moves the outcome is the very same. -/
theorem analyze_eq_of_staying {tree other : Tree} (hcarries : staying.Carries tree other)
    (hwell : tree.WellLinked) (hwell' : other.WellLinked) (builtins : Bool) :
    analyze builtins other = analyze builtins tree := by
  have houtcomes := outcomes_analyze hcarries hwell hwell' builtins
  generalize analyze builtins tree = result at houtcomes ⊢
  generalize analyze builtins other = result' at houtcomes ⊢
  cases houtcomes with
  | error error => exact congrArg _ (mapLine_error error)
  | @ok model other hmodels =>
    obtain ⟨scopes, symbols, facts, diagnostics⟩ := other
    have hmoved := hmodels.moved
    obtain rfl := hmoved.scopes
    obtain rfl := hmoved.symbols.trans (SymbolTable.mapOrigins_id _)
    obtain rfl := hmoved.diagnostics
    obtain rfl := hmodels.facts.eq_of_place fun _ => rfl
    rfl

end Recast

/-- An analysis finds out nothing about nodes that the root does not lead to. -/
theorem silent_of_not_reachable {tree : Tree} (hwell : tree.WellLinked) {builtins : Bool}
    {model : Model} (hmodel : analyze builtins tree = .ok model) {id : NodeId}
    (hid : ¬ tree.Reachable id) : model.facts.Silent id := by
  obtain ⟨-, typed, hrun, -, rfl⟩ := analyze_eq_ok_iff.mp hmodel
  have hsame := Typing.sameNames_run hrun
  have hnever : ∀ node, .enter id node ∉ tree.events :=
    fun node hmem => hid (hwell.enter_mem_iff.mp hmem).1
  refine ⟨?_, ?_, ?_, ?_⟩
  · exact (Typing.typeOf_run_ty hwell hrun (List.prefix_refl _) hrun id).trans
      (if_neg (mt (Tree.mem_leftIds_events hwell).mp hid))
  · refine (hsame.scopeOf_eq id).trans ((Resolution.scopeOf_run_of_not_mem hnever).trans ?_)
    rw [State.start_facts]
    rfl
  · refine (hsame.resolution_eq id).trans ((Resolution.resolution_run_of_not_mem hnever).trans ?_)
    rw [State.start_facts]
    rfl
  · refine (hsame.declared_eq id).trans ((Resolution.declared_run_of_not_mem hnever).trans ?_)
    rw [State.start_facts]
    rfl

/-- The order of the nodes in a document, and nodes that nothing leads to, do not matter: in another
order a document is taken as well and analysed to the same, more nodes that are not linked to change
nothing, and nothing is found out about them. -/
theorem layout_irrelevant {text : String} {doc : Document} {tree : Tree}
    (hparse : Document.parse? text.toList = some doc) (h : Tree.ofText text = .ok tree)
    (builtins : Bool) :
    (∀ p : Equiv.Perm (Fin doc.size),
      (∀ text', Document.parse? text'.toList = some (doc.permute p) →
        Tree.ofText text' = .ok (doc.permute p).toTree) ∧
      (doc.permute p).checkLinks = .ok () ∧
      ((∃ error, analyze builtins tree = .error error ∧
          analyze builtins (doc.permute p).toTree = .error error) ∨
        ∃ model other, analyze builtins tree = .ok model ∧
          analyze builtins (doc.permute p).toTree = .ok other ∧ model.Moved (doc.place p) other)) ∧
    (∀ more, (doc.extend more).checkLinks = .ok () →
      analyze builtins (doc.extend more).toTree = analyze builtins tree) ∧
    ∀ model, analyze builtins tree = .ok model → ∀ id, ¬ tree.Reachable id → model.facts.Silent id := by
  obtain ⟨hlinks, rfl⟩ := (Tree.ofText_eq_ok_iff hparse).mp h
  have hwell := Document.wellLinked_toTree hlinks
  refine ⟨fun p => ?_, fun more hmore => ?_, fun model hmodel id => silent_of_not_reachable hwell hmodel⟩
  · have hlinks' := Document.checkLinks_permute p hlinks
    have houtcomes := Recast.outcomes_analyze (Recast.carries_permute doc p) hwell
      (Document.wellLinked_toTree hlinks') builtins
    refine ⟨fun text' hparse' => (Tree.ofText_eq_ok_iff hparse').mpr ⟨hlinks', rfl⟩, hlinks', ?_⟩
    generalize analyze builtins doc.toTree = result at houtcomes ⊢
    generalize analyze builtins (doc.permute p).toTree = result' at houtcomes ⊢
    cases houtcomes with
    | error error => exact .inl ⟨error, rfl, congrArg _ (Recast.mapLine_error error)⟩
    | ok hmodels => exact .inr ⟨_, _, rfl, rfl, hmodels.moved⟩
  · exact Recast.analyze_eq_of_staying (Recast.carries_extend doc more) hwell
      (Document.wellLinked_toTree hmore) builtins

/-- A return and its value. The last constant belongs to nothing. -/
def forwardText : String :=
  "[0,[\x7b\"kind\":\"return\",\"line\":1,\"children\":[1]\x7d,"
    ++ "\x7b\"kind\":\"const\",\"value\":5,\"line\":2\x7d,"
    ++ "\x7b\"kind\":\"const\",\"value\":6,\"line\":3\x7d]]"

def forwardDocument : Document where
  root := some 0
  entries := [
    ⟨.statement .ret, 1, [some 1], none⟩,
    ⟨.expression (.constant 5), 2, [], none⟩,
    ⟨.expression (.constant 6), 3, [], none⟩]

def reversedText : String :=
  "[1,[\x7b\"kind\":\"const\",\"value\":5,\"line\":2\x7d,"
    ++ "\x7b\"kind\":\"return\",\"line\":1,\"children\":[0]\x7d,"
    ++ "\x7b\"kind\":\"const\",\"value\":6,\"line\":3\x7d]]"

theorem layout_forwardDocument :
    Document.parse? forwardText.toList = some forwardDocument ∧
      ∃ p : Equiv.Perm (Fin forwardDocument.size),
        Document.parse? reversedText.toList = some (forwardDocument.permute p) ∧
        Tree.ofText reversedText = .ok (forwardDocument.permute p).toTree ∧
        ∃ model, analyze true (forwardDocument.permute p).toTree = .ok model ∧
          model.facts.typeOf 0 = some .integer ∧ model.facts.Silent 2 := by
  have hforward : Document.parse? forwardText.toList = some forwardDocument :=
    (Document.parse?_ofList (ofList_append (ofList_append rfl rfl) rfl)).trans (by decide +kernel)
  have htree : Tree.ofText forwardText = .ok forwardDocument.toTree :=
    (Tree.ofText_eq_ok_iff hforward).mpr ⟨by decide, rfl⟩
  obtain ⟨hpermute, -, hsilent⟩ := layout_irrelevant hforward htree true
  let p : Equiv.Perm (Fin forwardDocument.size) := Equiv.swap ⟨0, by decide⟩ ⟨1, by decide⟩
  have hreversed : Document.parse? reversedText.toList = some (forwardDocument.permute p) :=
    (Document.parse?_ofList (ofList_append (ofList_append rfl rfl) rfl)).trans (by decide +kernel)
  obtain ⟨htaken, -, ⟨error, herror, -⟩ | ⟨model, other, hmodel, hother, hmoved⟩⟩ := hpermute p
  · cases herror
  obtain ⟨found, hfound, htype⟩ : ∃ model, analyze true forwardDocument.toTree = .ok model ∧
      model.facts.typeOf 1 = some .integer := ⟨_, rfl, rfl⟩
  obtain rfl : found = model := Except.ok.inj (hfound.symm.trans hmodel)
  have hunreached : ¬ forwardDocument.toTree.Reachable 2 := by
    rw [Tree.reachable_iff_mem_ids (Tree.wellLinked_of_ofText htree).unfolds]
    decide
  have hnone := hsilent found hmodel 2 hunreached
  have hvalue : forwardDocument.place p 1 = 0 := by decide
  have hlast : forwardDocument.place p 2 = 2 := by decide
  refine ⟨hforward, p, hreversed, htaken _ hreversed, other, hother, ?_, ?_⟩
  · rw [← hvalue, hmoved.typeOf, htype]
  · rw [← hlast]
    exact ⟨(hmoved.typeOf 2).trans hnone.typeOf, (hmoved.scopeOf 2).trans hnone.scopeOf,
      (hmoved.resolution 2).trans hnone.resolution, (hmoved.declared 2).trans hnone.declared⟩

end ScopeCheck
