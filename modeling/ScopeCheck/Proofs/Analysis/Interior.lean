import ScopeCheck.Proofs.Analysis.ComplaintRenaming
import ScopeCheck.Proofs.Tree.Interior

namespace ScopeCheck

theorem Forest.headType_congr {symbolAt other : NodeId → Option Symbol} {forest : Forest}
    (hrole : ∀ id ∈ forest.ids, (other id).map Symbol.role = (symbolAt id).map Symbol.role) :
    forest.headType other = forest.headType symbolAt := by
  have htype := @headType_mapNodes (fun _ node => node) _ _ forest hrole
    fun _ node => ⟨fun name => name, node.label.rename_id.symm⟩
  rwa [mapNodes_eq_self _ fun _ _ _ => rfl] at htype

theorem Typing.leftAlong_mapNode_of_label {change : NodeId → Node → Node}
    (hlabel : ∀ id node, (change id node).label = node.label) (events : List Event) :
    leftAlong none (events.map (Event.mapNode change)) =
      (leftAlong none events).map fun item => (item.1, item.2.1, change item.2.1 item.2.2) := by
  have henclosing : ∀ other node, .enter other node ∈ events →
      (change other node).label.enclosing? = node.label.enclosing?.map id := by
    intro other node _
    rw [hlabel, Option.map_id, id]
  have hleft := leftAlong_mapNode (fun id node => by rw [hlabel]) none henclosing
  simpa only [Option.map_id, id] using hleft

theorem Model.reachable_of_origin {tree : Tree} (hwell : tree.WellLinked) {builtins : Bool}
    {model : Model} (hsymbols : model.symbols = (Resolution.run (.start builtins) tree.events).symbols)
    {id : NodeId} {symbol : Symbol} (hsymbol : model.symbolAt id = some symbol) {decl : NodeId}
    (horigin : symbol.origin = .node decl) : tree.Reachable decl := by
  obtain ⟨_, -, hfound⟩ := Option.bind_eq_some_iff.mp hsymbol
  rw [hsymbols] at hfound
  obtain ⟨node, hentered⟩ := Resolution.exists_entered_of_origin hfound horigin
  exact (hwell.mem_entered_iff.mp hentered).1

theorem Tree.leakCount_eq_zero_iff {tree : Tree} (hwell : tree.WellLinked) :
    tree.leakCount = 0 ↔ ∀ id, tree.Reachable id → ¬ tree.Leaks id := by
  rw [leakCount_eq hwell, List.length_eq_zero_iff, List.eq_nil_iff_forall_not_mem]
  refine forall_congr' fun id => ?_
  rw [hwell.unfolds.mem_leaking hwell fun top htop => .root htop,
    ← reachable_iff_mem_ids hwell.unfolds, not_and]

namespace Tree.SameInside

variable {tree other : Tree} (h : tree.SameInside other) (hwell : tree.WellLinked)
  (hother : other.WellLinked) {id : NodeId} (hid : tree.Reachable id)

include h hwell hother hid

theorem leaks (hleaks : tree.Leaks id) : other.Leaks id := by
  obtain ⟨node, hnode, hfunction, hfirst⟩ := hleaks
  obtain ⟨sibling, hnode'⟩ := h.node id node hid hnode
  refine ⟨_, hnode', hfunction, ?_⟩
  show firstOpening (other.eventsFrom (node.child 0) ++ other.eventsFrom (node.child 1)
    ++ other.eventsFrom (node.child 2)) = some .function
  simp only [(h.child_eq hwell hother hid hnode _).2]
  exact hfirst

omit hwell hother in
theorem hasOddBody (hodd : tree.HasOddBody id) : other.HasOddBody id := by
  obtain ⟨node, body, bodyNode, hnode, hfunction, hchild, hbody, hblock⟩ := hodd
  obtain ⟨_, hnode'⟩ := h.node id node hid hnode
  obtain ⟨_, hbody'⟩ := h.node body bodyNode (.child 1 hid hnode hchild) hbody
  exact ⟨_, body, _, hnode', hfunction, hchild, hbody', hblock⟩

omit hid in
theorem exists_analyze {builtins : Bool} {model : Model}
    (hmodel : analyze builtins other = .ok model) : ∃ model, analyze builtins tree = .ok model := by
  obtain ⟨hleaks, hblocks⟩ := (exists_analyze_iff hother builtins).mp ⟨model, hmodel⟩
  rw [leakCount_eq_zero_iff hother] at hleaks
  refine (exists_analyze_iff hwell builtins).mpr ⟨?_, fun id hid hodd => ?_⟩
  · exact (leakCount_eq_zero_iff hwell).mpr fun id hid hleak =>
      hleaks id (h.reachable id hid) (h.leaks hwell hother hid hleak)
  · exact hblocks id (h.reachable id hid) (h.hasOddBody hid hodd)

section Models

variable {model model' : Model}

theorem ty_eq (hrole : ∀ id, tree.Reachable id → model'.roleAt id = model.roleAt id) :
    model'.ty other id = model.ty tree id := by
  obtain ⟨around, hinside⟩ := (reachable_iff_exists_inside fun _ => true).mp hid
  obtain ⟨node, hnode⟩ := Option.ne_none_iff_exists'.mp (hid.node_ne_none hwell)
  obtain ⟨sibling, hnode'⟩ := h.node id node hid hnode
  have hchild : ∀ (slot : Slot) forest, tree.Unfolds (node.child slot) forest →
      other.Unfolds (node.child slot) forest ∧
        forest.headType model'.symbolAt = forest.headType model.symbolAt := by
    intro slot forest hforest
    refine ⟨h.child id node slot forest hid hnode hforest, Forest.headType_congr ?_⟩
    intro inner hmem
    obtain ⟨_, hinner, -⟩ := hforest.inside_of_mem
      (fun top htop => .child slot hinside hnode htop) hmem
    exact hrole inner ((reachable_iff_exists_inside _).mpr ⟨_, hinner⟩)
  have hold := hid.unfolds hwell
  have hnew := (h.reachable id hid).unfolds hother
  rw [Model.ty, Model.ty]
  generalize tree.forestUpTo tree.size (some id) = forest at hold
  generalize other.forestUpTo other.size (some id) = forest' at hnew
  cases hold with
  | cons hsame hfirst hsecond _ _ =>
    cases hnew with
    | cons hsame' hfirst' hsecond' _ _ =>
      obtain rfl := Option.some.inj (hnode.symm.trans hsame)
      obtain rfl := Option.some.inj (hnode'.symm.trans hsame')
      obtain ⟨hkept, htype⟩ := hchild 0 _ hfirst
      obtain ⟨hkept', htype'⟩ := hchild 1 _ hsecond
      rw [hfirst'.unique hkept, hsecond'.unique hkept', Forest.headType, Forest.headType, htype,
        htype']
      cases node.label with
      | statement stmt => rfl
      | declaration decl => rfl
      | expression expr =>
        have hexpr := expr.typeFrom_congr (fun name => name) (hrole id hid)
        rw [expr.rename_id] at hexpr
        exact hexpr _ _

theorem parameters_eq : Typing.parameters other (.node id) = Typing.parameters tree (.node id) := by
  obtain ⟨node, hnode⟩ := Option.ne_none_iff_exists'.mp (hid.node_ne_none hwell)
  obtain ⟨sibling, hnode'⟩ := h.node id node hid hnode
  have hlist : other.list { node with sibling } 0 = tree.list node 0 :=
    (h.child_eq hwell hother hid hnode 0).1
  simp only [Typing.parameters, hnode, hnode', hlist]

section Complaints

variable {node : Node} (hnode : tree.node? id = some node)
  (htypes : ∀ id, tree.Reachable id → model'.facts.typeOf id = model.facts.typeOf id)

include hnode htypes

omit hother in
theorem operand?_eq (slot : Slot) :
    model'.operand? other (node.child slot) = model.operand? tree (node.child slot) := by
  refine Option.bind_congr fun child hchild => ?_
  have hreachable : tree.Reachable child := .child slot hid hnode hchild
  obtain ⟨childNode, hchildNode⟩ :=
    Option.ne_none_iff_exists'.mp (hreachable.node_ne_none hwell)
  obtain ⟨sibling, hchildNode'⟩ := h.node child childNode hreachable hchildNode
  rw [hchildNode, hchildNode']
  exact congrArg (fun type => some (Operand.mk childNode.line type)) (htypes child hreachable)

theorem operands_eq (slot : Slot) :
    model'.operands other (node.child slot) = model.operands tree (node.child slot) := by
  rw [Model.operands, Model.operands, (h.child_eq hwell hother hid hnode slot).1]
  refine List.map_congr_left fun item hitem => ?_
  exact congrFun (Typing.operandOf_congr
    (htypes item.1 (hid.of_mem_list hwell hnode hitem))) item.2

theorem own_eq (hrole : model'.roleAt id = model.roleAt id)
    (horigin : ∀ symbol decl, model.symbolAt id = some symbol → symbol.origin = .node decl →
      tree.Reachable decl) (enclosing : Option Enclosing) :
    model'.own other enclosing id node = model.own tree enclosing id node := by
  have hown : model'.own other enclosing id (node.rename fun name => name) =
      (model.own tree enclosing id node).map (Diagnostic.rename fun name => name) := by
    apply Model.own_rename
    · exact h.operand?_eq hwell hid hnode htypes 0
    · exact h.operand?_eq hwell hid hnode htypes 1
    · exact h.operands_eq hwell hother hid hnode htypes 0
    · exact hrole
    · intro symbol hsymbol
      cases hdecl : symbol.origin with
      | builtin params => rfl
      | node decl => exact h.parameters_eq hwell hother (horigin symbol decl hsymbol hdecl)
    · intro _ _
      cases enclosing <;> rfl
  rw [← node.rename_id, hown, node.rename_id, List.map_id'' Diagnostic.rename_id]

end Complaints

end Models

end Tree.SameInside

end ScopeCheck
