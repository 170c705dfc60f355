import ScopeCheck.Proofs.Analysis.ResolutionBalance
import ScopeCheck.Proofs.Tree.Positions

namespace ScopeCheck

def Label.isParameter : Label → Bool
  | .declaration decl => decl.kind = .parameter
  | _ => false

theorem Label.opening?_of_isParameter {label : Label} (h : label.isParameter) :
    label.opening? = none := by
  cases label with
  | statement stmt => cases h
  | expression expr => cases h
  | declaration decl =>
    have hkind : decl.kind = .parameter := by simpa [isParameter] using h
    simp [opening?, hkind]

theorem Label.not_isParameter_of_isFunction {label : Label} (h : label.isFunction) :
    ¬ label.isParameter := by
  obtain ⟨decl, rfl, hkind⟩ := exists_declaration h
  simp [isParameter, hkind]

/-- Every function has childless parameters in the first child slot, a block without a sibling in the
second, and nothing in the third. -/
def Tree.FunctionShaped (tree : Tree) : Prop :=
  ∀ id node, tree.Reachable id → tree.node? id = some node → node.label.isFunction →
    (∀ item ∈ tree.chain node.children.first, item.2.label.isParameter ∧ item.2.children = .empty) ∧
    (∃ body bodyNode, node.children.second = some body ∧ tree.node? body = some bodyNode ∧
      bodyNode.label.isBlock ∧ bodyNode.sibling = none) ∧
    node.children.third = none

namespace Forest

def IsParameters : Forest → Prop
  | nil => True
  | cons _ node first second third rest =>
    node.label.isParameter ∧ first = nil ∧ second = nil ∧ third = nil ∧ rest.IsParameters

def IsBody : Forest → Prop
  | nil => False
  | cons _ node _ _ _ rest => node.label.isBlock ∧ rest = nil

def Shaped : Forest → Prop
  | nil => True
  | cons _ node first second third rest =>
    (node.label.isFunction → first.IsParameters ∧ second.IsBody ∧ third = nil) ∧
      first.Shaped ∧ second.Shaped ∧ third.Shaped ∧ rest.Shaped

end Forest

namespace Tree

variable {tree : Tree}

theorem Unfolds.isParameters {start : Option NodeId} {forest : Forest}
    (h : tree.Unfolds start forest)
    (hitems : ∀ item ∈ forest.spine, item.2.label.isParameter ∧ item.2.children = .empty) :
    forest.IsParameters := by
  induction h with
  | nil => trivial
  | @cons id node first second third rest hnode hfirst hsecond hthird _ _ _ _ ihRest =>
    obtain ⟨hparameter, hchildren⟩ := hitems (id, node) (by simp [Forest.spine])
    rw [hchildren] at hfirst hsecond hthird
    cases hfirst
    cases hsecond
    cases hthird
    exact ⟨hparameter, rfl, rfl, rfl,
      ihRest fun item hitem => hitems item (by simp [Forest.spine, hitem])⟩

theorem FunctionShaped.shaped (hwell : tree.WellLinked) (hshaped : tree.FunctionShaped)
    {start : Option NodeId} {forest : Forest} (h : tree.Unfolds start forest)
    (hstart : ∀ top, start = some top → tree.Reachable top) : forest.Shaped := by
  induction h with
  | nil => trivial
  | @cons id node first second third rest hnode hfirst hsecond hthird hrest
      ihFirst ihSecond ihThird ihRest =>
    have hid := hstart id rfl
    refine ⟨fun hfunction => ?_, ihFirst fun next hnext => .child 0 hid hnode hnext,
      ihSecond fun next hnext => .child 1 hid hnode hnext,
      ihThird fun next hnext => .child 2 hid hnode hnext,
      ihRest fun next hnext => .sibling hid hnode hnext⟩
    obtain ⟨hitems, ⟨body, bodyNode, hbody, hbodyNode, hblock, hsibling⟩, hnothing⟩ :=
      hshaped id node hid hnode hfunction
    have hlist : tree.list node 0 = first.spine :=
      hid.list_eq hwell hnode (show tree.Unfolds (node.child 0) first from hfirst)
    refine ⟨hfirst.isParameters fun item hitem => hitems item ?_, ?_, ?_⟩
    · rw [← hlist] at hitem
      exact hitem
    · have hbodyForest : tree.Unfolds (some body) second := hbody ▸ hsecond
      cases hbodyForest with
      | cons hnode' _ _ _ hrest' =>
        obtain rfl : _ = _ := Option.some.inj (hnode'.symm.trans hbodyNode)
        rw [hsibling] at hrest'
        cases hrest'
        exact ⟨hblock, rfl⟩
    · rw [hnothing] at hthird
      cases hthird
      rfl

theorem FunctionShaped.not_hasOddBody (hshaped : tree.FunctionShaped) {id : NodeId}
    (hid : tree.Reachable id) : ¬ tree.HasOddBody id := by
  rintro ⟨node, body, bodyNode, hnode, hfunction, hbody, hbodyNode, hodd⟩
  obtain ⟨-, ⟨body', bodyNode', hbody', hbodyNode', hblock, -⟩, -⟩ :=
    hshaped id node hid hnode hfunction
  obtain rfl : body' = body := Option.some.inj (hbody'.symm.trans hbody)
  obtain rfl : bodyNode' = bodyNode := Option.some.inj (hbodyNode'.symm.trans hbodyNode)
  exact hodd hblock

end Tree

def Event.node : Event → Node
  | enter _ node => node
  | leave _ node => node

namespace Forest

theorem IsParameters.isParameter {forest : Forest} (h : forest.IsParameters) {event : Event}
    (hmem : event ∈ forest.events) : event.node.label.isParameter := by
  induction forest with
  | nil => cases hmem
  | cons id node first second third rest _ _ _ ihRest =>
    obtain ⟨hparameter, rfl, rfl, rfl, hrest⟩ := h
    simp only [events_cons, events_nil, List.nil_append, List.mem_cons] at hmem
    rcases hmem with rfl | rfl | hmem
    · exact hparameter
    · exact hparameter
    · exact ihRest hrest hmem

theorem IsParameters.opening? {forest : Forest} (h : forest.IsParameters) {event : Event}
    (hmem : event ∈ forest.events) : event.node.label.opening? = none :=
  Label.opening?_of_isParameter (h.isParameter hmem)

theorem IsParameters.firstOpening {forest : Forest} (h : forest.IsParameters) :
    firstOpening forest.events = none := by
  refine List.findSome?_eq_none_iff.mpr fun event hmem => ?_
  cases event with
  | enter id node => exact h.opening? hmem
  | leave id node => rfl

theorem IsBody.firstOpening {forest : Forest} (h : forest.IsBody) :
    firstOpening forest.events = some .block := by
  cases forest with
  | nil => cases h
  | cons id node first second third rest =>
    rw [events_cons, firstOpening_cons, Event.opening?, Label.opening?_eq_block.mpr h.1]
    rfl

theorem Shaped.leaking_eq_nil {forest : Forest} (h : forest.Shaped) : forest.leaking = [] := by
  induction forest with
  | nil => rfl
  | cons id node first second third rest ihFirst ihSecond ihThird ihRest =>
    obtain ⟨hfunction, hfirst, hsecond, hthird, hrest⟩ := h
    have htop : ¬ (node.label.isFunction ∧
        ScopeCheck.firstOpening (first.events ++ second.events ++ third.events) =
          some .function) := by
      rintro ⟨hnode, hopening⟩
      obtain ⟨hparameters, hbody, -⟩ := hfunction hnode
      rw [firstOpening_append, firstOpening_append, hparameters.firstOpening,
        hbody.firstOpening] at hopening
      cases hopening
    rw [leaking, if_neg htop, ihFirst hfirst, ihSecond hsecond, ihThird hthird, ihRest hrest]
    rfl

end Forest

namespace Resolution

variable {state : State}

theorem run_plain {events : List Event} (h : ∀ event ∈ events, event.node.label.opening? = none) :
    (run state events).blockEntry = state.blockEntry ∧
      (run state events).active.scopes = state.active.scopes := by
  induction events generalizing state with
  | nil => exact ⟨rfl, rfl⟩
  | cons event events ih =>
    obtain ⟨hentry, hscopes⟩ := @ih (step state event) fun other hmem =>
      h other (List.mem_cons_of_mem _ hmem)
    have hplain := h event List.mem_cons_self
    rw [run_cons, hentry, hscopes]
    cases event with
    | enter id node => exact enter_other state id hplain
    | leave id node => exact leave_other state id hplain

structure Fresh (state : State) (scopes : List ScopeId) : Prop where
  blockEntry : state.blockEntry = .fresh
  scopes : state.active.scopes = scopes

theorem Fresh.run_shaped {scopes : List ScopeId} (h : Fresh state scopes) (hscopes : scopes ≠ [])
    {forest : Forest} (hshaped : forest.Shaped) : Fresh (run state forest.events) scopes := by
  have hfloor : state.floor = scopes := by
    rw [State.floor, h.blockEntry, BlockEntry.settle_fresh, h.scopes]
  have hrestores := (settles_forest forest).restores state (hfloor ▸ hscopes)
  obtain ⟨leaked, hlength, -, hlast⟩ := hrestores.scopes
  rw [hshaped.leaking_eq_nil] at hlength
  obtain rfl := List.length_eq_zero_iff.mp hlength
  refine ⟨by simp [hrestores.blockEntry, h.blockEntry], ?_⟩
  rw [hlast, h.blockEntry, BlockEntry.settle_fresh, h.scopes]
  rfl

end Resolution

end ScopeCheck
