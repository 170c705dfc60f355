import ScopeCheck.Proofs.Analysis.Opening
import ScopeCheck.Proofs.Analysis.Passes
import ScopeCheck.Proofs.Analysis.State

namespace ScopeCheck

namespace Label

/-- The declaration of a name. A void parameter spells the empty list of parameters. -/
def declares? : Label → Option Declaration
  | .declaration decl => if decl.kind = .parameter ∧ decl.type = .void then none else some decl
  | _ => none

def uses? : Label → Option String
  | .expression expr => expr.name?
  | _ => none

variable {label : Label}

theorem eq_declaration {decl : Declaration} (h : label.declares? = some decl) :
    label = .declaration decl ∧ ¬ (decl.kind = .parameter ∧ decl.type = .void) := by
  cases label with
  | statement stmt => cases h
  | expression expr => cases h
  | declaration other =>
    rw [declares?] at h
    split at h
    · cases h
    · rename_i hvoid
      cases h
      exact ⟨rfl, hvoid⟩

theorem eq_expression {name : String} (h : label.uses? = some name) :
    ∃ expr, label = .expression expr ∧ expr.name? = some name := by
  cases label with
  | statement stmt => cases h
  | expression expr => exact ⟨expr, rfl, h⟩
  | declaration decl => cases h

theorem uses?_eq_none {decl : Declaration} (h : label.declares? = some decl) :
    label.uses? = none := by
  rw [(eq_declaration h).1]
  rfl

theorem declares?_eq_none {name : String} (h : label.uses? = some name) :
    label.declares? = none := by
  obtain ⟨expr, rfl, -⟩ := eq_expression h
  rfl

end Label

namespace Resolution

variable (state : State) (id : NodeId) {node : Node}

theorem enter_use {name : String} (h : node.label.uses? = some name) :
    step state (.enter id node) = resolve state id node.line name := by
  obtain ⟨expr, hexpr, hname⟩ := Label.eq_expression h
  simp only [step, enter, hexpr, hname]

theorem enter_function_declaration {decl : Declaration} (h : node.label.declares? = some decl)
    (hkind : decl.kind = .function) :
    step state (.enter id node) =
      ((declareUnique state id node.line decl).enterFunction decl.name).expect .reuse := by
  simp only [step, enter, (Label.eq_declaration h).1, enterDeclaration, hkind]

theorem enter_plain_declaration {decl : Declaration} (h : node.label.declares? = some decl)
    (hkind : decl.kind ≠ .function) :
    step state (.enter id node) = declareUnique state id node.line decl := by
  obtain ⟨hlabel, hvoid⟩ := Label.eq_declaration h
  simp only [step, enter, hlabel, enterDeclaration]
  split
  · rename_i heq
    exact absurd heq hkind
  · rename_i hparameter htype
    exact absurd ⟨hparameter, htype⟩ hvoid
  · rfl

theorem enter_silent (hdeclares : node.label.declares? = none) (huses : node.label.uses? = none)
    (hblock : ¬ node.label.isBlock) : step state (.enter id node) = state := by
  obtain ⟨label, line, children, sibling⟩ := node
  cases label with
  | statement stmt => cases stmt <;> simp_all [Label.isBlock, step, enter]
  | expression expr =>
    simp only [Label.uses?] at huses
    simp only [step, enter, huses]
  | declaration decl =>
    simp only [Label.declares?, ite_eq_left_iff, reduceCtorEq, imp_false, not_not] at hdeclares
    simp only [step, enter, enterDeclaration, hdeclares.1, hdeclares.2]

/-- Where no scope is opened, a name is declared, or one is used, or nothing happens. -/
theorem enter_other_cases (h : node.label.opening? = none) :
    (∃ decl, node.label.declares? = some decl ∧
      step state (.enter id node) = declareUnique state id node.line decl) ∨
    (∃ name, node.label.uses? = some name ∧
      step state (.enter id node) = resolve state id node.line name) ∨
    step state (.enter id node) = state := by
  cases hdeclares : node.label.declares? with
  | some decl =>
    have hkind : decl.kind ≠ .function := by
      intro hkind
      rw [(Label.eq_declaration hdeclares).1] at h
      simp [Label.opening?, hkind] at h
    exact .inl ⟨decl, rfl, enter_plain_declaration state id hdeclares hkind⟩
  | none =>
    cases huses : node.label.uses? with
    | some name => exact .inr (.inl ⟨name, rfl, enter_use state id huses⟩)
    | none =>
      have hblock : ¬ node.label.isBlock := by
        intro hblock
        rw [Label.opening?_eq_block.mpr hblock] at h
        cases h
      exact .inr (.inr (enter_silent state id hdeclares huses hblock))

end Resolution

end ScopeCheck
