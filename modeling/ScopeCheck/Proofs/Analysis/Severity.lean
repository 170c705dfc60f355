import ScopeCheck.Proofs.Analysis.TypingReports

namespace ScopeCheck

/-- Nothing of this is about names. -/
def OnlyTypes (reports : List Diagnostic) : Prop := ∀ diagnostic ∈ reports, diagnostic.severity = .type

namespace OnlyTypes

variable {reports more : List Diagnostic} {diagnostic : Diagnostic}

theorem nil : OnlyTypes [] := nofun

theorem single (h : diagnostic.severity = .type) : OnlyTypes [diagnostic] := by
  intro other hother
  rwa [List.mem_singleton.mp hother]

theorem append (h : OnlyTypes reports) (h' : OnlyTypes more) : OnlyTypes (reports ++ more) := by
  intro diagnostic hmem
  exact (List.mem_append.mp hmem).elim (h diagnostic) (h' diagnostic)

theorem ite {condition : Prop} [Decidable condition] (h : OnlyTypes reports)
    (h' : OnlyTypes more) : OnlyTypes (if condition then reports else more) := by
  split
  · exact h
  · exact h'

end OnlyTypes

namespace Report

open OnlyTypes

theorem onlyTypes_operation (line : UInt32) (op : Operator) (left right : Operand) :
    OnlyTypes (operation line op left right) := by
  refine ite (append (ite (single rfl) nil) (ite (single rfl) nil)) ?_
  split
  · exact ite (ite nil (single rfl))
      (ite nil (ite (single rfl) (ite (single rfl) (single rfl))))
  · exact nil

theorem onlyTypes_element (name : String) (index : Option Operand) :
    OnlyTypes (element name index) := by
  simp only [element]
  split
  · exact ite nil (single rfl)
  · exact nil

theorem severity_argument {callee : String} {item : (Operand × ValueType) × Nat}
    {complaint : Diagnostic} (h : argument callee item = some complaint) :
    complaint.severity = .type := by
  obtain ⟨⟨⟨line, type⟩, expected⟩, position⟩ := item
  cases type with
  | none => cases h
  | some found =>
    simp only [argument] at h
    split at h
    · cases h
      rfl
    · split at h
      · cases h
      · cases h
        rfl

theorem onlyTypes_call (line : UInt32) (callee : String) (params : List ValueType)
    (args : List Operand) : OnlyTypes (call line callee params args) := by
  simp only [call]
  split
  · rename_i complaint hfound
    obtain ⟨item, -, hitem⟩ := List.exists_of_findSome?_eq_some hfound
    exact single (severity_argument hitem)
  · exact ite nil (single rfl)

theorem onlyTypes_condition (stmt : Statement) (value : Option Operand) :
    OnlyTypes (condition stmt value) := by
  intro diagnostic hmem
  obtain ⟨operand, -, rfl⟩ := List.mem_map.mp hmem
  rfl

theorem onlyTypes_ret (line : UInt32) (function : Enclosing) (value : Option Operand) :
    OnlyTypes (ret line function value) := by
  simp only [ret]
  split
  · exact nil
  · exact ite nil (single rfl)

end Report

theorem Model.onlyTypes_own (model : Model) (tree : Tree) (enclosing : Option Enclosing)
    (id : NodeId) (node : Node) : OnlyTypes (model.own tree enclosing id node) := by
  simp only [own]
  split
  · split
    · exact Report.onlyTypes_operation _ _ _ _
    · exact .nil
  · exact .ite .nil (Report.onlyTypes_element _ _)
  · split
    · exact .nil
    · exact .ite (Report.onlyTypes_call _ _ _ _) .nil
  · exact Report.onlyTypes_condition _ _
  · exact Report.onlyTypes_condition _ _
  · split
    · exact .nil
    · exact Report.onlyTypes_ret _ _ _
  · exact .nil

theorem Typing.symbolErrors_run {tree : Tree} (hwell : tree.WellLinked) {builtins : Bool}
    {typed : TypingState}
    (hrun : run tree ⟨Resolution.run (.start builtins) tree.events, none⟩ tree.events = .ok typed) :
    typed.base.diagnostics.toList.filter (·.severity = .symbol) =
      (Resolution.run (.start builtins) tree.events).diagnostics.toList.filter
        (·.severity = .symbol) := by
  obtain ⟨-, hdiagnostics⟩ := diagnostics_run hwell typed.base.toModel
    (resolvedSymbol_eq_symbolAt hrun) (typeOf_run_eq hwell hrun) (List.prefix_refl _) hrun
  rw [hdiagnostics, List.filter_append]
  refine (congrArg _ ?_).trans (List.append_nil _)
  refine List.filter_eq_nil_iff.mpr fun diagnostic hmem => ?_
  obtain ⟨⟨enclosing, id, node⟩, -, hown⟩ := List.mem_flatMap.mp hmem
  rw [typed.base.toModel.onlyTypes_own tree enclosing id node diagnostic hown]
  decide

end ScopeCheck
