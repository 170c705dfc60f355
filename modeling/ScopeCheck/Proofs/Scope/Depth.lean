import Mathlib.Logic.Relation
import ScopeCheck.Proofs.Scope.Ancestors

namespace ScopeCheck.ScopeTable

variable {table : ScopeTable} {kind : ScopeKind} {name : String} {parent : Option ScopeId}
  {id outer : Nat}

/-- The first scope is the parent of the second, or the parent of its parent, and so on. -/
def Around (table : ScopeTable) (outer id : ScopeId) : Prop :=
  Relation.TransGen (fun outer inner => table.parent inner = some outer) outer id

theorem around_iff :
    table.Around outer id ↔
      ∃ next, table.parent id = some next ∧ (outer = next ∨ table.Around outer next) := by
  rw [Around, Relation.TransGen.tail'_iff]
  simp only [Relation.reflTransGen_iff_eq_or_transGen, Around]
  constructor
  · rintro ⟨next, houter, hparent⟩
    exact ⟨next, hparent, houter.imp_left Eq.symm⟩
  · rintro ⟨next, hparent, houter⟩
    exact ⟨next, houter.imp_left Eq.symm, hparent⟩

theorem mem_outward_iff (h : table.Ordered) (hid : id < table.size) :
    outer ∈ table.outward (table.parent id) ↔ table.Around outer id := by
  -- The induction goes along the parents, which have smaller numbers.
  induction id using Nat.strongRecOn with
  | ind id ih =>
    rw [around_iff]
    cases hparent : table.parent id with
    | none => simp [outward]
    | some next =>
      have hlt := h id next hparent
      have hsize := Nat.lt_trans hlt hid
      rw [outward, Option.elim_some, ancestors_eq h hsize, List.mem_cons, ih next hlt hsize]
      simp

theorem nodup_outward (h : table.Ordered) (hid : id < table.size) :
    (table.outward (table.parent id)).Nodup := by
  have hpairwise := pairwise_ancestors h hid
  rw [ancestors_eq h hid] at hpairwise
  exact (List.pairwise_cons.mp hpairwise).2.imp Nat.ne_of_gt

theorem depth_eq (h : table.Ordered) (hid : id < table.size) :
    table.depth id = (table.outward (table.parent id)).length := by
  rw [depth, ancestors_eq h hid, List.length_cons, Nat.add_sub_cancel]

/-- Every scope but the first one stands inside another. -/
def Rooted (table : ScopeTable) : Prop :=
  ∀ id : Nat, id < table.size → id ≠ 0 → ∃ outer, table.parent id = some outer

theorem rooted_create (h : table.Rooted) (hparent : parent.isSome) :
    (table.create kind name parent).Rooted := by
  intro id hid hne
  rw [size_create] at hid
  rw [parent_create]
  split
  · exact Option.isSome_iff_exists.mp hparent
  · exact h id (by omega) hne

/-- The depth of a scope is the number of the scopes around it. The first scope is the only one
with depth zero, and the others are one deeper than their parents. -/
structure Layered (table : ScopeTable) : Prop where
  count : ∀ id : Nat, id < table.size → ∃ around : List ScopeId, around.Nodup ∧
    (∀ outer, outer ∈ around ↔ table.Around outer id) ∧ table.depth id = around.length
  first : table.depth 0 = 0
  inner : ∀ id : Nat, id < table.size → id ≠ 0 →
    ∃ outer, table.parent id = some outer ∧ table.depth id = table.depth outer + 1

theorem layered (h : table.Ordered) (hrooted : table.Rooted) (hpos : 0 < table.size) :
    table.Layered where
  count _ hid := ⟨_, nodup_outward h hid, fun _ => mem_outward_iff h hid, depth_eq h hid⟩
  first := by
    have hnone : table.parent 0 = none :=
      Option.eq_none_iff_forall_ne_some.mpr fun outer hparent => Nat.not_lt_zero _ (h 0 outer hparent)
    rw [depth_eq h hpos, hnone]
    rfl
  inner id hid hne := by
    obtain ⟨outer, hparent⟩ := hrooted id hid hne
    refine ⟨outer, hparent, ?_⟩
    have hsize := Nat.lt_trans (h id outer hparent) hid
    rw [depth_eq h hid, hparent, depth_eq h hsize, outward, Option.elim_some, ancestors_eq h hsize,
      List.length_cons]

end ScopeCheck.ScopeTable
