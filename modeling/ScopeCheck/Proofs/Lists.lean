import Mathlib.Algebra.BigOperators.Group.List.Basic
import Mathlib.Algebra.GroupWithZero.Nat
import Mathlib.Data.List.Forall2
import Mathlib.Data.List.Nodup

namespace ScopeCheck

variable {α β ε : Type}

theorem prefix_append_cases {before first second : List α} (h : before <+: first ++ second) :
    before <+: first ∨ ∃ between, between <+: second ∧ before = first ++ between := by
  obtain ⟨after, h⟩ := h
  rcases List.append_eq_append_iff.mp h with ⟨between, hfirst, -⟩ | ⟨between, hbefore, hsecond⟩
  · exact .inl ⟨between, hfirst.symm⟩
  · exact .inr ⟨between, ⟨after, hsecond.symm⟩, hbefore⟩

theorem concat_prefix_append {before first second : List α} {item : α}
    (h : before ++ [item] <+: first ++ second) :
    before ++ [item] <+: first ∨
      ∃ between, before = first ++ between ∧ between ++ [item] <+: second := by
  obtain ⟨after, h⟩ := h
  rw [List.append_assoc, List.append_eq_append_iff] at h
  rcases h with ⟨between, rfl, hafter⟩ | ⟨between, rfl, hsecond⟩
  · cases between with
    | nil =>
      refine .inr ⟨[], by simp, after, ?_⟩
      simpa using hafter
    | cons head between =>
      obtain ⟨rfl, rfl⟩ := List.cons.inj hafter
      exact .inl ⟨between, by simp⟩
  · exact .inr ⟨between, rfl, after, by simpa using hsecond.symm⟩

/-- A list without repetitions does not have two members in both orders. -/
theorem not_sublist_swap {l : List α} (hnodup : l.Nodup) {a b : α}
    (h : [a, b].Sublist l) : ¬ [b, a].Sublist l := by
  intro h'
  induction l with
  | nil => cases h
  | cons head l ih =>
    obtain ⟨hhead, hnodup⟩ := List.nodup_cons.mp hnodup
    cases h with
    | cons _ h =>
      cases h' with
      | cons _ h' => exact ih hnodup h h'
      | cons_cons _ _ => exact hhead (h.mem (by simp))
    | cons_cons _ h =>
      cases h' with
      | cons _ h' => exact hhead (h'.mem (by simp))
      | cons_cons _ _ => exact hhead (h.mem (by simp))

theorem exists_tail_append (front : List α) (item : α) (back : List α) :
    ∃ rest : List α, rest.length = front.length ∧
      (front ++ item :: back).tail = rest ++ back := by
  cases front with
  | nil => exact ⟨[], rfl, rfl⟩
  | cons head front => exact ⟨front ++ [item], by simp, by simp⟩

/-- The first items of lists and what follows them are the items of the lists. -/
theorem heads_append_tails_perm (lists : List (List α)) :
    ((lists.flatMap fun list => list.head?.toList) ++ lists.flatMap List.tail).Perm
      lists.flatten := by
  refine (List.flatMap_append_perm ..).trans (.of_eq ?_)
  rw [← List.flatMap_id']
  refine congrArg (lists.flatMap ·) (funext fun list => ?_)
  cases list <;> rfl

/-- Items with numbers below `count` are counted number by number. -/
theorem sum_countP_eq (number : α → Option Nat) {count : Nat} {items : List α}
    (h : ∀ item ∈ items, ∀ k, number item = some k → k < count) :
    ((List.range count).map fun k => items.countP (number · = some k)).sum =
      items.countP fun item => (number item).isSome := by
  induction items with
  | nil => simp
  | cons item items ih =>
    -- The new item is counted for its own number only.
    have hitem : ((List.range count).map fun k => if number item = some k then 1 else 0).sum =
        if (number item).isSome then 1 else 0 := by
      cases hnumber : number item with
      | none => simp
      | some k =>
        have hcount : (List.range count).count k = 1 :=
          List.count_eq_one_of_mem List.nodup_range (List.mem_range.mpr (h item (by simp) k hnumber))
        have hother : ∀ other, other ≠ k → other ∈ List.range count →
            (if some k = some other then 1 else 0) = 0 := fun other hne _ => by simp [hne.symm]
        rw [List.sum_map_eq_nsmul_single k _ hother, hcount]
        simp
    simp only [List.countP_cons, decide_eq_true_eq, List.sum_map_add, hitem]
    rw [ih fun other hother => h other (List.mem_cons_of_mem item hother)]

theorem bind_eq_ok_iff {x : Except ε α} {f : α → Except ε β} {b : β} :
    (x >>= f) = .ok b ↔ ∃ a, x = .ok a ∧ f a = .ok b := by
  cases x with
  | error e => exact ⟨nofun, fun ⟨_, h, _⟩ => nomatch h⟩
  | ok a => exact ⟨fun h => ⟨a, rfl, h⟩, fun ⟨_, h, h'⟩ => Except.ok.inj h ▸ h'⟩

theorem mapError_eq_ok_iff {x : Except ε α} {f : ε → β} {a : α} :
    x.mapError f = .ok a ↔ x = .ok a := by
  cases x <;> simp [Except.mapError]

theorem mapM_eq_ok_iff {f : α → Except ε β} {items : List α} {results : List β} :
    items.mapM f = .ok results ↔ List.Forall₂ (fun a b => f a = .ok b) items results := by
  induction items generalizing results with
  | nil => simp [pure, Except.pure, eq_comm]
  | cons item items ih =>
    rw [List.mapM_cons, bind_eq_ok_iff, List.forall₂_cons_left_iff]
    refine exists_congr fun result => ?_
    rw [bind_eq_ok_iff]
    constructor
    · rintro ⟨hitem, rest, hrest, hresults⟩
      exact ⟨rest, hitem, ih.mp hrest, (Except.ok.inj hresults).symm⟩
    · rintro ⟨rest, hitem, hrest, rfl⟩
      exact ⟨hitem, rest, ih.mpr hrest, rfl⟩

theorem exists_mapM_eq_ok_iff {f : α → Except ε β} {items : List α} :
    (∃ results, items.mapM f = .ok results) ↔ ∀ item ∈ items, ∃ result, f item = .ok result := by
  simp only [mapM_eq_ok_iff]
  induction items with
  | nil => simp
  | cons item items ih =>
    rw [List.forall_mem_cons, ← ih]
    simp only [List.forall₂_cons_left_iff]
    constructor
    · rintro ⟨_, result, results, hitem, hitems, rfl⟩
      exact ⟨⟨result, hitem⟩, results, hitems⟩
    · rintro ⟨⟨result, hitem⟩, results, hitems⟩
      exact ⟨_, result, results, hitem, hitems, rfl⟩

end ScopeCheck
