import Mathlib.Data.List.Perm.Basic
import Mathlib.Logic.Relation
import ScopeCheck.Proofs.Json.Members

namespace ScopeCheck.Json

/-- One object, anywhere in a value, gets its members in another order. -/
inductive Reorders : Json → Json → Prop
  | members {members others : List (Literal × Json)} (h : members.Perm others) :
    Reorders (.object members) (.object others)
  | item {value other : Json} (before after : List Json) (h : Reorders value other) :
    Reorders (.array (before ++ value :: after)) (.array (before ++ other :: after))
  | member {value other : Json} (before : List (Literal × Json)) (name : Literal)
    (after : List (Literal × Json)) (h : Reorders value other) :
    Reorders (.object (before ++ (name, value) :: after))
      (.object (before ++ (name, other) :: after))

theorem Reorders.symm {value other : Json} (h : Reorders value other) : Reorders other value := by
  induction h with
  | members h => exact .members h.symm
  | item before after _ ih => exact .item before after ih
  | member before name after _ ih => exact .member before name after ih

/-- The objects of a value get their members in other orders, one object after the other. -/
def Rearranged : Json → Json → Prop := Relation.ReflTransGen Reorders

/-- A reader that gives the same for a value whatever the order of members in it. -/
def IgnoresOrder {α : Type} (read : Json → α) : Prop :=
  ∀ ⦃value other : Json⦄, Reorders value other → read other = read value

section Readers

variable {α β : Type} {read : Json → α}

theorem IgnoresOrder.rearranged (h : IgnoresOrder read) {value other : Json}
    (hother : Rearranged value other) : read other = read value := by
  induction hother with
  | refl => rfl
  | tail _ hstep ih => exact (h hstep).trans ih

theorem IgnoresOrder.comp (h : IgnoresOrder read) (f : α → β) :
    IgnoresOrder fun value => f (read value) :=
  fun _ _ hother => congrArg f (h hother)

/-! ### Values as a whole -/

theorem itemsNesting_append (before after : List Json) :
    itemsNesting (before ++ after) = max (itemsNesting before) (itemsNesting after) := by
  induction before with
  | nil => exact (Nat.zero_max _).symm
  | cons item before ih => rw [List.cons_append, itemsNesting, itemsNesting, ih, Nat.max_assoc]

theorem itemsNesting_perm {items others : List Json} (h : items.Perm others) :
    itemsNesting others = itemsNesting items := by
  induction h with
  | nil => rfl
  | cons item _ ih => rw [itemsNesting, itemsNesting, ih]
  | swap first second rest => simp only [itemsNesting, Nat.max_left_comm]
  | trans _ _ ihFirst ihSecond => exact ihSecond.trans ihFirst

theorem membersNesting_eq (members : List (Literal × Json)) :
    membersNesting members = itemsNesting (members.map Prod.snd) := by
  induction members with
  | nil => rfl
  | cons member members ih => rw [membersNesting, List.map_cons, itemsNesting, ih]

theorem ignoresOrder_nesting : IgnoresOrder nesting := by
  intro value other h
  induction h with
  | members h => simp only [nesting, membersNesting_eq, itemsNesting_perm (h.map Prod.snd)]
  | item before after _ ih => simp only [nesting, itemsNesting_append, itemsNesting, ih]
  | member before name after _ ih =>
    simp only [nesting, membersNesting_eq, List.map_append, List.map_cons, itemsNesting_append,
      itemsNesting, ih]

theorem itemsHaveValues_eq (items : List Json) : itemsHaveValues items = items.all hasValues := by
  induction items with
  | nil => rfl
  | cons item items ih => rw [itemsHaveValues, List.all_cons, ih]

theorem membersHaveValues_eq (members : List (Literal × Json)) :
    membersHaveValues members =
      members.all fun member => decide (member.1 ≠ .halfPair) && member.2.hasValues := by
  induction members with
  | nil => rfl
  | cons member members ih => rw [membersHaveValues, List.all_cons, ih]

theorem ignoresOrder_hasValues : IgnoresOrder hasValues := by
  intro value other h
  induction h with
  | members h => simp only [hasValues, membersHaveValues_eq, h.all_eq]
  | item before after _ ih =>
    simp only [hasValues, itemsHaveValues_eq, List.all_append, List.all_cons, ih]
  | member before name after _ ih =>
    simp only [hasValues, membersHaveValues_eq, List.all_append, List.all_cons, ih]

/-! ### Readers of strings, numbers and lists -/

theorem ignoresOrder_text? : IgnoresOrder text? := by
  rintro _ _ (_ | _ | _) <;> rfl

theorem ignoresOrder_int? : IgnoresOrder int? := by
  rintro _ _ (_ | _ | _) <;> rfl

theorem ignoresOrder_natBelow? (bound : Nat) : IgnoresOrder (natBelow? bound) :=
  fun _ _ h => by rw [natBelow?, ignoresOrder_int? h, natBelow?]

theorem ignoresOrder_place? : IgnoresOrder place? := ignoresOrder_natBelow? _

theorem ignoresOrder_word32? : IgnoresOrder word32? := (ignoresOrder_natBelow? _).comp _

theorem ignoresOrder_int64? : IgnoresOrder int64? :=
  fun _ _ h => by rw [int64?, ignoresOrder_int? h, int64?]

theorem ignoresOrder_nullable? {read : Json → Option α} (h : IgnoresOrder read) :
    IgnoresOrder (nullable? read) := by
  intro value other hother
  have hread := congrArg (Option.map some) (h hother)
  cases hother <;> exact hread

theorem ignoresOrder_list? {read : Json → Option α} (h : IgnoresOrder read) :
    IgnoresOrder (list? read) := by
  intro value other hother
  cases hother with
  | members | member => rfl
  | item before after hitem => simp only [list?, List.mapM_append, List.mapM_cons, h hitem]

end Readers

/-- What may stand behind a word that is written as the name of a member. -/
def holdsNothing : Json → Bool
  | null => true
  | object members => members.isEmpty
  | _ => false

theorem ignoresOrder_holdsNothing : IgnoresOrder holdsNothing := by
  intro value other hother
  cases hother with
  | members h => exact h.symm.isEmpty_eq
  | item => rfl
  | member before => cases before <;> rfl

theorem word?_singleton (name : Literal) (value : Json) :
    word? (.object [(name, value)]) =
      match name with
      | .text word => if value.holdsNothing then some word else none
      | .halfPair => none := by
  cases name with
  | halfPair => rfl
  | text word =>
    match value with
    | .null | .object [] | .boolean _ | .number _ | .string _ | .array _ | .object (_ :: _) => rfl

theorem word?_of_length_ne {members : List (Literal × Json)} (h : members.length ≠ 1) :
    word? (.object members) = none := by
  rw [word?.eq_def]
  split
  · rename_i heq
    cases heq
  · rename_i heq
    cases heq
    exact absurd rfl h
  · rename_i heq
    cases heq
    exact absurd rfl h
  · rfl

theorem ignoresOrder_word? : IgnoresOrder word? := by
  intro value other hother
  cases hother with
  | item => rfl
  | @members members others h =>
    by_cases hone : members.length = 1
    · obtain ⟨member, rfl⟩ := List.length_eq_one_iff.mp hone
      rw [h.singleton_eq]
    · rw [word?_of_length_ne hone, word?_of_length_ne (h.length_eq ▸ hone)]
  | member before name after h =>
    by_cases hone : (before ++ after).length = 0
    · obtain ⟨rfl, rfl⟩ := List.append_eq_nil_iff.mp (List.eq_nil_of_length_eq_zero hone)
      simp only [List.nil_append, word?_singleton, ignoresOrder_holdsNothing h]
    · have hlong (value : Json) : (before ++ (name, value) :: after).length ≠ 1 := by
        simp only [List.length_append, List.length_cons] at hone ⊢
        omega
      rw [word?_of_length_ne (hlong _), word?_of_length_ne (hlong _)]

/-! ### Members by their names -/

theorem namedMembers?_eq_some_iff {value : Json} {members : List (String × Json)} :
    value.namedMembers? = some members ↔ value = ofMembers members := by
  constructor
  · intro h
    match value with
    | .null | .boolean _ | .number _ | .string _ | .array _ => cases h
    | .object all =>
      rw [namedMembers?] at h
      rw [ofMembers]
      congr 1
      induction all generalizing members with
      | nil =>
        cases h
        rfl
      | cons member all ih =>
        rw [List.mapM_cons] at h
        obtain ⟨named, hnamed, h⟩ := Option.bind_eq_some_iff.mp h
        obtain ⟨later, hlater, heq⟩ := Option.bind_eq_some_iff.mp h
        cases heq
        obtain ⟨name | _, value⟩ := member
        · cases hnamed
          rw [List.map_cons, ih hlater]
        · cases hnamed
  · rintro rfl
    exact namedMembers?_ofMembers members

/-- Members in another order, or with another order inside one of their values. -/
inductive MembersReorder : List (String × Json) → List (String × Json) → Prop
  | order {members others : List (String × Json)} (h : members.Perm others) :
    MembersReorder members others
  | value {value other : Json} (before : List (String × Json)) (name : String)
    (after : List (String × Json)) (h : Reorders value other) :
    MembersReorder (before ++ (name, value) :: after) (before ++ (name, other) :: after)

theorem Reorders.exists_namedMembers? {value other : Json} (h : Reorders value other)
    {members : List (String × Json)} (hmembers : value.namedMembers? = some members) :
    ∃ others, other.namedMembers? = some others ∧ MembersReorder members others := by
  rw [namedMembers?_eq_some_iff] at hmembers
  cases h with
  | item => cases hmembers
  | members h =>
    cases hmembers
    obtain ⟨others, rfl, hothers⟩ :=
      (congrFun (congrFun (List.eq_map_comp_perm _) _) members).mpr h.symm
    exact ⟨others, namedMembers?_ofMembers others, .order hothers.symm⟩
  | member before name after h =>
    obtain ⟨before, later, rfl, hbefore, hlater⟩ :=
      List.map_eq_append_iff.mp (Json.object.inj hmembers).symm
    obtain ⟨⟨name, value⟩, after, rfl, hmember, rfl⟩ := List.map_eq_cons_iff.mp hlater
    cases hmember
    subst hbefore
    refine ⟨before ++ (name, _) :: after, ?_, .value before name after h⟩
    rw [namedMembers?_eq_some_iff, ofMembers, List.map_append, List.map_cons]

def atMostOne : List Json → Option (Option Json)
  | [] => some none
  | [value] => some (some value)
  | _ => none

theorem atMostOne_perm {values others : List Json} (h : values.Perm others) :
    atMostOne others = atMostOne values := by
  match values, others, h.length_eq with
  | [], [], _ => rfl
  | [value], [other], _ => rw [h.singleton_eq]
  | _ :: _ :: _, _ :: _ :: _, _ => rfl

theorem atMostOne_append (before : List Json) (value : Json) (after : List Json) :
    atMostOne (before ++ value :: after) =
      if (before ++ after).isEmpty then some (some value) else none := by
  match before, after with
  | [], [] | [], _ :: _ | [_], _ | _ :: _ :: _, _ => rfl

section Named

variable {name : String} {members others : List (String × Json)}

theorem uniqueMember?_eq (name : String) (members : List (String × Json)) :
    uniqueMember? name members =
      atMostOne ((members.filter (·.1 = name)).map Prod.snd) := by
  rw [uniqueMember?]
  generalize members.filter (·.1 = name) = found
  rcases found with _ | ⟨_, _ | _⟩ <;> rfl

/-- Where members are found by their names, another order changes nothing but the order inside what
is found. -/
theorem MembersReorder.uniqueMember?_cases (h : MembersReorder members others) (name : String) :
    uniqueMember? name others = uniqueMember? name members ∨
      ∃ value other, Reorders value other ∧ uniqueMember? name members = some (some value) ∧
        uniqueMember? name others = some (some other) := by
  simp only [uniqueMember?_eq]
  cases h with
  | order h => exact .inl (atMostOne_perm ((h.filter _).map _))
  | value before given after h =>
    by_cases hname : given = name
    · simp only [List.filter_append, List.filter_cons, hname, decide_true, if_true,
        List.map_append, List.map_cons, atMostOne_append]
      split
      · exact .inr ⟨_, _, h, rfl, rfl⟩
      · exact .inl rfl
    · simp only [List.filter_append, List.filter_cons, hname, decide_false, Bool.false_eq_true,
        if_false, true_or]

variable {α : Type} {read : Json → Option α}

theorem MembersReorder.member?_eq (h : MembersReorder members others) (hread : IgnoresOrder read)
    (name : String) : member? name others read = member? name members read := by
  rw [member?, member?]
  obtain heq | ⟨value, other, hvalue, hmembers, hothers⟩ := h.uniqueMember?_cases name
  · rw [heq]
  · rw [hmembers, hothers]
    exact hread hvalue

theorem MembersReorder.memberD_eq (h : MembersReorder members others) (hread : IgnoresOrder read)
    (name : String) (default : α) :
    memberD name others read default = memberD name members read default := by
  rw [memberD, memberD]
  obtain heq | ⟨value, other, hvalue, hmembers, hothers⟩ := h.uniqueMember?_cases name
  · rw [heq]
  · rw [hmembers, hothers]
    exact hread hvalue

/-- A reader of an object ignores the order of members if what it does with the named members does. -/
theorem ignoresOrder_bind_namedMembers? {read : List (String × Json) → Option α}
    (h : ∀ members others, MembersReorder members others → read others = read members) :
    IgnoresOrder fun value => value.namedMembers?.bind read := by
  intro value other hother
  cases hmembers : value.namedMembers? with
  | some members =>
    obtain ⟨others, hothers, hreorder⟩ := hother.exists_namedMembers? hmembers
    simp only [hmembers, hothers, Option.bind_some, h members others hreorder]
  | none =>
    -- The members of `other` could be put back, and then `value` would have them.
    cases hothers : other.namedMembers? with
    | none => simp only [hmembers, hothers]
    | some others =>
      obtain ⟨members, hsome, -⟩ := hother.symm.exists_namedMembers? hothers
      rw [hsome] at hmembers
      cases hmembers

end Named

end ScopeCheck.Json
