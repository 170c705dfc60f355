import ScopeCheck.Document.Reader

namespace ScopeCheck.Json

theorem int?_ofNat (n : Nat) : (ofNat n).int? = some (n : Int) := rfl

theorem natBelow?_ofNat {bound n : Nat} (h : n < bound) : (ofNat n).natBelow? bound = some n := by
  have hlt : 0 ≤ (n : Int) ∧ (n : Int) < (bound : Int) :=
    ⟨Int.natCast_nonneg _, Int.ofNat_lt.mpr h⟩
  simp only [natBelow?, int?_ofNat, Option.bind_eq_bind, Option.bind_some, if_pos hlt,
    Int.toNat_natCast]

@[simp]
theorem word32?_ofNat (word : UInt32) : (ofNat word.toNat).word32? = some word := by
  rw [word32?, natBelow?_ofNat word.toNat_lt_size, Option.map_some, UInt32.ofNat_toNat]

@[simp]
theorem text?_ofText (text : String) : (ofText text).text? = some text := rfl

@[simp]
theorem namedMembers?_ofMembers (members : List (String × Json)) :
    (ofMembers members).namedMembers? = some members := by
  simp only [ofMembers, namedMembers?]
  induction members with
  | nil => rfl
  | cons member members ih =>
    simp only [List.map_cons, List.mapM_cons, ih, Option.bind_eq_bind, Option.bind_some,
      Option.pure_def]

theorem list?_map {α β : Type} {read : Json → Option β} {write : α → Json} {f : α → β}
    (h : ∀ a, read (write a) = some (f a)) (items : List α) :
    list? read (.array (items.map write)) = some (items.map f) := by
  simp only [list?]
  induction items with
  | nil => rfl
  | cons item items ih =>
    simp only [List.map_cons, List.mapM_cons, h, ih, Option.bind_eq_bind, Option.bind_some,
      Option.pure_def]

section Named

variable {α : Type} {name other : String} {value : Json} {members : List (String × Json)}
  {read : Json → Option α} {default : α}

theorem uniqueMember?_cons_of_ne (h : other ≠ name) :
    uniqueMember? name ((other, value) :: members) = uniqueMember? name members := by
  rw [uniqueMember?, List.filter_cons_of_neg (by simpa using h), uniqueMember?]

theorem uniqueMember?_cons_self (h : ∀ member ∈ members, member.1 ≠ name) :
    uniqueMember? name ((name, value) :: members) = some (some value) := by
  rw [uniqueMember?, List.filter_cons_of_pos (by simp),
    List.filter_eq_nil_iff.mpr fun member hmember => by simpa using h member hmember]

theorem uniqueMember?_eq_none (h : ∀ member ∈ members, member.1 ≠ name) :
    uniqueMember? name members = some none := by
  rw [uniqueMember?,
    List.filter_eq_nil_iff.mpr fun member hmember => by simpa using h member hmember]

@[simp]
theorem member?_cons_of_ne (h : other ≠ name) :
    member? name ((other, value) :: members) read = member? name members read := by
  rw [member?, uniqueMember?_cons_of_ne h, member?]

@[simp]
theorem member?_cons_self (h : ∀ member ∈ members, member.1 ≠ name) :
    member? name ((name, value) :: members) read = read value := by
  rw [member?, uniqueMember?_cons_self h]
  rfl

@[simp]
theorem memberD_cons_of_ne (h : other ≠ name) :
    memberD name ((other, value) :: members) read default = memberD name members read default := by
  rw [memberD, uniqueMember?_cons_of_ne h, memberD]

@[simp]
theorem memberD_cons_self (h : ∀ member ∈ members, member.1 ≠ name) :
    memberD name ((name, value) :: members) read default = read value := by
  rw [memberD, uniqueMember?_cons_self h]
  rfl

@[simp]
theorem memberD_nil : memberD name [] read default = some default := rfl

theorem memberD_eq_default (h : ∀ member ∈ members, member.1 ≠ name) :
    memberD name members read default = some default := by
  rw [memberD, uniqueMember?_eq_none h]
  rfl

/-- Where no name is repeated, a member is found wherever it stands. -/
theorem uniqueMember?_of_mem (hnodup : (members.map Prod.fst).Nodup)
    (hmem : (name, value) ∈ members) : uniqueMember? name members = some (some value) := by
  induction members with
  | nil => cases hmem
  | cons member members ih =>
    obtain ⟨hnot, hrest⟩ := List.nodup_cons.mp hnodup
    rcases List.mem_cons.mp hmem with rfl | hmem
    · exact uniqueMember?_cons_self fun other hother heq =>
        hnot (List.mem_map.mpr ⟨other, hother, heq⟩)
    · have hne : member.1 ≠ name := fun heq => hnot (List.mem_map.mpr ⟨_, hmem, heq.symm⟩)
      exact (uniqueMember?_cons_of_ne hne).trans (ih hrest hmem)

theorem member?_of_mem (hnodup : (members.map Prod.fst).Nodup) (hmem : (name, value) ∈ members)
    (read : Json → Option α) : member? name members read = read value := by
  rw [member?, uniqueMember?_of_mem hnodup hmem]
  rfl

theorem memberD_of_mem (hnodup : (members.map Prod.fst).Nodup) (hmem : (name, value) ∈ members)
    (read : Json → Option α) (default : α) : memberD name members read default = read value := by
  rw [memberD, uniqueMember?_of_mem hnodup hmem]
  rfl

end Named

end ScopeCheck.Json
