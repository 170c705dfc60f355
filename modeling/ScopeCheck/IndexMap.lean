namespace ScopeCheck

/-- A partial map on small numbers: a row of cells that grows when it has to. -/
structure IndexMap (α : Type) where
  cells : Array (Option α)
  deriving DecidableEq, Repr

namespace IndexMap

variable {α : Type}

def empty : IndexMap α := ⟨#[]⟩

instance : Inhabited (IndexMap α) := ⟨empty⟩

def get? (map : IndexMap α) (i : Nat) : Option α := map.cells[i]?.join

def grow (map : IndexMap α) (size : Nat) : IndexMap α :=
  ⟨map.cells ++ Array.replicate (size - map.cells.size) none⟩

def insert (map : IndexMap α) (i : Nat) (a : α) : IndexMap α :=
  ⟨(map.grow (i + 1)).cells.setIfInBounds i (some a)⟩

def contains (map : IndexMap α) (i : Nat) : Bool := (map.get? i).isSome

def count (map : IndexMap α) : Nat := map.cells.toList.countP Option.isSome

@[simp]
theorem get?_empty (i : Nat) : (empty : IndexMap α).get? i = none := rfl

theorem get?_grow (map : IndexMap α) (size i : Nat) : (map.grow size).get? i = map.get? i := by
  simp only [get?, grow, Array.getElem?_append, Array.getElem?_replicate]
  split
  · rfl
  · rw [Array.getElem?_eq_none (by omega)]
    split <;> rfl

theorem get?_insert (map : IndexMap α) (i j : Nat) (a : α) :
    (map.insert i a).get? j = if i = j then some a else map.get? j := by
  have hsize : i < (map.grow (i + 1)).cells.size := by simp [grow]; omega
  by_cases h : i = j
  · subst h
    simp [insert, get?, Array.getElem?_setIfInBounds_self_of_lt hsize]
  · simp only [insert, get?, Array.getElem?_setIfInBounds_ne h, if_neg h]
    exact get?_grow map (i + 1) j

end IndexMap

end ScopeCheck
