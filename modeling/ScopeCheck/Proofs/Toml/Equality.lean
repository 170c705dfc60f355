import ScopeCheck.Toml.Value

namespace ScopeCheck.Toml

mutual

def Value.same : Value → Value → Bool
  | .string text, .string other => text = other
  | .integer number, .integer other => number = other
  | .float spelling, .float other => spelling = other
  | .boolean value, .boolean other => value = other
  | .dateTime spelling, .dateTime other => spelling = other
  | .array items, .array others => sameItems items others
  | .table form entries, .table otherForm others => form = otherForm && sameEntries entries others
  | .tables tables, .tables others => sameTables tables others
  | _, _ => false

def sameItems : List Value → List Value → Bool
  | [], [] => true
  | item :: items, other :: others => item.same other && sameItems items others
  | _, _ => false

def sameEntries : List (String × Value) → List (String × Value) → Bool
  | [], [] => true
  | (key, value) :: entries, (otherKey, other) :: others =>
    key = otherKey && value.same other && sameEntries entries others
  | _, _ => false

def sameTables : List (List (String × Value)) → List (List (String × Value)) → Bool
  | [], [] => true
  | table :: tables, other :: others => sameEntries table other && sameTables tables others
  | _, _ => false

end

mutual

theorem Value.same_iff : ∀ value other : Value, value.same other = true ↔ value = other
  | .string _, other | .integer _, other | .float _, other | .boolean _, other
  | .dateTime _, other => by cases other <;> simp [Value.same]
  | .array items, other => by cases other <;> simp [Value.same, sameItems_iff items]
  | .table _ entries, other => by cases other <;> simp [Value.same, sameEntries_iff entries]
  | .tables tables, other => by cases other <;> simp [Value.same, sameTables_iff tables]

theorem sameItems_iff : ∀ items others : List Value, sameItems items others = true ↔ items = others
  | [], others => by cases others <;> simp [sameItems]
  | item :: items, others => by
    cases others <;> simp [sameItems, item.same_iff, sameItems_iff items]

theorem sameEntries_iff : ∀ entries others : List (String × Value),
    sameEntries entries others = true ↔ entries = others
  | [], others => by cases others <;> simp [sameEntries]
  | _ :: _, [] => by simp [sameEntries]
  | (_, value) :: entries, (_, other) :: others => by
    simp [sameEntries, value.same_iff other, sameEntries_iff entries others]

theorem sameTables_iff : ∀ tables others : List (List (String × Value)),
    sameTables tables others = true ↔ tables = others
  | [], others => by cases others <;> simp [sameTables]
  | table :: tables, others => by
    cases others <;> simp [sameTables, sameEntries_iff table, sameTables_iff tables]

end

instance : DecidableEq Value := fun value other => decidable_of_iff _ (value.same_iff other)

end ScopeCheck.Toml
