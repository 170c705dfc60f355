import ScopeCheck.Proofs.Json.Lexemes

namespace ScopeCheck.Json

/-- An array has a property that its items have, and an object one that the values in it have. -/
@[elab_as_elim]
theorem inductionOn {P : Json → Prop} (null : P .null) (boolean : ∀ value, P (.boolean value))
    (number : ∀ value, P (.number value)) (string : ∀ value, P (.string value))
    (array : ∀ items, (∀ item ∈ items, P item) → P (.array items))
    (object : ∀ members : List (Literal × Json), (∀ member ∈ members, P member.2) →
      P (.object members)) (value : Json) : P value :=
  match value with
  | .null => null
  | .boolean value => boolean value
  | .number value => number value
  | .string value => string value
  | .array items => array items fun item hitem =>
    have := List.sizeOf_lt_of_mem hitem
    inductionOn null boolean number string array object item
  | .object members => object members fun member hmember =>
    have := List.sizeOf_lt_of_mem hmember
    inductionOn null boolean number string array object member.2
termination_by sizeOf value
decreasing_by
  · simp only [Json.array.sizeOf_spec]
    omega
  · obtain ⟨name, value⟩ := member
    simp only [Json.object.sizeOf_spec, Prod.mk.sizeOf_spec] at *
    omega

/-- A value that can be written: what stands behind the points of its numbers are digits. -/
inductive Writable : Json → Prop
  | null : Writable .null
  | boolean (value : Bool) : Writable (.boolean value)
  | number {value : Number} (h : value.HasDigits) : Writable (.number value)
  | string (value : Literal) : Writable (.string value)
  | array {items : List Json} (h : ∀ item ∈ items, Writable item) : Writable (.array items)
  | object {members : List (Literal × Json)} (h : ∀ member ∈ members, Writable member.2) :
    Writable (.object members)

@[simp]
theorem writable_ofText (text : String) : (ofText text).Writable := .string _

@[simp]
theorem writable_ofNat (n : Nat) : (ofNat n).Writable := .number nofun

theorem writable_ofMembers {members : List (String × Json)}
    (h : ∀ member ∈ members, member.2.Writable) : (ofMembers members).Writable := by
  refine .object fun member hmember => ?_
  obtain ⟨⟨name, value⟩, hmem, rfl⟩ := List.mem_map.mp hmember
  exact h _ hmem

theorem writable_map {α : Type} {write : α → Json} (h : ∀ a, (write a).Writable)
    (items : List α) : (array (items.map write)).Writable := by
  refine .array fun item hitem => ?_
  obtain ⟨a, -, rfl⟩ := List.mem_map.mp hitem
  exact h a

mutual

/-- The tokens that spell a value. -/
def toTokens : Json → List Token
  | .null => [.null]
  | .boolean value => [.boolean value]
  | .number value => [.number value]
  | .string value => [.string value]
  | .array [] => [.openBracket, .closeBracket]
  | .array (item :: items) => .openBracket :: (item.toTokens ++ itemTokens items)
  | .object [] => [.openBrace, .closeBrace]
  | .object ((name, value) :: members) =>
    .openBrace :: .string name :: .colon :: (value.toTokens ++ memberTokens members)

/-- The tokens behind the first item of an array, up to and with its closing bracket. -/
def itemTokens : List Json → List Token
  | [] => [.closeBracket]
  | item :: items => .comma :: (item.toTokens ++ itemTokens items)

/-- The tokens behind the first member of an object, up to and with its closing brace. -/
def memberTokens : List (Literal × Json) → List Token
  | [] => [.closeBrace]
  | (name, value) :: members =>
    .comma :: .string name :: .colon :: (value.toTokens ++ memberTokens members)

end

theorem exists_toTokens_eq_cons (value : Json) :
    ∃ token rest, value.toTokens = token :: rest ∧ token ≠ .closeBracket := by
  match value with
  | .null | .boolean _ | .number _ | .string _ => exact ⟨_, _, by rw [toTokens], by simp⟩
  | .array [] | .array (_ :: _) => exact ⟨_, _, by rw [toTokens], by simp⟩
  | .object [] | .object ((_, _) :: _) => exact ⟨_, _, by rw [toTokens], by simp⟩

section Reading

variable {fuel : Nat}

theorem readItems_itemTokens {item : Json} {items : List Json}
    (h : ∀ value ∈ item :: items, ∀ fuel rest, 2 * value.toTokens.length ≤ fuel + 1 →
      readValue fuel (value.toTokens ++ rest) = some (value, rest))
    (hfuel : 2 * (item.toTokens ++ itemTokens items).length ≤ fuel) (rest : List Token) :
    readItems fuel (item.toTokens ++ itemTokens items ++ rest) = some (item :: items, rest) := by
  induction items generalizing item fuel with
  | nil =>
    simp only [itemTokens, List.length_append, List.length_singleton] at hfuel
    obtain ⟨fuel, rfl⟩ := Nat.exists_eq_add_one_of_ne_zero (by omega : fuel ≠ 0)
    have hitem := h item List.mem_cons_self fuel (.closeBracket :: rest) (by omega)
    simp only [itemTokens, List.append_assoc, List.singleton_append, readItems, hitem,
      Option.bind_eq_bind, Option.bind_some, Option.pure_def]
  | cons next items ih =>
    simp only [itemTokens, List.length_append, List.length_cons] at hfuel
    obtain ⟨fuel, rfl⟩ := Nat.exists_eq_add_one_of_ne_zero (by omega : fuel ≠ 0)
    have hitem := h item List.mem_cons_self fuel
      (.comma :: (next.toTokens ++ itemTokens items ++ rest)) (by omega)
    have hitems := ih (fun value hvalue => h value (List.mem_cons_of_mem _ hvalue))
      (by rw [List.length_append]; omega : 2 * (next.toTokens ++ itemTokens items).length ≤ fuel)
    simp only [itemTokens, List.append_assoc, List.cons_append] at hitem hitems ⊢
    simp only [readItems, hitem, hitems, Option.bind_eq_bind, Option.bind_some, Option.pure_def]

theorem readMembers_memberTokens (name : Literal) {value : Json} {members : List (Literal × Json)}
    (h : ∀ member ∈ (name, value) :: members, ∀ fuel rest,
      2 * member.2.toTokens.length ≤ fuel + 1 →
      readValue fuel (member.2.toTokens ++ rest) = some (member.2, rest))
    (hfuel : 2 * (value.toTokens ++ memberTokens members).length ≤ fuel) (rest : List Token) :
    readMembers fuel (.string name :: .colon :: (value.toTokens ++ memberTokens members ++ rest)) =
      some ((name, value) :: members, rest) := by
  induction members generalizing name value fuel with
  | nil =>
    simp only [memberTokens, List.length_append, List.length_singleton] at hfuel
    obtain ⟨fuel, rfl⟩ := Nat.exists_eq_add_one_of_ne_zero (by omega : fuel ≠ 0)
    have hvalue := h _ List.mem_cons_self fuel (.closeBrace :: rest) (by simp only; omega)
    simp only [memberTokens, List.append_assoc, List.singleton_append, readMembers, hvalue,
      Option.bind_eq_bind, Option.bind_some, Option.pure_def]
  | cons next members ih =>
    obtain ⟨nextName, nextValue⟩ := next
    simp only [memberTokens, List.length_append, List.length_cons] at hfuel
    obtain ⟨fuel, rfl⟩ := Nat.exists_eq_add_one_of_ne_zero (by omega : fuel ≠ 0)
    have hvalue := h _ List.mem_cons_self fuel (.comma :: .string nextName :: .colon ::
      (nextValue.toTokens ++ memberTokens members ++ rest)) (by simp only; omega)
    have hmembers := ih nextName (fun member hmember => h member (List.mem_cons_of_mem _ hmember))
      (by rw [List.length_append]; omega :
        2 * (nextValue.toTokens ++ memberTokens members).length ≤ fuel)
    simp only [memberTokens, List.append_assoc, List.cons_append] at hvalue hmembers ⊢
    simp only [readMembers, hvalue, hmembers, Option.bind_eq_bind, Option.bind_some,
      Option.pure_def]

/-- The tokens of a value spell it. -/
theorem readValue_toTokens (value : Json) {fuel : Nat} (rest : List Token)
    (hfuel : 2 * value.toTokens.length ≤ fuel + 1) :
    readValue fuel (value.toTokens ++ rest) = some (value, rest) := by
  induction value using inductionOn generalizing fuel rest with
  | null | boolean | number | string =>
    simp only [toTokens, List.length_singleton] at hfuel
    obtain ⟨fuel, rfl⟩ := Nat.exists_eq_add_one_of_ne_zero (by omega : fuel ≠ 0)
    simp only [toTokens, List.singleton_append, readValue]
  | array items ih =>
    cases items with
    | nil =>
      simp only [toTokens, List.length_cons] at hfuel
      obtain ⟨fuel, rfl⟩ := Nat.exists_eq_add_one_of_ne_zero (by omega : fuel ≠ 0)
      simp only [toTokens, List.cons_append, List.nil_append, readValue]
    | cons item items =>
      simp only [toTokens, List.length_cons] at hfuel
      obtain ⟨fuel, rfl⟩ := Nat.exists_eq_add_one_of_ne_zero (by omega : fuel ≠ 0)
      have hitems := readItems_itemTokens (fun value hvalue _ rest => ih value hvalue rest)
        (by omega : _ ≤ fuel) rest
      obtain ⟨token, more, hcons, hne⟩ := exists_toTokens_eq_cons item
      rw [hcons] at hitems
      simp only [toTokens, hcons, List.cons_append] at hitems ⊢
      rw [readValue, hitems, Option.map_some]
      intro tail heq
      exact hne (List.cons.inj heq).1
  | object members ih =>
    cases members with
    | nil =>
      simp only [toTokens, List.length_cons] at hfuel
      obtain ⟨fuel, rfl⟩ := Nat.exists_eq_add_one_of_ne_zero (by omega : fuel ≠ 0)
      simp only [toTokens, List.cons_append, List.nil_append, readValue]
    | cons member members =>
      obtain ⟨name, value⟩ := member
      simp only [toTokens, List.length_cons] at hfuel
      obtain ⟨fuel, rfl⟩ := Nat.exists_eq_add_one_of_ne_zero (by omega : fuel ≠ 0)
      have hmembers := readMembers_memberTokens name
        (fun member hmember _ rest => ih member hmember rest) (by omega : _ ≤ fuel) rest
      simp only [toTokens, List.cons_append, readValue, hmembers, Option.map_some]

end Reading

theorem ofTokens?_toTokens (value : Json) : ofTokens? value.toTokens = some value := by
  have hread := readValue_toTokens value [] (Nat.le_succ (2 * value.toTokens.length))
  rw [List.append_nil] at hread
  rw [ofTokens?, hread]

theorem parse?_of_tokens {text : List Char} {value : Json} (h : tokens text = some value.toTokens) :
    parse? text = some value := by
  rw [parse?, h, Option.bind_eq_bind, Option.bind_some, ofTokens?_toTokens]

theorem eq_of_isBlank {c : Char} (h : isBlank c) : c = ' ' ∨ c = '\t' ∨ c = '\n' ∨ c = '\r' := by
  simpa only [isBlank, Bool.or_eq_true, decide_eq_true_eq, or_assoc] using h

/-- A text consists of tokens and of blanks between them. -/
inductive Lexes : List Char → List Token → Prop
  | nil : Lexes [] []
  | blank {c : Char} {text : List Char} {tokens : List Token} (hc : isBlank c)
    (h : Lexes text tokens) : Lexes (c :: text) tokens
  | token {c : Char} (lexeme : List Char) {text : List Char} {token : Token} {tokens : List Token}
    (hc : isBlank c = false) (hscan : scanToken (c :: lexeme ++ text) = some (token, text))
    (h : Lexes text tokens) : Lexes (c :: lexeme ++ text) (token :: tokens)

namespace Lexes

variable {text : List Char} {tokens : List Token}

theorem tokensUpTo_eq (h : Lexes text tokens) {fuel : Nat} (hfuel : text.length ≤ fuel) :
    tokensUpTo fuel text = some tokens := by
  induction h generalizing fuel with
  | nil => cases fuel <;> rfl
  | blank hc _ ih =>
    rw [List.length_cons] at hfuel
    obtain ⟨fuel, rfl⟩ := Nat.exists_eq_add_one_of_ne_zero (by omega : fuel ≠ 0)
    rw [tokensUpTo, if_pos hc, ih (by omega)]
  | token _ hc hscan _ ih =>
    simp only [List.cons_append, List.length_cons, List.length_append] at hfuel hscan
    obtain ⟨fuel, rfl⟩ := Nat.exists_eq_add_one_of_ne_zero (by omega : fuel ≠ 0)
    simp only [List.cons_append, tokensUpTo, hc, Bool.false_eq_true, if_false, hscan,
      Option.bind_eq_bind, Option.bind_some, ih (by omega : _ ≤ fuel), Option.pure_def]

theorem tokens_eq (h : Lexes text tokens) : Json.tokens text = some tokens :=
  h.tokensUpTo_eq (Nat.le_refl _)

theorem replicate (n : Nat) (h : Lexes text tokens) :
    Lexes (List.replicate n ' ' ++ text) tokens := by
  induction n with
  | zero => exact h
  | succ n ih => exact .blank rfl ih

theorem newLine (depth : Nat) (h : Lexes text tokens) : Lexes (newLine depth ++ text) tokens :=
  .blank rfl (h.replicate _)

theorem literal (value : Literal) (h : Lexes text tokens) :
    Lexes (value.print ++ text) (.string value :: tokens) := by
  have hscan := scanToken_literal value text
  obtain ⟨more, hmore⟩ : ∃ more, value.print = '"' :: more := by
    cases value <;> exact ⟨_, rfl⟩
  rw [hmore] at hscan ⊢
  exact .token _ rfl hscan h

theorem number {value : Number} (hvalue : value.HasDigits) (htext : EndsNumber text)
    (h : Lexes text tokens) : Lexes (value.print ++ text) (.number value :: tokens) := by
  have hscan := scanToken_number hvalue htext
  obtain ⟨c, hc, hfirst⟩ := startsNumber_print value []
  rw [List.append_nil] at hc
  obtain ⟨more, hmore⟩ := List.head?_eq_some_iff.mp hc
  rw [hmore] at hscan ⊢
  refine .token _ ?_ hscan h
  rw [Bool.eq_false_iff]
  intro hblank
  rcases eq_of_isBlank hblank with rfl | rfl | rfl | rfl <;>
    exact hfirst.elim (by decide) (by decide)

end Lexes

theorem endsNumber_cons {c : Char} (h : c = ',' ∨ c = '\n') (rest : List Char) :
    EndsNumber (c :: rest) := by
  rintro _ ⟨rfl⟩
  rcases h with rfl | rfl <;> decide

theorem endsNumber_newLine (depth : Nat) (rest : List Char) : EndsNumber (newLine depth ++ rest) :=
  endsNumber_cons (.inr rfl) _

section Writing

variable {depth : Nat} {text : List Char} {tokens : List Token}

theorem endsNumber_printItems (items : List Json) (htext : EndsNumber text) :
    EndsNumber (printItems depth items ++ text) := by
  cases items with
  | nil => exact htext
  | cons => exact endsNumber_cons (.inl rfl) _

theorem endsNumber_printMembers (members : List (Literal × Json)) (htext : EndsNumber text) :
    EndsNumber (printMembers depth members ++ text) := by
  cases members with
  | nil => exact htext
  | cons => exact endsNumber_cons (.inl rfl) _

/-- What `print` writes for a value at any depth consists of the tokens of the value. -/
def PrintsTokens (value : Json) : Prop :=
  ∀ depth text tokens, EndsNumber text → Lexes text tokens →
    Lexes (print depth value ++ text) (value.toTokens ++ tokens)

theorem lexes_printItems (depth : Nat) {items : List Json} (h : ∀ item ∈ items, PrintsTokens item)
    (htext : EndsNumber text) (hlexes : Lexes text (.closeBracket :: tokens)) :
    Lexes (printItems depth items ++ text) (itemTokens items ++ tokens) := by
  induction items with
  | nil => exact hlexes
  | cons item items ih =>
    have hitems := ih fun item hitem => h item (List.mem_cons_of_mem _ hitem)
    have hitem := h item List.mem_cons_self depth _ _ (endsNumber_printItems items htext) hitems
    simp only [printItems, itemTokens, List.cons_append, List.append_assoc]
    exact .token [] rfl rfl (hitem.newLine depth)

theorem lexes_member (depth : Nat) (name : Literal) {value : Json} (h : PrintsTokens value)
    (htext : EndsNumber text) (hlexes : Lexes text tokens) :
    Lexes (name.print ++ ':' :: ' ' :: (print depth value ++ text))
      (.string name :: .colon :: (value.toTokens ++ tokens)) :=
  .literal name (.token [] rfl rfl (.blank rfl (h depth text tokens htext hlexes)))

theorem lexes_printMembers (depth : Nat) {members : List (Literal × Json)}
    (h : ∀ member ∈ members, PrintsTokens member.2) (htext : EndsNumber text)
    (hlexes : Lexes text (.closeBrace :: tokens)) :
    Lexes (printMembers depth members ++ text) (memberTokens members ++ tokens) := by
  induction members with
  | nil => exact hlexes
  | cons member members ih =>
    obtain ⟨name, value⟩ := member
    have hmembers := ih fun member hmember => h member (List.mem_cons_of_mem _ hmember)
    have hmember := lexes_member depth name (h _ List.mem_cons_self)
      (endsNumber_printMembers members htext) hmembers
    simp only [printMembers, memberTokens, List.cons_append, List.append_assoc, List.nil_append]
    exact .token [] rfl rfl (hmember.newLine depth)

theorem printsTokens {value : Json} (h : value.Writable) : PrintsTokens value := by
  induction h with
  | null =>
    intro depth text tokens _ hlexes
    exact .token ['u', 'l', 'l'] rfl rfl hlexes
  | boolean value =>
    intro depth text tokens _ hlexes
    cases value with
    | true => exact .token ['r', 'u', 'e'] rfl rfl hlexes
    | false => exact .token ['a', 'l', 's', 'e'] rfl rfl hlexes
  | number hvalue =>
    intro depth text tokens htext hlexes
    exact hlexes.number hvalue htext
  | string value =>
    intro depth text tokens _ hlexes
    exact hlexes.literal value
  | @array items _ ih =>
    intro depth text tokens _ hlexes
    have hclose : Lexes (']' :: text) (.closeBracket :: tokens) := .token [] rfl rfl hlexes
    cases items with
    | nil => exact .token [] rfl rfl hclose
    | cons item items =>
      have hend := endsNumber_newLine depth (']' :: text)
      have hitems := lexes_printItems (depth + 1)
        (fun item hitem => ih item (List.mem_cons_of_mem _ hitem)) hend (hclose.newLine depth)
      have hitem := ih item List.mem_cons_self (depth + 1) _ _ (endsNumber_printItems items hend)
        hitems
      simp only [print, toTokens, List.cons_append, List.append_assoc, List.nil_append]
      exact .token [] rfl rfl (hitem.newLine (depth + 1))
  | @object members _ ih =>
    intro depth text tokens _ hlexes
    have hclose : Lexes ('\x7d' :: text) (.closeBrace :: tokens) :=
      .token [] rfl rfl hlexes
    cases members with
    | nil => exact .token [] rfl rfl hclose
    | cons member members =>
      obtain ⟨name, value⟩ := member
      have hend := endsNumber_newLine depth ('\x7d' :: text)
      have hmembers := lexes_printMembers (depth + 1)
        (fun member hmember => ih member (List.mem_cons_of_mem _ hmember)) hend
        (hclose.newLine depth)
      have hmember := lexes_member (depth + 1) name (ih _ List.mem_cons_self)
        (endsNumber_printMembers members hend) hmembers
      simp only [print, toTokens, List.cons_append, List.append_assoc, List.nil_append]
      exact .token [] rfl rfl (hmember.newLine (depth + 1))

end Writing

/-- Reading the text that is written for a value gives the value back. -/
theorem parse?_pretty {value : Json} (h : value.Writable) :
    parse? value.pretty.toList = some value := by
  have hlexes := printsTokens h 0 [] [] nofun .nil
  simp only [List.append_nil] at hlexes
  rw [pretty, String.toList_ofList]
  exact parse?_of_tokens hlexes.tokens_eq

end ScopeCheck.Json
