import ScopeCheck.Proofs.Json.Scanning

namespace ScopeCheck.Json

/-! ### Reading takes nothing but the tokens of a value -/

/-- What is read with some fuel are the tokens of what comes out, with the rest behind them. -/
structure ReadsTokens (fuel : Nat) : Prop where
  value {tokens rest : List Token} {value : Json} (h : readValue fuel tokens = some (value, rest)) :
    tokens = value.toTokens ++ rest
  items {tokens rest : List Token} {items : List Json}
    (h : readItems fuel tokens = some (items, rest)) :
    ∃ item more, items = item :: more ∧ tokens = item.toTokens ++ itemTokens more ++ rest
  members {tokens rest : List Token} {members : List (Literal × Json)}
    (h : readMembers fuel tokens = some (members, rest)) :
    ∃ name value more, members = (name, value) :: more ∧
      tokens = .string name :: .colon :: (value.toTokens ++ memberTokens more ++ rest)

namespace ReadsTokens

variable {fuel : Nat} {tokens rest : List Token}

theorem value_succ (hread : ReadsTokens fuel) {value : Json}
    (h : readValue (fuel + 1) tokens = some (value, rest)) : tokens = value.toTokens ++ rest := by
  cases tokens with
  | nil => cases h
  | cons token tokens =>
    cases token with
    | null | boolean | number | string =>
      cases h
      rfl
    | openBracket =>
      rw [readValue.eq_def] at h
      dsimp only at h
      split at h
      · cases h
        rfl
      · obtain ⟨⟨items, _⟩, hitems, heq⟩ := Option.map_eq_some_iff.mp h
        cases heq
        obtain ⟨item, more, rfl, rfl⟩ := hread.items hitems
        rfl
    | openBrace =>
      rw [readValue.eq_def] at h
      dsimp only at h
      split at h
      · cases h
        rfl
      · obtain ⟨⟨members, _⟩, hmembers, heq⟩ := Option.map_eq_some_iff.mp h
        cases heq
        obtain ⟨name, value, more, rfl, rfl⟩ := hread.members hmembers
        rfl
    | closeBrace | closeBracket | comma | colon => cases h

theorem items_succ (hread : ReadsTokens fuel) {items : List Json}
    (h : readItems (fuel + 1) tokens = some (items, rest)) :
    ∃ item more, items = item :: more ∧ tokens = item.toTokens ++ itemTokens more ++ rest := by
  rw [readItems] at h
  obtain ⟨⟨item, behind⟩, hitem, h⟩ := Option.bind_eq_some_iff.mp h
  rw [hread.value hitem]
  dsimp only at h
  split at h
  · cases h
    exact ⟨item, [], rfl, by simp [itemTokens]⟩
  · obtain ⟨⟨later, _⟩, hlater, heq⟩ := Option.bind_eq_some_iff.mp h
    cases heq
    obtain ⟨next, more, rfl, rfl⟩ := hread.items hlater
    exact ⟨item, next :: more, rfl, by simp [itemTokens]⟩
  · cases h

theorem members_succ (hread : ReadsTokens fuel) {members : List (Literal × Json)}
    (h : readMembers (fuel + 1) tokens = some (members, rest)) :
    ∃ name value more, members = (name, value) :: more ∧
      tokens = .string name :: .colon :: (value.toTokens ++ memberTokens more ++ rest) := by
  rw [readMembers.eq_def] at h
  split at h
  · rename_i name tokens heq
    cases heq
    obtain ⟨⟨value, behind⟩, hvalue, h⟩ := Option.bind_eq_some_iff.mp h
    rw [hread.value hvalue]
    dsimp only at h
    split at h
    · cases h
      exact ⟨name, value, [], rfl, by simp [memberTokens]⟩
    · obtain ⟨⟨later, _⟩, hlater, heq⟩ := Option.bind_eq_some_iff.mp h
      cases heq
      obtain ⟨next, nextValue, more, rfl, rfl⟩ := hread.members hlater
      exact ⟨name, value, (next, nextValue) :: more, rfl, by simp [memberTokens]⟩
    · cases h
  · cases h

end ReadsTokens

theorem readsTokens (fuel : Nat) : ReadsTokens fuel := by
  induction fuel with
  | zero => exact ⟨nofun, nofun, nofun⟩
  | succ fuel ih => exact ⟨ih.value_succ, ih.items_succ, ih.members_succ⟩

theorem ofTokens?_eq_some_iff {tokens : List Token} {value : Json} :
    ofTokens? tokens = some value ↔ tokens = value.toTokens := by
  constructor
  · intro h
    rw [ofTokens?] at h
    split at h
    · rename_i hread
      cases h
      rw [(readsTokens _).value hread, List.append_nil]
    · cases h
  · rintro rfl
    exact ofTokens?_toTokens value

/-! ### The texts of a value -/

theorem Apart.cons {token : Token} {tokens : List Token} (h : Apart tokens)
    (htoken : token.isNumber = false) : Apart (token :: tokens) :=
  List.isChain_cons.mpr ⟨fun _ _ hnumber => absurd hnumber (by simp [htoken]), h⟩

theorem startsPlain_itemTokens (items : List Json) (rest : List Token) :
    StartsPlain (itemTokens items ++ rest) := by
  cases items <;> rintro token ⟨rfl⟩ <;> rfl

theorem startsPlain_memberTokens (members : List (Literal × Json)) (rest : List Token) :
    StartsPlain (memberTokens members ++ rest) := by
  cases members <;> rintro token ⟨rfl⟩ <;> rfl

/-- The tokens of a value are apart from each other, and from what does not start with a number. -/
def TokensApart (value : Json) : Prop :=
  ∀ rest, Apart rest → StartsPlain rest → Apart (value.toTokens ++ rest)

theorem apart_itemTokens {items : List Json} (h : ∀ item ∈ items, TokensApart item)
    {rest : List Token} (hrest : Apart rest) : Apart (itemTokens items ++ rest) := by
  induction items with
  | nil => exact hrest.cons rfl
  | cons item items ih =>
    have hitems := ih fun item hitem => h item (List.mem_cons_of_mem _ hitem)
    have hitem := h item List.mem_cons_self _ hitems (startsPlain_itemTokens items rest)
    rw [itemTokens, List.cons_append, List.append_assoc]
    exact hitem.cons rfl

theorem apart_memberTokens {members : List (Literal × Json)}
    (h : ∀ member ∈ members, TokensApart member.2) {rest : List Token} (hrest : Apart rest) :
    Apart (memberTokens members ++ rest) := by
  induction members with
  | nil => exact hrest.cons rfl
  | cons member members ih =>
    obtain ⟨name, value⟩ := member
    have hmembers := ih fun member hmember => h member (List.mem_cons_of_mem _ hmember)
    have hvalue := h _ List.mem_cons_self _ hmembers (startsPlain_memberTokens members rest)
    simp only [memberTokens, List.cons_append, List.append_assoc]
    exact ((hvalue.cons rfl).cons rfl).cons rfl

theorem tokensApart (value : Json) : TokensApart value := by
  induction value using inductionOn with
  | null | boolean | string => exact fun _ hrest _ => hrest.cons rfl
  | number =>
    exact fun _ hrest hplain => List.isChain_cons.mpr ⟨fun next hnext _ => hplain next hnext, hrest⟩
  | array items ih =>
    intro rest hrest _
    cases items with
    | nil => exact (hrest.cons rfl).cons rfl
    | cons item items =>
      have hitems := apart_itemTokens (fun item hitem => ih item (List.mem_cons_of_mem _ hitem))
        hrest
      have hitem := ih item List.mem_cons_self _ hitems (startsPlain_itemTokens items rest)
      rw [toTokens, List.cons_append, List.append_assoc]
      exact hitem.cons rfl
  | object members ih =>
    intro rest hrest _
    cases members with
    | nil => exact (hrest.cons rfl).cons rfl
    | cons member members =>
      obtain ⟨name, value⟩ := member
      have hmembers := apart_memberTokens
        (fun member hmember => ih member (List.mem_cons_of_mem _ hmember)) hrest
      have hvalue := ih _ List.mem_cons_self _ hmembers (startsPlain_memberTokens members rest)
      simp only [toTokens, List.cons_append, List.append_assoc]
      exact ((hvalue.cons rfl).cons rfl).cons rfl

theorem apart_toTokens (value : Json) : Apart value.toTokens := by
  have h := tokensApart value [] .nil nofun
  rwa [List.append_nil] at h

/-- The texts of the tokens of a value, one by one. -/
def SpelledBy (value : Json) (lexemes : List (List Char)) : Prop :=
  List.Forall₂ IsLexeme lexemes value.toTokens

/-- A text of a value consists of its lexemes and of blanks. -/
def WrittenAs (value : Json) (text : List Char) : Prop :=
  ∃ lexemes, value.SpelledBy lexemes ∧ Spaced lexemes text

/-- What is read as a value are its texts, and nothing else. -/
theorem parse?_eq_some_iff {text : List Char} {value : Json} :
    parse? text = some value ↔ value.WrittenAs text := by
  constructor
  · intro h
    obtain ⟨tokens, htokens, hvalue⟩ := Option.bind_eq_some_iff.mp h
    rw [ofTokens?_eq_some_iff] at hvalue
    subst hvalue
    exact exists_spaced_of_tokensUpTo htokens
  · rintro ⟨lexemes, hlexemes, hspaced⟩
    have hlexes := hspaced.lexes hlexemes (apart_toTokens value)
    rw [parse?, hlexes.tokens_eq, Option.bind_eq_bind, Option.bind_some, ofTokens?_toTokens]

end ScopeCheck.Json
