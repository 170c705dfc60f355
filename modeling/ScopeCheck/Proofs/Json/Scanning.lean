import Mathlib.Data.List.Chain
import ScopeCheck.Proofs.Json.RoundTrip

namespace ScopeCheck.Json

/-- A scanner takes a lexeme off the front of a text, and takes it again before whatever meets
`after`. What the lexeme is then in front of meets `before` together with it. -/
def TakesLexeme {α : Type} (after before : List Char → Prop)
    (scan : List Char → Option (α × List Char)) : Prop :=
  ∀ ⦃text rest : List Char⦄ ⦃a : α⦄, scan text = some (a, rest) →
    ∃ lexeme, text = lexeme ++ rest ∧
      ∀ more, after more → scan (lexeme ++ more) = some (a, more) ∧ before (lexeme ++ more)

/-- Anything may follow. -/
def Anything (_ : List Char) : Prop := True

/-- What follows does not continue the digits behind a point, nor start them. -/
def EndsFraction (rest : List Char) : Prop := ∀ c ∈ rest.head?, c.isDigit = false ∧ c ≠ '.'

theorem EndsFraction.endsDigits {rest : List Char} (h : EndsFraction rest) : EndsDigits rest :=
  fun c hc => (h c hc).1

theorem endsNumber_nil : EndsNumber [] := nofun

theorem EndsNumber.endsFraction {rest : List Char} (h : EndsNumber rest) : EndsFraction rest :=
  fun c hc => ⟨(h c hc).1, (h c hc).2.1⟩

namespace TakesLexeme

variable {α β : Type} {after middle before : List Char → Prop}
  {scan : List Char → Option (α × List Char)}

theorem map (h : TakesLexeme after before scan) (f : α → β) :
    TakesLexeme after before fun text => (scan text).map fun (a, rest) => (f a, rest) := by
  intro text rest b hscan
  obtain ⟨⟨a, rest⟩, hscan, hb⟩ := Option.map_eq_some_iff.mp hscan
  cases hb
  obtain ⟨lexeme, rfl, hmore⟩ := h hscan
  refine ⟨lexeme, rfl, fun more hafter => ?_⟩
  obtain ⟨hscan, hbefore⟩ := hmore more hafter
  exact ⟨by simp only [hscan, Option.map_some], hbefore⟩

theorem pure (a : α) : TakesLexeme after after fun text => some (a, text) := by
  rintro text rest _ ⟨rfl⟩
  exact ⟨[], rfl, fun more hafter => ⟨rfl, hafter⟩⟩

/-- One scanner after the other: what the second takes must end what the first takes. -/
theorem bind {next : α → List Char → Option (β × List Char)} (h : TakesLexeme middle before scan)
    (hnext : ∀ a, TakesLexeme after middle (next a)) :
    TakesLexeme after before fun text => (scan text).bind fun (a, rest) => next a rest := by
  intro text rest b hscan
  obtain ⟨⟨a, between⟩, hscan, hb⟩ := Option.bind_eq_some_iff.mp hscan
  obtain ⟨first, rfl, hfirst⟩ := h hscan
  obtain ⟨second, rfl, hsecond⟩ := hnext a hb
  refine ⟨first ++ second, (List.append_assoc _ _ _).symm, fun more hafter => ?_⟩
  obtain ⟨hb, hmiddle⟩ := hsecond more hafter
  obtain ⟨ha, hbefore⟩ := hfirst _ hmiddle
  rw [List.append_assoc]
  exact ⟨by simp only [ha, Option.bind_some, hb], hbefore⟩

end TakesLexeme

/-! ### Strings -/

theorem exists_lexeme_of_piece (front : List Char) {text rest : List Char} {piece : Piece}
    {pieces : List Piece}
    (hfront : ∀ text, scanString (front ++ text) =
      (scanString text).map fun (pieces, rest) => (piece :: pieces, rest))
    (h : ∃ lexeme, text = lexeme ++ rest ∧
      ∀ more, scanString (lexeme ++ more) = some (pieces, more)) :
    ∃ lexeme, front ++ text = lexeme ++ rest ∧
      ∀ more, scanString (lexeme ++ more) = some (piece :: pieces, more) := by
  obtain ⟨lexeme, rfl, hlexeme⟩ := h
  refine ⟨front ++ lexeme, (List.append_assoc _ _ _).symm, fun more => ?_⟩
  rw [List.append_assoc, hfront, hlexeme, Option.map_some]

theorem exists_lexeme_of_scanString {text rest : List Char} {pieces : List Piece}
    (hscan : scanString text = some (pieces, rest)) :
    ∃ lexeme, text = lexeme ++ rest ∧ ∀ more, scanString (lexeme ++ more) = some (pieces, more) := by
  fun_induction scanString text generalizing rest pieces with
  | case1 => cases hscan
  | case2 text =>
    cases hscan
    exact ⟨['"'], rfl, fun more => rfl⟩
  | case3 a b c d text ih =>
    obtain ⟨code, hcode, hscan⟩ := Option.bind_eq_some_iff.mp hscan
    obtain ⟨⟨later, _⟩, hlater, heq⟩ := Option.bind_eq_some_iff.mp hscan
    cases heq
    exact exists_lexeme_of_piece ['\\', 'u', a, b, c, d] (scanString_unit hcode)
      (ih hlater)
  | case4 letter text hletter ih =>
    obtain ⟨c, hc, hscan⟩ := Option.bind_eq_some_iff.mp hscan
    obtain ⟨⟨later, _⟩, hlater, heq⟩ := Option.bind_eq_some_iff.mp hscan
    cases heq
    have hne : letter ≠ 'u' := by
      rintro rfl
      cases hc
    exact exists_lexeme_of_piece ['\\', letter] (scanString_escape hc hne) (ih hlater)
  | case5 => cases hscan
  | case6 c text hquote _ hslash hplain ih =>
    obtain ⟨⟨later, _⟩, hlater, heq⟩ := Option.bind_eq_some_iff.mp hscan
    cases heq
    simp only [Bool.or_eq_true, decide_eq_true_eq, not_or] at hplain
    exact exists_lexeme_of_piece [c]
      (scanString_plain hplain.1 (fun h => hquote h) hplain.2) (ih hlater)

/-! ### Numbers -/

theorem takesLexeme_scanDigits : TakesLexeme EndsDigits StartsDigit scanDigits := by
  intro text rest digits hscan
  rw [scanDigits] at hscan
  split at hscan
  · cases hscan
  rename_i hne
  cases hscan
  have hdigits : ∀ c ∈ text.takeWhile Char.isDigit, c.isDigit :=
    List.all_eq_true.mp List.all_takeWhile
  refine ⟨text.takeWhile Char.isDigit, List.takeWhile_append_dropWhile.symm, fun more hmore => ?_⟩
  obtain ⟨c, digits, hcons⟩ := List.exists_cons_of_ne_nil hne
  exact ⟨scanDigits_append hne hdigits hmore,
    c, by rw [hcons]; rfl, hdigits c (hcons ▸ List.mem_cons_self)⟩

theorem takesLexeme_scanWhole : TakesLexeme EndsDigits StartsDigit scanWhole := by
  intro text rest whole hscan
  by_cases hzero : '0' ∈ text.head?
  · obtain ⟨text, rfl⟩ := List.head?_eq_some_iff.mp hzero
    cases hscan
    exact ⟨['0'], rfl, fun more _ => ⟨rfl, '0', rfl, rfl⟩⟩
  · rw [scanWhole_of_ne hzero] at hscan
    obtain ⟨lexeme, rfl, hlexeme⟩ := takesLexeme_scanDigits.map _ hscan
    -- The lexeme is not empty, so what follows does not change the character in front.
    obtain ⟨c, digits, rfl⟩ : ∃ c digits, lexeme = c :: digits := by
      obtain ⟨c, hc, -⟩ := (hlexeme [] nofun).2
      rw [List.append_nil] at hc
      exact ⟨c, List.head?_eq_some_iff.mp hc⟩
    refine ⟨c :: digits, rfl, fun more hmore => ?_⟩
    have hmore_zero : '0' ∉ (c :: digits ++ more).head? := hzero
    rw [scanWhole_of_ne hmore_zero]
    exact hlexeme more hmore

theorem takesLexeme_scanFraction : TakesLexeme EndsFraction EndsDigits scanFraction := by
  intro text rest fraction hscan
  rw [scanFraction.eq_def] at hscan
  split at hscan
  · obtain ⟨lexeme, rfl, hlexeme⟩ := takesLexeme_scanDigits hscan
    refine ⟨'.' :: lexeme, rfl, fun more hmore => ⟨(hlexeme more hmore.endsDigits).1, ?_⟩⟩
    simp [EndsDigits]
  · cases hscan
    exact ⟨[], rfl, fun more hmore =>
      ⟨scanFraction_of_ne fun hpoint => (hmore _ hpoint).2 rfl, hmore.endsDigits⟩⟩

theorem takesLexeme_scanPower : TakesLexeme EndsDigits Anything scanPower := by
  intro text rest power hscan
  rw [scanPower.eq_def] at hscan
  split at hscan
  · obtain ⟨lexeme, rfl, hlexeme⟩ := takesLexeme_scanDigits.map
      (fun digits => (-(Nat.ofDigitChars 10 digits 0 : Nat) : Int)) hscan
    exact ⟨'-' :: lexeme, rfl, fun more hmore => ⟨(hlexeme more hmore).1, trivial⟩⟩
  · obtain ⟨lexeme, rfl, hlexeme⟩ := takesLexeme_scanDigits.map
      (fun digits => (Nat.ofDigitChars 10 digits 0 : Int)) hscan
    exact ⟨'+' :: lexeme, rfl, fun more hmore => ⟨(hlexeme more hmore).1, trivial⟩⟩
  · obtain ⟨lexeme, rfl, hlexeme⟩ := takesLexeme_scanDigits.map
      (fun digits => (Nat.ofDigitChars 10 digits 0 : Int)) hscan
    refine ⟨lexeme, rfl, fun more hmore => ?_⟩
    obtain ⟨hscan, hstart⟩ := hlexeme more hmore
    rw [scanPower_of_ne (hstart.not_mem_head? rfl) (hstart.not_mem_head? rfl)]
    exact ⟨hscan, trivial⟩

theorem takesLexeme_scanExponent : TakesLexeme EndsNumber EndsFraction scanExponent := by
  intro text rest exponent hscan
  rw [scanExponent.eq_def] at hscan
  split at hscan
  · obtain ⟨lexeme, rfl, hlexeme⟩ := takesLexeme_scanPower.map _ hscan
    refine ⟨'e' :: lexeme, rfl, fun more hmore => ⟨(hlexeme more hmore.endsDigits).1, ?_⟩⟩
    simp [EndsFraction]
  · obtain ⟨lexeme, rfl, hlexeme⟩ := takesLexeme_scanPower.map _ hscan
    refine ⟨'E' :: lexeme, rfl, fun more hmore => ⟨(hlexeme more hmore.endsDigits).1, ?_⟩⟩
    simp [EndsFraction]
  · cases hscan
    exact ⟨[], rfl, fun more hmore => ⟨scanExponent_print none hmore, hmore.endsFraction⟩⟩

theorem takesLexeme_scanUnsigned (negative : Bool) :
    TakesLexeme EndsNumber StartsDigit (scanUnsigned negative) :=
  takesLexeme_scanWhole.bind fun _ => takesLexeme_scanFraction.bind fun _ =>
    takesLexeme_scanExponent.bind fun _ => .pure _

theorem takesLexeme_scanNumber : TakesLexeme EndsNumber StartsNumber scanNumber := by
  intro text rest number hscan
  rw [scanNumber.eq_def] at hscan
  split at hscan
  · obtain ⟨lexeme, rfl, hlexeme⟩ := takesLexeme_scanUnsigned true hscan
    exact ⟨'-' :: lexeme, rfl, fun more hmore => ⟨(hlexeme more hmore).1, '-', rfl, .inr rfl⟩⟩
  · obtain ⟨lexeme, rfl, hlexeme⟩ := takesLexeme_scanUnsigned false hscan
    refine ⟨lexeme, rfl, fun more hmore => ?_⟩
    obtain ⟨hscan, hstart⟩ := hlexeme more hmore
    rw [scanNumber_of_ne (hstart.not_mem_head? rfl)]
    obtain ⟨c, hc, hdigit⟩ := hstart
    exact ⟨hscan, c, hc, .inl hdigit⟩

/-! ### Tokens -/

namespace Token

/-- Whether a token is a number, which other numbers could go on with. -/
def isNumber : Token → Bool
  | .number _ => true
  | _ => false

end Token

theorem exists_lexeme_of_scanToken {text rest : List Char} {token : Token}
    (hscan : scanToken text = some (token, rest)) :
    ∃ lexeme, text = lexeme ++ rest ∧
      ∀ more, (token.isNumber → EndsNumber more) →
        scanToken (lexeme ++ more) = some (token, more) := by
  rw [scanToken.eq_def] at hscan
  split at hscan
  case h_7 text =>
    obtain ⟨⟨pieces, rest⟩, hpieces, heq⟩ := Option.map_eq_some_iff.mp hscan
    cases heq
    obtain ⟨lexeme, rfl, hlexeme⟩ := exists_lexeme_of_scanString hpieces
    refine ⟨'"' :: lexeme, rfl, fun more _ => ?_⟩
    rw [List.cons_append, scanToken, hlexeme, Option.map_some]
  case h_11 =>
    obtain ⟨⟨number, rest⟩, hnumber, heq⟩ := Option.map_eq_some_iff.mp hscan
    cases heq
    obtain ⟨lexeme, rfl, hlexeme⟩ := takesLexeme_scanNumber hnumber
    refine ⟨lexeme, rfl, fun more hmore => ?_⟩
    obtain ⟨hscan, hstart⟩ := hlexeme more (hmore rfl)
    rw [scanToken_of_startsNumber hstart, hscan, Option.map_some]
  -- The other tokens are words or single characters.
  case h_8 | h_9 =>
    cases hscan
    exact ⟨[_, _, _, _], rfl, fun _ _ => rfl⟩
  case h_10 =>
    cases hscan
    exact ⟨[_, _, _, _, _], rfl, fun _ _ => rfl⟩
  all_goals
    cases hscan
    exact ⟨[_], rfl, fun _ _ => rfl⟩

/-- The text of one token, with nothing before or behind it. -/
def IsLexeme (lexeme : List Char) (token : Token) : Prop := scanToken lexeme = some (token, [])

namespace IsLexeme

variable {lexeme : List Char} {token : Token}

theorem scanToken_append (h : IsLexeme lexeme token) {more : List Char}
    (hmore : token.isNumber → EndsNumber more) :
    scanToken (lexeme ++ more) = some (token, more) := by
  obtain ⟨taken, htaken, hscan⟩ := exists_lexeme_of_scanToken h
  rw [List.append_nil] at htaken
  rw [htaken]
  exact hscan more hmore

theorem exists_cons (h : IsLexeme lexeme token) :
    ∃ c more, lexeme = c :: more ∧ isBlank c = false := by
  cases lexeme with
  | nil => cases h
  | cons c more =>
    refine ⟨c, more, rfl, ?_⟩
    rw [Bool.eq_false_iff]
    intro hblank
    rcases eq_of_isBlank hblank with rfl | rfl | rfl | rfl <;> cases h

theorem endsNumber (h : IsLexeme lexeme token) (hnumber : token.isNumber = false)
    (more : List Char) : EndsNumber (lexeme ++ more) := by
  rw [IsLexeme, scanToken.eq_def] at h
  split at h
  case h_11 =>
    obtain ⟨⟨_, _⟩, -, heq⟩ := Option.map_eq_some_iff.mp h
    cases heq
    cases hnumber
  all_goals
    rintro c ⟨rfl⟩
    decide

end IsLexeme

/-- A text consists of lexemes, with blanks before, between and behind them. -/
inductive Spaced : List (List Char) → List Char → Prop
  | nil : Spaced [] []
  | blank {lexemes : List (List Char)} {text : List Char} {c : Char} (hc : isBlank c)
    (h : Spaced lexemes text) : Spaced lexemes (c :: text)
  | lexeme {lexemes : List (List Char)} {text : List Char} (lexeme : List Char)
    (h : Spaced lexemes text) : Spaced (lexeme :: lexemes) (lexeme ++ text)

theorem exists_spaced_of_tokensUpTo {fuel : Nat} {text : List Char} {tokens : List Token}
    (h : tokensUpTo fuel text = some tokens) :
    ∃ lexemes, List.Forall₂ IsLexeme lexemes tokens ∧ Spaced lexemes text := by
  induction fuel generalizing text tokens with
  | zero =>
    cases text with
    | nil =>
      cases h
      exact ⟨[], .nil, .nil⟩
    | cons => cases h
  | succ fuel ih =>
    cases text with
    | nil =>
      cases h
      exact ⟨[], .nil, .nil⟩
    | cons c text =>
      rw [tokensUpTo] at h
      split at h
      · rename_i hc
        obtain ⟨lexemes, hlexemes, hspaced⟩ := ih h
        exact ⟨lexemes, hlexemes, .blank hc hspaced⟩
      · obtain ⟨⟨token, rest⟩, hscan, h⟩ := Option.bind_eq_some_iff.mp h
        obtain ⟨later, hlater, heq⟩ := Option.bind_eq_some_iff.mp h
        cases heq
        obtain ⟨lexemes, hlexemes, hspaced⟩ := ih hlater
        obtain ⟨lexeme, htext, hlexeme⟩ := exists_lexeme_of_scanToken hscan
        have htoken := hlexeme [] fun _ => endsNumber_nil
        rw [List.append_nil] at htoken
        rw [htext]
        exact ⟨lexeme :: lexemes, .cons htoken hlexemes, .lexeme lexeme hspaced⟩

/-- No number stands directly before another. -/
def Apart (tokens : List Token) : Prop :=
  tokens.IsChain fun first next => first.isNumber → next.isNumber = false

/-- Tokens that start with something else than a number. -/
def StartsPlain (tokens : List Token) : Prop := ∀ token ∈ tokens.head?, token.isNumber = false

namespace Spaced

variable {lexemes : List (List Char)} {tokens : List Token} {text : List Char}

theorem endsNumber (h : Spaced lexemes text) (hlexemes : List.Forall₂ IsLexeme lexemes tokens)
    (hfirst : StartsPlain tokens) : EndsNumber text := by
  cases h with
  | nil => exact endsNumber_nil
  | blank hc =>
    rintro c ⟨rfl⟩
    rcases eq_of_isBlank hc with rfl | rfl | rfl | rfl <;> decide
  | lexeme lexeme =>
    cases hlexemes with
    | cons hlexeme => exact hlexeme.endsNumber (hfirst _ rfl) _

theorem lexes (h : Spaced lexemes text) (hlexemes : List.Forall₂ IsLexeme lexemes tokens)
    (hapart : Apart tokens) : Lexes text tokens := by
  induction h generalizing tokens with
  | nil =>
    cases hlexemes
    exact .nil
  | blank hc _ ih => exact .blank hc (ih hlexemes hapart)
  | lexeme lexeme h ih =>
    cases hlexemes with
    | cons hlexeme hlexemes =>
      obtain ⟨hfirst, hapart⟩ := List.isChain_cons.mp hapart
      obtain ⟨c, more, rfl, hc⟩ := hlexeme.exists_cons
      -- Behind a number stands a blank, the end, or a token that is no number.
      refine .token more hc (hlexeme.scanToken_append fun hnumber => ?_) (ih hlexemes hapart)
      exact h.endsNumber hlexemes fun next hnext => hfirst next hnext hnumber

end Spaced

end ScopeCheck.Json
