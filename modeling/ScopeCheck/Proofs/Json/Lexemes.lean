import ScopeCheck.Json.Printer
import ScopeCheck.Json.Reader

namespace ScopeCheck.Json

theorem hexDigit?_hexChar {n : Nat} (h : n < 16) : Text.hexDigit? (hexChar n) = some n := by
  have hall : ∀ n : Fin 16, Text.hexDigit? (hexChar n) = some n.val := by decide
  exact hall ⟨n, h⟩

theorem hexNumber?_control {c : Char} (h : c < ' ') :
    Text.hexNumber? ['0', '0', hexChar (c.toNat / 16), hexChar (c.toNat % 16)] = some c.toNat := by
  have hlt : c.toNat < 32 := h
  have hzero : Text.hexDigit? '0' = some 0 := by decide
  simp only [Text.hexNumber?, List.foldlM_cons, List.foldlM_nil, hzero,
    hexDigit?_hexChar (by omega : c.toNat / 16 < 16),
    hexDigit?_hexChar (by omega : c.toNat % 16 < 16), Option.map_some, Option.bind_eq_bind,
    Option.bind_some, Option.pure_def]
  congr 1
  omega

theorem scanString_plain {c : Char} (hblank : ¬ c < ' ') (hquote : c ≠ '"') (hslash : c ≠ '\\')
    (rest : List Char) :
    scanString (c :: rest) =
      (scanString rest).map fun (pieces, rest) => (.char c :: pieces, rest) := by
  rw [scanString.eq_def]
  split
  · rename_i heq
    cases heq
  · rename_i heq
    exact absurd (List.cons.inj heq).1 hquote
  · rename_i heq
    exact absurd (List.cons.inj heq).1 hslash
  · rename_i heq
    exact absurd (List.cons.inj heq).1 hslash
  · rename_i heq
    cases heq
    simp only [hslash, hblank, decide_false, Bool.or_false, Bool.false_eq_true, if_false]
    cases scanString rest <;> rfl

theorem scanString_escape {c letter : Char} (h : escaped? letter = some c) (hletter : letter ≠ 'u')
    (rest : List Char) :
    scanString ('\\' :: letter :: rest) =
      (scanString rest).map fun (pieces, rest) => (.char c :: pieces, rest) := by
  rw [scanString.eq_def]
  split
  · rename_i heq
    cases heq
  · rename_i heq
    cases heq
  · rename_i heq
    cases heq
    exact absurd rfl hletter
  · rename_i heq
    cases heq
    rw [h]
    cases scanString rest <;> rfl
  · rename_i hother heq
    cases heq
    exact absurd rfl (hother letter rest rfl)

theorem scanString_unit {a b c d : Char} {code : Nat} (h : Text.hexNumber? [a, b, c, d] = some code)
    (rest : List Char) :
    scanString ('\\' :: 'u' :: a :: b :: c :: d :: rest) =
      (scanString rest).map fun (pieces, rest) => (.unit code :: pieces, rest) := by
  rw [scanString, h]
  cases scanString rest <;> rfl

theorem spell_unit {code : Nat} (h : code < 0xD800) (pieces : List Piece) :
    Piece.spell (.unit code :: pieces) = (Piece.spell pieces).map (Char.ofNat code :: ·) := by
  rw [Piece.spell.eq_def]
  exact if_pos (.inl h)

/-- A character is written as one piece of a string, which spells it. -/
theorem exists_piece (c : Char) :
    ∃ piece : Piece,
      (∀ rest, scanString (escapeChar c ++ rest) =
        (scanString rest).map fun (pieces, rest) => (piece :: pieces, rest)) ∧
      ∀ pieces, Piece.spell (piece :: pieces) = (Piece.spell pieces).map (c :: ·) := by
  have hchar : ∀ pieces, Piece.spell (.char c :: pieces) = (Piece.spell pieces).map (c :: ·) :=
    fun _ => rfl
  rw [escapeChar.eq_def]
  split
  · exact ⟨.char _, scanString_escape rfl (by decide), hchar⟩
  · exact ⟨.char _, scanString_escape rfl (by decide), hchar⟩
  · exact ⟨.char _, scanString_escape rfl (by decide), hchar⟩
  · exact ⟨.char _, scanString_escape rfl (by decide), hchar⟩
  · exact ⟨.char _, scanString_escape rfl (by decide), hchar⟩
  · exact ⟨.char _, scanString_escape rfl (by decide), hchar⟩
  · exact ⟨.char _, scanString_escape rfl (by decide), hchar⟩
  · rename_i hquote hslash _ _ _ _ _
    split
    · rename_i hcontrol
      have hlt : c.toNat < 32 := hcontrol
      refine ⟨.unit c.toNat, scanString_unit (hexNumber?_control hcontrol), fun pieces => ?_⟩
      rw [spell_unit (by omega), Char.ofNat_toNat]
    · rename_i hcontrol
      exact ⟨.char c, scanString_plain hcontrol hquote hslash, hchar⟩

theorem exists_pieces (text rest : List Char) :
    ∃ pieces, scanString (text.flatMap escapeChar ++ '"' :: rest) = some (pieces, rest) ∧
      Piece.spell pieces = some text := by
  induction text with
  | nil => exact ⟨[], rfl, rfl⟩
  | cons c text ih =>
    obtain ⟨piece, hscan, hspell⟩ := exists_piece c
    obtain ⟨pieces, htext, hpieces⟩ := ih
    refine ⟨piece :: pieces, ?_, ?_⟩
    · rw [List.flatMap_cons, List.append_assoc, hscan, htext, Option.map_some]
    · rw [hspell, hpieces, Option.map_some]

theorem scanToken_quote (text : String) (rest : List Char) :
    scanToken (quote text ++ rest) = some (.string (.text text), rest) := by
  obtain ⟨pieces, hscan, hspell⟩ := exists_pieces text.toList rest
  rw [quote, List.cons_append, List.append_assoc, List.singleton_append, scanToken, hscan]
  simp only [Option.map_some, Piece.toLiteral, hspell, String.ofList_toList]

theorem scanToken_literal (literal : Literal) (rest : List Char) :
    scanToken (literal.print ++ rest) = some (.string literal, rest) := by
  cases literal with
  | text value => exact scanToken_quote value rest
  | halfPair => rfl

/-- What follows has no digit in front. -/
def EndsDigits (rest : List Char) : Prop := ∀ c ∈ rest.head?, c.isDigit = false

/-- What follows does not continue a number. -/
def EndsNumber (rest : List Char) : Prop :=
  ∀ c ∈ rest.head?, c.isDigit = false ∧ c ≠ '.' ∧ c ≠ 'e' ∧ c ≠ 'E'

theorem EndsNumber.endsDigits {rest : List Char} (h : EndsNumber rest) : EndsDigits rest :=
  fun c hc => (h c hc).1

theorem scanDigits_append {digits rest : List Char} (hne : digits ≠ [])
    (hdigits : ∀ c ∈ digits, c.isDigit) (hrest : EndsDigits rest) :
    scanDigits (digits ++ rest) = some (digits, rest) := by
  have htake : rest.takeWhile Char.isDigit = [] := by
    cases rest with
    | nil => rfl
    | cons c rest => simp [hrest c rfl]
  have hdrop : rest.dropWhile Char.isDigit = rest := by
    cases rest with
    | nil => rfl
    | cons c rest => simp [hrest c rfl]
  rw [scanDigits, List.takeWhile_append_of_pos hdigits, List.dropWhile_append_of_pos hdigits, htake,
    hdrop, List.append_nil]
  split
  · contradiction
  · rfl

theorem scanDigits_toDigits (n : Nat) {rest : List Char} (hrest : EndsDigits rest) :
    scanDigits (Nat.toDigits 10 n ++ rest) = some (Nat.toDigits 10 n, rest) :=
  scanDigits_append (List.ne_nil_of_length_pos Nat.length_toDigits_pos)
    (fun _ => Nat.isDigit_of_mem_toDigits (by decide) (by decide)) hrest

theorem exists_toDigits_eq_cons (n : Nat) :
    ∃ c digits, Nat.toDigits 10 n = c :: digits ∧ c.isDigit ∧ (n ≠ 0 → c ≠ '0') := by
  induction n using Nat.strongRecOn with
  | ind n ih =>
    rw [Nat.toDigits_eq_if (by decide)]
    split
    · exact ⟨n.digitChar, [], rfl, by simpa [Nat.isDigit_digitChar], by simp⟩
    · obtain ⟨c, digits, hquotient, hdigit, hzero⟩ := ih (n / 10) (by omega)
      exact ⟨c, digits ++ [(n % 10).digitChar], by rw [hquotient, List.cons_append], hdigit,
        fun _ => hzero (by omega)⟩

theorem scanWhole_of_ne {text : List Char} (h : '0' ∉ text.head?) :
    scanWhole text = (scanDigits text).map fun (digits, rest) =>
      (Nat.ofDigitChars 10 digits 0, rest) := by
  rw [scanWhole.eq_def]
  split
  · exact absurd rfl h
  · rfl

def StartsDigit (text : List Char) : Prop := ∃ c ∈ text.head?, c.isDigit

theorem StartsDigit.not_mem_head? {text : List Char} {c : Char} (h : StartsDigit text)
    (hc : c.isDigit = false) : c ∉ text.head? := by
  obtain ⟨d, hd, hdigit⟩ := h
  intro hmem
  rw [Option.mem_unique hmem hd, hdigit] at hc
  cases hc

theorem startsDigit_toDigits (n : Nat) (rest : List Char) :
    StartsDigit (Nat.toDigits 10 n ++ rest) := by
  obtain ⟨c, digits, hcons, hdigit, -⟩ := exists_toDigits_eq_cons n
  exact ⟨c, by rw [hcons]; rfl, hdigit⟩

theorem scanWhole_toDigits (n : Nat) {rest : List Char} (hrest : EndsDigits rest) :
    scanWhole (Nat.toDigits 10 n ++ rest) = some (n, rest) := by
  by_cases h : n = 0
  · subst h
    rfl
  · obtain ⟨c, digits, hcons, -, hzero⟩ := exists_toDigits_eq_cons n
    have hfirst : '0' ∉ (Nat.toDigits 10 n ++ rest).head? := by
      simpa [hcons] using hzero h
    simp only [scanWhole_of_ne hfirst, scanDigits_toDigits n hrest, Option.map_some,
      Nat.ofDigitChars_toDigits (by decide : 1 < 10) (by decide)]

/-- What stands behind the point of a number are digits. -/
def Number.HasDigits (number : Number) : Prop := ∀ c ∈ number.fraction, c.isDigit

theorem scanFraction_of_ne {text : List Char} (h : '.' ∉ text.head?) :
    scanFraction text = some ([], text) := by
  rw [scanFraction.eq_def]
  split
  · exact absurd rfl h
  · rfl

theorem scanFraction_print {fraction rest : List Char} (h : ∀ c ∈ fraction, c.isDigit)
    (hrest : EndsDigits rest) (hpoint : '.' ∉ rest.head?) :
    scanFraction ((if fraction.isEmpty then [] else '.' :: fraction) ++ rest) =
      some (fraction, rest) := by
  cases fraction with
  | nil => exact scanFraction_of_ne hpoint
  | cons c fraction => exact scanDigits_append (List.cons_ne_nil c fraction) h hrest

/-- The text of an exponent with its letter, or nothing. -/
def exponentText : Option Int → List Char
  | none => []
  | some power => 'e' :: ((if power < 0 then ['-'] else []) ++ Nat.toDigits 10 power.natAbs)

theorem scanPower_of_ne {text : List Char} (hminus : '-' ∉ text.head?) (hplus : '+' ∉ text.head?) :
    scanPower text = (scanDigits text).map fun (digits, rest) =>
      ((Nat.ofDigitChars 10 digits 0 : Nat), rest) := by
  rw [scanPower.eq_def]
  split
  · exact absurd rfl hminus
  · exact absurd rfl hplus
  · rfl

theorem scanPower_print (power : Int) {rest : List Char} (hrest : EndsDigits rest) :
    scanPower ((if power < 0 then ['-'] else []) ++ Nat.toDigits 10 power.natAbs ++ rest) =
      some (power, rest) := by
  have hvalue := Nat.ofDigitChars_toDigits (n := power.natAbs) (by decide : 1 < 10) (by decide)
  split
  · simp only [List.cons_append, List.nil_append, scanPower, scanDigits_toDigits _ hrest,
      Option.map_some, hvalue]
    congr 2
    omega
  · have hstart := startsDigit_toDigits power.natAbs rest
    rw [List.nil_append, scanPower_of_ne (hstart.not_mem_head? rfl) (hstart.not_mem_head? rfl)]
    simp only [scanDigits_toDigits _ hrest, Option.map_some, hvalue]
    congr 2
    omega

theorem scanExponent_print (exponent : Option Int) {rest : List Char} (hrest : EndsNumber rest) :
    scanExponent (exponentText exponent ++ rest) = some (exponent, rest) := by
  cases exponent with
  | some power =>
    simp only [exponentText, List.cons_append, scanExponent, scanPower_print power hrest.endsDigits,
      Option.map_some]
  | none =>
    rw [exponentText, List.nil_append, scanExponent.eq_def]
    split
    · exact absurd rfl (hrest _ rfl).2.2.1
    · exact absurd rfl (hrest _ rfl).2.2.2
    · rfl

theorem endsDigits_exponentText (exponent : Option Int) {rest : List Char}
    (hrest : EndsNumber rest) :
    EndsDigits (exponentText exponent ++ rest) ∧ '.' ∉ (exponentText exponent ++ rest).head? := by
  cases exponent with
  | none => exact ⟨hrest.endsDigits, fun hpoint => (hrest _ hpoint).2.1 rfl⟩
  | some power => simp [exponentText, EndsDigits]

theorem scanUnsigned_print {number : Number} (h : number.HasDigits) {rest : List Char}
    (hrest : EndsNumber rest) :
    scanUnsigned number.negative (Nat.toDigits 10 number.whole
      ++ ((if number.fraction.isEmpty then [] else '.' :: number.fraction)
      ++ (exponentText number.exponent ++ rest))) = some (number, rest) := by
  obtain ⟨hexponent, hpoint⟩ := endsDigits_exponentText number.exponent hrest
  have hfraction : EndsDigits ((if number.fraction.isEmpty then [] else '.' :: number.fraction)
      ++ (exponentText number.exponent ++ rest)) := by
    split
    · exact hexponent
    · simp [EndsDigits]
  simp only [scanUnsigned, scanWhole_toDigits _ hfraction, scanFraction_print h hexponent hpoint,
    scanExponent_print _ hrest, Option.bind_eq_bind, Option.bind_some, Option.pure_def]

theorem print_eq (number : Number) :
    number.print = (if number.negative then ['-'] else []) ++ (Nat.toDigits 10 number.whole
      ++ ((if number.fraction.isEmpty then [] else '.' :: number.fraction)
      ++ exponentText number.exponent)) := by
  simp only [Number.print, List.append_assoc]
  rfl

theorem scanNumber_of_ne {text : List Char} (h : '-' ∉ text.head?) :
    scanNumber text = scanUnsigned false text := by
  rw [scanNumber.eq_def]
  split
  · exact absurd rfl h
  · rfl

theorem scanNumber_print {number : Number} (h : number.HasDigits) {rest : List Char}
    (hrest : EndsNumber rest) : scanNumber (number.print ++ rest) = some (number, rest) := by
  have hunsigned := scanUnsigned_print h hrest
  simp only [print_eq, List.append_assoc]
  cases hnegative : number.negative with
  | true => simpa [hnegative, scanNumber] using hunsigned
  | false =>
    rw [hnegative] at hunsigned
    rw [if_neg (by decide), List.nil_append,
      scanNumber_of_ne ((startsDigit_toDigits _ _).not_mem_head? rfl), hunsigned]

/-- A text with a digit or a minus in front. -/
def StartsNumber (text : List Char) : Prop := ∃ c ∈ text.head?, c.isDigit ∨ c = '-'

theorem scanToken_of_startsNumber {text : List Char} (h : StartsNumber text) :
    scanToken text = (scanNumber text).map fun (value, rest) => (.number value, rest) := by
  obtain ⟨c, hc, hfirst⟩ := h
  have hne : ∀ other, Char.isDigit other = false → other ≠ '-' → other ∉ text.head? := by
    intro other hother hminus hmem
    cases Option.mem_unique hmem hc
    exact hfirst.elim (by simp [hother]) hminus
  rw [scanToken.eq_def]
  split
  case h_11 => rfl
  all_goals exact absurd rfl (hne _ (by decide) (by decide))

theorem startsNumber_print (number : Number) (rest : List Char) :
    StartsNumber (number.print ++ rest) := by
  rw [print_eq]
  split
  · exact ⟨'-', rfl, .inr rfl⟩
  · rw [List.nil_append, List.append_assoc]
    obtain ⟨c, hc, hdigit⟩ := startsDigit_toDigits number.whole _
    exact ⟨c, hc, .inl hdigit⟩

theorem scanToken_number {number : Number} (h : number.HasDigits) {rest : List Char}
    (hrest : EndsNumber rest) : scanToken (number.print ++ rest) = some (.number number, rest) := by
  rw [scanToken_of_startsNumber (startsNumber_print number rest), scanNumber_print h hrest,
    Option.map_some]

end ScopeCheck.Json
