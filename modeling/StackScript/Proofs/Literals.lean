import Mathlib.Data.List.Basic
import StackScript.Proofs.Tokenization
import StackScript.Token.Literal

/-! # Literals and tokens

A text is a literal when it is a number token, or a minus sign with a number token right behind it.
One side looks for a sign, a suffix and a point in the whole text, the other reads it from left to
right; both come to the lexemes of the numbers. -/

namespace StackScript

open Lexeme

variable {kind : Kind} {cs text : List Char}

/-! ## Lexemes of numbers -/

namespace Lexeme

theorem matches_integer_iff : Matches .integer cs ↔ IsDigits cs := by
  refine ⟨fun h => ?_, .integer⟩
  cases h with
  | symbol hc => simp [symbols] at hc
  | integer hdigits => exact hdigits

theorem matches_float_iff : Matches .float cs ↔ IsSuffixed cs ∨ IsDecimal cs := by
  refine ⟨fun h => ?_, fun h => h.elim .suffixed .decimal⟩
  cases h with
  | symbol hc => simp [symbols] at hc
  | suffixed hsuffixed => exact .inl hsuffixed
  | decimal hdecimal => exact .inr hdecimal

theorem eq_minus_of_matches (h : Matches .minus cs) : cs = ['-'] := by
  cases h with
  | symbol hc => simpa [symbols] using hc

/-- A number has neither a sign nor any other symbol in it. -/
theorem Matches.isPlain_of_number (h : Matches kind cs) (hkind : kind ∈ [.integer, .float]) :
    ∀ c ∈ cs, isPlain c = true := by
  cases h.form with
  | symbol hc =>
      have hsymbols : ∀ s ∈ symbols, s.2 ∉ [.integer, .float] := by decide
      exact absurd hkind (hsymbols _ hc)
  | arrow => simp at hkind
  | plain _ hplain => exact hplain

/-- A minus sign is read by itself unless it starts an arrow. -/
theorem longest_minus (h : ∀ c ∈ cs.head?, c ≠ '>') : Longest .minus ['-'] cs := by
  refine ofChars?_append_iff.mp ?_
  rw [List.singleton_append, ofChars?]
  · rfl
  · rintro tail rfl
    exact h '>' rfl rfl

end Lexeme

/-! ## Texts of one token, or of a sign and a token -/

/-- One token of the kind is all of the text. -/
def IsWhole (kind : Kind) (text : List Char) : Prop :=
  ∃ token, tokenize text = .ok [token] ∧ token.kind = kind ∧ token.start = 0 ∧
    token.stop = Text.byteLength text

/-- A minus sign and a token of the kind right behind it are all of the text. -/
def IsNegated (kind : Kind) (text : List Char) : Prop :=
  ∃ sign token, tokenize text = .ok [sign, token] ∧ sign.kind = .minus ∧ token.kind = kind ∧
    sign.start = 0 ∧ sign.stop = token.start ∧ token.stop = Text.byteLength text

/-- A token that starts where the text does has no blanks before it. -/
theorem Lexes.eq_of_start_eq {pos : Nat} {token : Token} {tokens : List Token}
    (h : Lexes pos cs (token :: tokens)) (hstart : token.start = pos) :
    ∃ rest, cs = token.text.toList ++ rest ∧ Longest token.kind token.text.toList rest ∧
      Lexes token.stop rest tokens := by
  cases h with
  | @cons _ rest _ _ _ hgap hlongest hrest =>
      have hnil : token.gap.toList = [] := Text.byteLength_eq_zero_iff.mp (by omega)
      exact ⟨rest, by rw [hnil, List.nil_append], hlongest, hrest⟩

/-- A token that stops where the text does has no blanks behind it. -/
theorem Lexes.eq_of_stop_eq {pos : Nat} {token : Token} (h : Lexes pos cs [token])
    (hstart : token.start = pos) (hstop : token.stop = pos + Text.byteLength cs) :
    cs = token.text.toList ∧ Matches token.kind token.text.toList := by
  obtain ⟨rest, rfl, hlongest, -⟩ := h.eq_of_start_eq hstart
  rw [Token.stop, hstart, Text.byteLength_append] at hstop
  obtain rfl : rest = [] := Text.byteLength_eq_zero_iff.mp (by omega)
  exact ⟨List.append_nil _, hlongest.isLexeme⟩

theorem isWhole_iff : IsWhole kind text ↔ Matches kind text := by
  constructor
  · rintro ⟨token, htokens, rfl, hstart, hstop⟩
    obtain ⟨rfl, hmatches⟩ := (Lexer.tokens_eq_ok_iff.mp htokens).eq_of_stop_eq hstart
      (hstop.trans (Nat.zero_add _).symm)
    exact hmatches
  · intro h
    have hlexes := @Lexes.of_matches kind [] text (by simp) h 0
    exact ⟨_, Lexer.tokens_eq_ok_iff.mpr hlexes, rfl, rfl, by simp [Token.stop]⟩

theorem isNegated_iff (hkind : kind ∈ [.integer, .float]) :
    IsNegated kind text ↔ ∃ cs, text = '-' :: cs ∧ Matches kind cs := by
  constructor
  · rintro ⟨sign, token, htokens, hsign, rfl, hstart, hbetween, hstop⟩
    obtain ⟨rest, rfl, hlongest, hrest⟩ := (Lexer.tokens_eq_ok_iff.mp htokens).eq_of_start_eq hstart
    have hminus : sign.text.toList = ['-'] := eq_minus_of_matches (hsign ▸ hlongest.isLexeme)
    rw [Text.byteLength_append] at hstop
    obtain ⟨rfl, hmatches⟩ := hrest.eq_of_stop_eq hbetween.symm
      (by rw [hstop, Token.stop, hstart, Nat.zero_add])
    exact ⟨_, by rw [hminus, List.singleton_append], hmatches⟩
  · rintro ⟨cs, rfl, h⟩
    have hhead : ∀ c ∈ cs.head?, c ≠ '>' := by
      rintro c hc rfl
      exact absurd (h.isPlain_of_number hkind _ (List.mem_of_mem_head? hc)) (by decide)
    have hlexes := @Lexes.cons_of_longest 0 _ .minus [] ['-'] cs (by simp) (longest_minus hhead)
      (@Lexes.of_matches kind [] cs (by simp) h _)
    exact ⟨_, _, Lexer.tokens_eq_ok_iff.mpr hlexes, rfl, rfl, rfl, by simp [Token.stop],
      by simp [Token.stop]⟩

/-! ## Literals -/

namespace Literal

/-- A number with or without a sign. -/
theorem isWhole_or_isNegated_iff (hkind : kind ∈ [.integer, .float]) :
    IsWhole kind text ∨ IsNegated kind text ↔ Matches kind (unsigned text) := by
  rw [isWhole_iff, isNegated_iff hkind]
  by_cases hsign : ∃ cs, text = '-' :: cs
  · obtain ⟨cs, rfl⟩ := hsign
    have hnot : ¬ Matches kind ('-' :: cs) := fun h =>
      absurd (h.isPlain_of_number hkind '-' List.mem_cons_self) (by decide)
    simp [unsigned, hnot]
  · have hunsigned : unsigned text = text := by
      unfold unsigned
      split
      · exact absurd ⟨_, rfl⟩ hsign
      · rfl
    rw [hunsigned]
    refine ⟨?_, .inl⟩
    rintro (h | ⟨cs, rfl, -⟩)
    · exact h
    · exact absurd ⟨cs, rfl⟩ hsign

theorem isInteger_iff : isInteger text = true ↔ Matches .integer (unsigned text) := by
  simp [matches_integer_iff, isInteger, IsDigits]

/-- A number is split into the mark of a float at its end, if it has one, and what stands before. -/
inductive Splits : List Char → List Char → List Char → Prop where
  | marked {body : List Char} {c : Char} : isSuffix c = true → Splits (body ++ [c]) body [c]
  | bare {body : List Char} : body.getLast?.any isSuffix = false → Splits body body []

theorem exists_splits (number : List Char) : ∃ body suffix, Splits number body suffix := by
  by_cases h : number.getLast?.any isSuffix = true
  · obtain ⟨c, hlast, hc⟩ := (Option.any_eq_true _ _).mp h
    obtain ⟨body, rfl⟩ := List.getLast?_eq_some_iff.mp hlast
    exact ⟨body, [c], .marked hc⟩
  · exact ⟨number, [], .bare (Bool.eq_false_iff.mpr h)⟩

section

variable {number body suffix : List Char}

theorem Splits.eq_append (h : Splits number body suffix) :
    number = body ++ suffix ∧ (suffix = [] ∨ ∃ c, suffix = [c] ∧ isSuffix c = true) := by
  cases h with
  | marked hc => exact ⟨rfl, .inr ⟨_, rfl, hc⟩⟩
  | bare => exact ⟨(List.append_nil _).symm, .inl rfl⟩

theorem Splits.any_getLast? (h : Splits number body suffix) :
    number.getLast?.any isSuffix = !suffix.isEmpty := by
  cases h with
  | marked hc => rw [List.getLast?_concat, Option.any_some, hc, List.isEmpty_cons, Bool.not_false]
  | bare hbody => rw [hbody, List.isEmpty_nil, Bool.not_true]

theorem Splits.body_eq (h : Splits number body suffix) :
    (if (!suffix.isEmpty) = true then number.dropLast else number) = body := by
  cases h with
  | marked => exact List.dropLast_concat
  | bare => rfl

end

/-- Digits around a point, with at least one of them. -/
def IsPointed (body : List Char) : Prop :=
  ∃ whole fraction, body = whole ++ '.' :: fraction ∧ (∀ c ∈ whole, c.isDigit = true) ∧
    (∀ c ∈ fraction, c.isDigit = true) ∧ (whole ≠ [] ∨ fraction ≠ [])

/-- The point is the first one. -/
theorem isPointed_append_iff {whole fraction : List Char} (h : ∀ c ∈ whole, (c != '.') = true) :
    IsPointed (whole ++ '.' :: fraction) ↔ (∀ c ∈ whole, c.isDigit = true) ∧
      (∀ c ∈ fraction, c.isDigit = true) ∧ (whole ≠ [] ∨ fraction ≠ []) := by
  refine ⟨?_, fun hdigits => ⟨whole, fraction, rfl, hdigits⟩⟩
  rintro ⟨whole', fraction', heq, hwhole, hrest⟩
  have h' : ∀ c ∈ whole', (c != '.') = true := fun c hc =>
    bne_iff_ne.mpr (ne_point_of_isWordChar (isWordChar_of_isDigit (hwhole c hc)))
  have htake := congrArg (List.takeWhile (· != '.')) heq
  rw [Text.takeWhile_append_cons h rfl, Text.takeWhile_append_cons h' rfl] at htake
  subst htake
  cases List.append_cancel_left heq
  exact ⟨hwhole, hrest⟩

/-- What is looked for behind the sign, once the mark of a float is cut off. -/
theorem isFloat_iff_of_splits {body suffix : List Char} (h : Splits (unsigned text) body suffix) :
    isFloat text = true ↔ suffix ≠ [] ∧ IsDigits body ∨ IsPointed body := by
  simp only [isFloat, h.any_getLast?, h.body_eq]
  rcases Text.forall_or_exists_first (· != '.') body with
    hall | ⟨whole, c, fraction, rfl, hwhole, hc⟩
  · have hpointed : ¬ IsPointed body := by
      rintro ⟨whole, fraction, rfl, -⟩
      exact absurd (hall '.' (by simp)) (by decide)
    rw [List.takeWhile_eq_self_iff.mpr hall, List.dropWhile_eq_nil_iff.mpr hall]
    simp [hpointed, IsDigits, and_assoc]
  · obtain rfl : c = '.' := by simpa using hc
    have hpoint : '.' ∈ whole ++ '.' :: fraction := List.mem_append_right _ List.mem_cons_self
    have hdigits : ¬ IsDigits (whole ++ '.' :: fraction) := not_isDigits_of_mem hpoint rfl
    rw [Text.takeWhile_append_cons hwhole hc, List.dropWhile_append_of_pos hwhole,
      List.dropWhile_cons_of_neg (by decide), isPointed_append_iff hwhole]
    simp only [hdigits, and_false, false_or, Bool.and_eq_true, Bool.not_eq_true',
      Bool.and_eq_false_iff, List.isEmpty_eq_false_iff, List.all_eq_true]
    rw [and_assoc, and_comm, and_assoc]

/-- Neither a point nor the digits behind it end in the mark of a float. -/
theorem any_getLast?_fraction {fraction : List Char} (h : ∀ c ∈ fraction, c.isDigit = true)
    (whole : List Char) : (whole ++ '.' :: fraction).getLast?.any isSuffix = false := by
  rw [Bool.eq_false_iff]
  intro hany
  obtain ⟨c, hlast, hc⟩ := (Option.any_eq_true _ _).mp hany
  rw [List.getLast?_append_cons] at hlast
  rcases List.mem_cons.mp (List.mem_of_getLast? hlast) with rfl | hmem
  · exact absurd hc (by decide)
  · have hdigit := h c hmem
    rw [isDigit_of_isSuffix hc] at hdigit
    cases hdigit

theorem isFloat_iff : isFloat text = true ↔ Matches .float (unsigned text) := by
  rw [matches_float_iff]
  constructor
  · intro h
    obtain ⟨body, suffix, hsplits⟩ := exists_splits (unsigned text)
    obtain ⟨heq, hsuffix⟩ := hsplits.eq_append
    rw [heq]
    rcases (isFloat_iff_of_splits hsplits).mp h with ⟨hne, hdigits⟩ |
      ⟨whole, fraction, rfl, hwhole, hfraction, hdigits⟩
    · obtain ⟨c, rfl, hc⟩ := hsuffix.resolve_left hne
      exact .inl ⟨body, c, rfl, hdigits, hc⟩
    · exact .inr ⟨whole, fraction, suffix, by simp, hwhole, hfraction, hdigits, hsuffix⟩
  · rintro (⟨digits, c, heq, hdigits, hc⟩ |
      ⟨whole, fraction, suffix, heq, hwhole, hfraction, hdigits, hsuffix⟩)
    · have hsplits : Splits (unsigned text) digits [c] := heq ▸ .marked hc
      exact (isFloat_iff_of_splits hsplits).mpr (.inl ⟨by simp, hdigits⟩)
    · have hsplits : Splits (unsigned text) (whole ++ '.' :: fraction) suffix := by
        rw [heq]
        rcases hsuffix with rfl | ⟨c, rfl, hc⟩
        · rw [List.append_nil]
          exact .bare (any_getLast?_fraction hfraction whole)
        · have hmarked := @Splits.marked (whole ++ '.' :: fraction) c hc
          rwa [List.append_assoc, List.cons_append] at hmarked
      exact (isFloat_iff_of_splits hsplits).mpr
        (.inr ⟨whole, fraction, rfl, hwhole, hfraction, hdigits⟩)

end Literal

/-- Literals are the texts that are read as a number, or as a minus sign and a number. -/
theorem literal_iff_tokens (text : List Char) :
    (Literal.isInteger text = true ↔ IsWhole .integer text ∨ IsNegated .integer text) ∧
      (Literal.isFloat text = true ↔ IsWhole .float text ∨ IsNegated .float text) := by
  rw [Literal.isInteger_iff, Literal.isFloat_iff, Literal.isWhole_or_isNegated_iff (by simp),
    Literal.isWhole_or_isNegated_iff (by simp)]
  exact ⟨Iff.rfl, Iff.rfl⟩

end StackScript
