import Mathlib.Data.List.TakeWhile
import StackScript.Proofs.Utf8
import StackScript.Token.Lexer

/-! # Lexemes

What the texts of each kind of token look like, said without the lexer. Of all the lexemes that a
text starts with, the lexer takes the longest. -/

namespace StackScript.Lexeme

/-! ## Texts of each kind -/

/-- The lexemes of a single character. -/
def symbols : List (Char × Kind) :=
  [('+', .plus), ('-', .minus), ('*', .star), ('/', .slash), ('%', .percent), ('=', .equals),
    (',', .comma), (':', .colon), (';', .semicolon), ('(', .leftParen), (')', .rightParen),
    ('\x7b', .leftBrace), ('\x7d', .rightBrace)]

/-- One digit or more. -/
def IsDigits (cs : List Char) : Prop := cs ≠ [] ∧ ∀ c ∈ cs, c.isDigit = true

/-- Digits and the mark of a float. -/
def IsSuffixed (cs : List Char) : Prop :=
  ∃ digits c, cs = digits ++ [c] ∧ IsDigits digits ∧ isSuffix c = true

/-- A decimal point with digits before it, behind it or on both sides, and perhaps the mark of a
float. -/
def IsDecimal (cs : List Char) : Prop :=
  ∃ whole fraction suffix, cs = whole ++ '.' :: (fraction ++ suffix) ∧
    (∀ c ∈ whole, c.isDigit = true) ∧ (∀ c ∈ fraction, c.isDigit = true) ∧
    (whole ≠ [] ∨ fraction ≠ []) ∧ (suffix = [] ∨ ∃ c, suffix = [c] ∧ isSuffix c = true)

/-- Letters, digits and underscores. -/
def IsWord (cs : List Char) : Prop := cs ≠ [] ∧ ∀ c ∈ cs, isWordChar c = true

/-- The texts of each kind of token. -/
inductive Matches : Kind → List Char → Prop where
  | symbol {c : Char} {kind : Kind} : (c, kind) ∈ symbols → Matches kind [c]
  | arrow : Matches .arrow ['-', '>']
  | integer {cs : List Char} : IsDigits cs → Matches .integer cs
  | suffixed {cs : List Char} : IsSuffixed cs → Matches .float cs
  | decimal {cs : List Char} : IsDecimal cs → Matches .float cs
  | func : Matches .func ['f', 'u', 'n', 'c']
  | identifier {cs : List Char} :
      IsWord cs → cs ≠ ['f', 'u', 'n', 'c'] → ¬ IsDigits cs → ¬ IsSuffixed cs →
      Matches .identifier cs

/-! ## Characters -/

theorem isWordChar_of_isDigit {c : Char} (h : c.isDigit = true) : isWordChar c = true := by
  simp [isWordChar, Char.isAlphanum, h]

theorem isSuffix_cases {c : Char} (h : isSuffix c = true) : c = 'f' ∨ c = 'F' := by
  simpa [isSuffix] using h

theorem isWordChar_of_isSuffix {c : Char} (h : isSuffix c = true) : isWordChar c = true := by
  rcases isSuffix_cases h with rfl | rfl <;> decide

theorem isDigit_of_isSuffix {c : Char} (h : isSuffix c = true) : c.isDigit = false := by
  rcases isSuffix_cases h with rfl | rfl <;> decide

theorem isWordChar_of_isWordStart {c : Char} (h : isWordStart c = true) : isWordChar c = true := by
  rw [isWordStart, Bool.or_eq_true] at h
  rcases h with halpha | hunderscore <;> simp [isWordChar, Char.isAlphanum, *]

theorem ne_point_of_isWordChar {c : Char} (h : isWordChar c = true) : c ≠ '.' := by
  rintro rfl
  exact absurd h (by decide)

theorem IsDigits.isWord {cs : List Char} (h : IsDigits cs) : IsWord cs :=
  ⟨h.1, fun c hc => isWordChar_of_isDigit (h.2 c hc)⟩

theorem IsSuffixed.isWord {cs : List Char} (h : IsSuffixed cs) : IsWord cs := by
  obtain ⟨digits, c, rfl, hdigits, hc⟩ := h
  refine ⟨by simp, List.forall_mem_append.mpr ⟨hdigits.isWord.2, ?_⟩⟩
  simpa using isWordChar_of_isSuffix hc

theorem isWord_func : IsWord ['f', 'u', 'n', 'c'] :=
  ⟨by simp, List.all_eq_true.mp (rfl : ['f', 'u', 'n', 'c'].all isWordChar = true)⟩

theorem not_isDigits_of_mem {cs : List Char} {c : Char} (hmem : c ∈ cs) (hc : c.isDigit = false) :
    ¬ IsDigits cs := by
  intro h
  rw [h.2 c hmem] at hc
  cases hc

/-- All characters but the last are digits. -/
theorem not_isSuffixed_of_append {xs ys : List Char} {c : Char} (hc : c.isDigit = false)
    (hys : ys ≠ []) : ¬ IsSuffixed (xs ++ c :: ys) := by
  rintro ⟨digits, d, heq, hdigits, -⟩
  rw [← List.dropLast_concat_getLast hys, ← List.cons_append, ← List.append_assoc,
    List.append_singleton_inj] at heq
  exact not_isDigits_of_mem (heq.1 ▸ List.mem_append_right xs List.mem_cons_self) hc hdigits

/-- The first character is a digit. -/
theorem not_isSuffixed_cons {c : Char} (hc : c.isDigit = false) (cs : List Char) :
    ¬ IsSuffixed (c :: cs) := by
  rintro ⟨digits, d, heq, hdigits, -⟩
  obtain ⟨e, ds, rfl⟩ := List.exists_cons_of_ne_nil hdigits.1
  rw [List.cons_append, List.cons.injEq] at heq
  exact not_isDigits_of_mem (heq.1 ▸ List.mem_cons_self) hc hdigits

/-- A lexeme is a symbol, the arrow, a word, or a number with a decimal point. -/
theorem Matches.cases {kind : Kind} {cs : List Char} (h : Matches kind cs) :
    (∃ c, (c, kind) ∈ symbols ∧ cs = [c]) ∨ (kind = .arrow ∧ cs = ['-', '>']) ∨
      (kind ∈ [.integer, .float, .identifier, .func] ∧ (IsWord cs ∨ IsDecimal cs)) := by
  cases h with
  | @symbol c kind hc => exact .inl ⟨c, hc, rfl⟩
  | arrow => exact .inr (.inl ⟨rfl, rfl⟩)
  | integer hdigits => exact .inr (.inr ⟨by simp, .inl hdigits.isWord⟩)
  | suffixed hsuffixed => exact .inr (.inr ⟨by simp, .inl hsuffixed.isWord⟩)
  | decimal hdecimal => exact .inr (.inr ⟨by simp, .inr hdecimal⟩)
  | func => exact .inr (.inr ⟨by simp, .inl isWord_func⟩)
  | identifier hword _ _ _ => exact .inr (.inr ⟨by simp, .inl hword⟩)

/-- Every word is a lexeme. -/
theorem IsWord.exists_matches {cs : List Char} (h : IsWord cs) : ∃ kind, Matches kind cs := by
  by_cases hfunc : cs = ['f', 'u', 'n', 'c']
  · exact ⟨.func, hfunc ▸ .func⟩
  · by_cases hdigits : IsDigits cs
    · exact ⟨.integer, .integer hdigits⟩
    · by_cases hsuffixed : IsSuffixed cs
      · exact ⟨.float, .suffixed hsuffixed⟩
      · exact ⟨.identifier, .identifier h hfunc hdigits hsuffixed⟩

/-! ## Numbers and words -/

/-- What starts with a word character is read as a number or as a word. -/
theorem ofChars?_wordChar {c : Char} (h : isWordChar c = true) (cs : List Char) :
    ofChars? (c :: cs) = some (if c.isDigit then number (c :: cs) else word (c :: cs)) := by
  unfold ofChars?
  split
  case h_1 heq => cases heq
  case h_17 =>
    rename_i heq
    cases heq
    by_cases hdigit : c.isDigit = true
    · rw [if_pos hdigit, if_pos hdigit]
    · have hstart : isWordStart c = true := by
        simpa [isWordStart, isWordChar, Char.isAlphanum, hdigit] using h
      rw [if_neg hdigit, if_pos hstart, if_neg hdigit]
  -- No symbol and no point is a word character.
  all_goals
    rename_i heq
    cases heq
    exact absurd h (by decide)

theorem ofChars?_point {c : Char} (h : c.isDigit = true) (cs : List Char) :
    ofChars? ('.' :: c :: cs) = some (.float, 1 + fractionLength (c :: cs)) := by
  rw [ofChars?, List.head?_cons, Option.any_some, if_pos h]

section

variable {digits rest : List Char}

theorem fractionLength_append_cons {c : Char} (h : ∀ c ∈ digits, c.isDigit = true)
    (hc : c.isDigit = false) :
    fractionLength (digits ++ c :: rest) =
      if isSuffix c then digits.length + 1 else digits.length := by
  simp [fractionLength, Text.takeWhile_append_cons h hc]

theorem number_of_digits (h : ∀ c ∈ digits, c.isDigit = true) :
    number digits = (.integer, digits.length) := by
  have hword : ∀ c ∈ digits, isWordChar c = true := fun c hc => isWordChar_of_isDigit (h c hc)
  simp [number, numberKind, List.takeWhile_eq_self_iff.mpr h, List.takeWhile_eq_self_iff.mpr hword]

theorem number_point (h : ∀ c ∈ digits, c.isDigit = true) :
    number (digits ++ '.' :: rest) = (.float, digits.length + 1 + fractionLength rest) := by
  simp [number, Text.takeWhile_append_cons h (rfl : Char.isDigit '.' = false)]

theorem number_append_cons {c : Char} (h : ∀ c ∈ digits, c.isDigit = true)
    (hc : c.isDigit = false) (hpoint : c ≠ '.') :
    number (digits ++ c :: rest) =
      (numberKind digits (digits ++ (c :: rest).takeWhile isWordChar),
        (digits ++ (c :: rest).takeWhile isWordChar).length) := by
  have hword : ∀ c ∈ digits, isWordChar c = true := fun c hc => isWordChar_of_isDigit (h c hc)
  have hnumber : (digits ++ c :: rest).takeWhile Char.isDigit = digits :=
    Text.takeWhile_append_cons h hc
  simp only [number, hnumber, List.drop_left, List.head?_cons, Option.some.injEq, hpoint, if_false,
    List.takeWhile_append_of_pos hword]

/-- A number goes on behind its digits with a fraction or with a word. -/
theorem number_append (h : ∀ c ∈ digits, c.isDigit = true)
    (hrest : rest.head?.any Char.isDigit = false) :
    number (digits ++ rest) =
      if rest.head? = some '.' then
        (.float, digits.length + 1 + fractionLength (rest.drop 1))
      else
        (numberKind digits (digits ++ rest.takeWhile isWordChar),
          (digits ++ rest.takeWhile isWordChar).length) := by
  cases rest with
  | nil =>
      rw [List.append_nil, number_of_digits h]
      simp [numberKind]
  | cons c rest =>
      by_cases hpoint : c = '.'
      · subst hpoint
        rw [number_point h, List.head?_cons, if_pos rfl, List.drop_one, List.tail_cons]
      · rw [number_append_cons h (by simpa using hrest) hpoint, if_neg (by simpa using hpoint)]

theorem numberKind_append (digits tail : List Char) :
    numberKind digits (digits ++ tail) = numberKind [] tail := by
  rw [numberKind, List.drop_left]
  rfl

end

/-! ## What is read is a lexeme -/

/-- The text starts with a lexeme of the given kind and length. -/
def StartsWith (cs : List Char) (lexeme : Kind × Nat) : Prop :=
  ∃ chars rest, cs = chars ++ rest ∧ lexeme.2 = chars.length ∧ Matches lexeme.1 chars

theorem exists_fraction (cs : List Char) :
    ∃ suffix rest, cs = cs.takeWhile Char.isDigit ++ (suffix ++ rest) ∧
      fractionLength cs = (cs.takeWhile Char.isDigit).length + suffix.length ∧
      (suffix = [] ∨ ∃ c, suffix = [c] ∧ isSuffix c = true) := by
  have hcs := Text.takeWhile_append_drop Char.isDigit cs
  cases hdrop : cs.drop (cs.takeWhile Char.isDigit).length with
  | nil =>
      rw [hdrop] at hcs
      exact ⟨[], [], hcs.symm, by simp [fractionLength, hdrop], .inl rfl⟩
  | cons c rest =>
      rw [hdrop] at hcs
      by_cases hc : isSuffix c = true
      · exact ⟨[c], rest, hcs.symm, by simp [fractionLength, hdrop, hc], .inr ⟨c, rfl, hc⟩⟩
      · exact ⟨[], c :: rest, hcs.symm, by simp [fractionLength, hdrop, hc], .inl rfl⟩

theorem startsWith_fraction {whole rest : List Char} (hwhole : ∀ c ∈ whole, c.isDigit = true)
    (h : whole ≠ [] ∨ rest.takeWhile Char.isDigit ≠ []) :
    StartsWith (whole ++ '.' :: rest) (.float, whole.length + 1 + fractionLength rest) := by
  obtain ⟨suffix, behind, hrest, hlength, hsuffix⟩ := exists_fraction rest
  refine ⟨whole ++ '.' :: (rest.takeWhile Char.isDigit ++ suffix), behind, ?_, ?_, ?_⟩
  · simp [← hrest]
  · simp only [hlength, List.length_append, List.length_cons]
    omega
  · have hfraction := List.all_eq_true.mp (@List.all_takeWhile _ Char.isDigit rest)
    exact .decimal ⟨whole, _, suffix, rfl, hwhole, hfraction, h, hsuffix⟩

/-- Digits and the other word characters behind them are an integer, a float or a name. -/
theorem matches_numberKind {digits tail : List Char} (hdigits : IsDigits digits)
    (hword : ∀ c ∈ tail, isWordChar c = true) (htail : ∀ c ∈ tail.head?, c.isDigit = false) :
    Matches (numberKind digits (digits ++ tail)) (digits ++ tail) := by
  have hfunc : digits ++ tail ≠ ['f', 'u', 'n', 'c'] := by
    obtain ⟨d, ds, rfl⟩ := List.exists_cons_of_ne_nil hdigits.1
    intro heq
    rw [List.cons_append, List.cons.injEq] at heq
    exact not_isDigits_of_mem (heq.1 ▸ List.mem_cons_self) (rfl : Char.isDigit 'f' = false) hdigits
  have hisWord : IsWord (digits ++ tail) :=
    ⟨List.append_ne_nil_of_left_ne_nil hdigits.1 tail,
      List.forall_mem_append.mpr ⟨hdigits.isWord.2, hword⟩⟩
  rw [numberKind, List.drop_left]
  match tail with
  | [] =>
      rw [List.append_nil]
      exact .integer hdigits
  | [c] =>
      have hc : c.isDigit = false := htail c rfl
      by_cases hsuffix : isSuffix c = true
      · simp only [hsuffix, if_true]
        exact .suffixed ⟨digits, c, rfl, hdigits, hsuffix⟩
      · simp only [hsuffix]
        refine .identifier hisWord hfunc (not_isDigits_of_mem (by simp) hc) ?_
        rintro ⟨digits', c', heq, -, hc'⟩
        rw [List.append_singleton_inj] at heq
        exact hsuffix (heq.2 ▸ hc')
  | c :: d :: more =>
      have hc : c.isDigit = false := htail c rfl
      exact .identifier hisWord hfunc (not_isDigits_of_mem (by simp) hc)
        (not_isSuffixed_of_append hc (List.cons_ne_nil d more))

theorem startsWith_number {c : Char} (hc : c.isDigit = true) (cs : List Char) :
    StartsWith (c :: cs) (number (c :: cs)) := by
  rcases Text.forall_or_exists_first Char.isDigit (c :: cs) with
    hall | ⟨run, d, rest, hcs, hrun, hd⟩
  · rw [number_of_digits hall]
    exact ⟨c :: cs, [], by simp, rfl, .integer ⟨List.cons_ne_nil c cs, hall⟩⟩
  · have hne : run ≠ [] := by
      rintro rfl
      cases hcs
      simp [hc] at hd
    rw [hcs]
    by_cases hpoint : d = '.'
    · subst hpoint
      rw [number_point hrun]
      exact startsWith_fraction hrun (.inl hne)
    · rw [number_append_cons hrun hd hpoint]
      have hsplit := Text.takeWhile_append_drop isWordChar (d :: rest)
      refine ⟨_, (d :: rest).drop ((d :: rest).takeWhile isWordChar).length, ?_, rfl,
        matches_numberKind ⟨hne, hrun⟩ (List.all_eq_true.mp List.all_takeWhile) ?_⟩
      · rw [List.append_assoc, hsplit]
      · intro e he
        rw [List.takeWhile_cons] at he
        split at he
        · cases he
          exact hd
        · cases he

theorem startsWith_word {c : Char} (hc : isWordChar c = true) (hdigit : c.isDigit = false)
    (cs : List Char) : StartsWith (c :: cs) (word (c :: cs)) := by
  have hsplit := Text.takeWhile_append_drop isWordChar (c :: cs)
  have htake : (c :: cs).takeWhile isWordChar = c :: cs.takeWhile isWordChar :=
    List.takeWhile_cons_of_pos hc
  refine ⟨(c :: cs).takeWhile isWordChar, _, hsplit.symm, rfl, ?_⟩
  simp only [word]
  split
  · rename_i hfunc
    rw [hfunc]
    exact .func
  · rename_i hfunc
    refine .identifier ⟨by simp [htake], List.all_eq_true.mp List.all_takeWhile⟩ hfunc ?_ ?_
    · exact not_isDigits_of_mem (htake ▸ List.mem_cons_self) hdigit
    · exact htake ▸ not_isSuffixed_cons hdigit _

theorem startsWith_of_ofChars? {cs : List Char} {lexeme : Kind × Nat}
    (h : ofChars? cs = some lexeme) : StartsWith cs lexeme := by
  unfold ofChars? at h
  split at h
  case h_1 => cases h
  case h_3 cs =>
    cases h
    exact ⟨['-', '>'], cs, rfl, rfl, .arrow⟩
  case h_16 cs =>
    split at h
    · rename_i hdigit
      cases h
      obtain ⟨c, rest, rfl, hc⟩ := Text.exists_cons_of_any_head? hdigit
      have hfraction : (c :: rest).takeWhile Char.isDigit ≠ [] := by
        simp [List.takeWhile_cons_of_pos hc]
      simpa using @startsWith_fraction [] (c :: rest) (by simp) (.inr hfraction)
    · cases h
  case h_17 c cs _ _ _ _ _ _ _ _ _ _ _ _ _ _ _ =>
    split at h
    · rename_i hdigit
      cases h
      exact startsWith_number hdigit cs
    · rename_i hdigit
      split at h
      · rename_i hstart
        cases h
        exact startsWith_word (isWordChar_of_isWordStart hstart) (by simpa using hdigit) cs
      · cases h
  -- What is left are the symbols, each with its own kind.
  all_goals
    cases h
    refine ⟨[_], _, rfl, rfl, .symbol ?_⟩
    simp [symbols]

/-! ## Every lexeme is read -/

theorem ofChars?_of_isDigits {cs : List Char} (h : IsDigits cs) :
    ofChars? cs = some (.integer, cs.length) := by
  obtain ⟨c, rest, rfl⟩ := List.exists_cons_of_ne_nil h.1
  have hc := h.2 c List.mem_cons_self
  rw [ofChars?_wordChar (isWordChar_of_isDigit hc), if_pos hc, number_of_digits h.2]

theorem ofChars?_of_isSuffixed {cs : List Char} (h : IsSuffixed cs) :
    ofChars? cs = some (.float, cs.length) := by
  obtain ⟨digits, c, rfl, hdigits, hc⟩ := h
  obtain ⟨d, ds, rfl⟩ := List.exists_cons_of_ne_nil hdigits.1
  have hd := hdigits.2 d List.mem_cons_self
  have hword := isWordChar_of_isSuffix hc
  have hnumber := @number_append_cons _ [] _ hdigits.2 (isDigit_of_isSuffix hc)
    (ne_point_of_isWordChar hword)
  rw [List.cons_append] at hnumber ⊢
  rw [ofChars?_wordChar (isWordChar_of_isDigit hd), if_pos hd, hnumber,
    List.takeWhile_cons_of_pos hword, List.takeWhile_nil, numberKind, List.drop_left]
  simp [hc]

/-- The digits behind a point are read to their end at least, and so is the mark of a float. -/
theorem length_le_fractionLength {fraction suffix : List Char}
    (hfraction : ∀ c ∈ fraction, c.isDigit = true)
    (hsuffix : suffix = [] ∨ ∃ c, suffix = [c] ∧ isSuffix c = true) (rest : List Char) :
    (fraction ++ suffix).length ≤ fractionLength (fraction ++ suffix ++ rest) := by
  rcases hsuffix with rfl | ⟨c, rfl, hc⟩
  · simp only [fractionLength, List.append_nil, List.takeWhile_append_of_pos hfraction,
      List.length_append]
    split <;> omega
  · rw [List.append_assoc, List.singleton_append,
      fractionLength_append_cons hfraction (isDigit_of_isSuffix hc), if_pos hc]
    simp

theorem exists_ofChars?_of_isDecimal {cs : List Char} (h : IsDecimal cs) (rest : List Char) :
    ∃ length, ofChars? (cs ++ rest) = some (.float, length) ∧ cs.length ≤ length := by
  obtain ⟨whole, fraction, suffix, rfl, hwhole, hfraction, hdigits, hsuffix⟩ := h
  have hlength := length_le_fractionLength hfraction hsuffix rest
  cases whole with
  | nil =>
      obtain ⟨c, more, rfl⟩ := List.exists_cons_of_ne_nil (hdigits.resolve_left (by simp))
      refine ⟨_, ofChars?_point (hfraction c List.mem_cons_self) (more ++ suffix ++ rest), ?_⟩
      simp only [List.nil_append, List.cons_append, List.length_cons] at hlength ⊢
      omega
  | cons c more =>
      have hc := hwhole c List.mem_cons_self
      have hnumber := @number_point _ (fraction ++ suffix ++ rest) hwhole
      refine ⟨(c :: more).length + 1 + fractionLength (fraction ++ suffix ++ rest), ?_, ?_⟩
      · rw [List.append_assoc, List.cons_append, List.cons_append,
          ofChars?_wordChar (isWordChar_of_isDigit hc), if_pos hc]
        exact congrArg some hnumber
      · simp only [List.length_append, List.length_cons] at hlength ⊢
        omega

/-- A word is read to its end at least. -/
theorem length_le_number {cs : List Char} (h : ∀ c ∈ cs, isWordChar c = true) (rest : List Char) :
    cs.length ≤ (number (cs ++ rest)).2 := by
  have hword : cs.length ≤ ((cs ++ rest).takeWhile isWordChar).length := by
    rw [List.takeWhile_append_of_pos h, List.length_append]
    omega
  rcases Text.forall_or_exists_first Char.isDigit cs with hall | ⟨run, d, tail, rfl, hrun, hd⟩
  · simp only [number, List.takeWhile_append_of_pos hall]
    split
    · simp only [List.length_append]
      omega
    · exact hword
  · have hpoint := ne_point_of_isWordChar (h d (by simp))
    have hrunWord : ∀ c ∈ run, isWordChar c = true := fun c hc => h c (List.mem_append_left _ hc)
    rw [List.append_assoc, List.takeWhile_append_of_pos hrunWord] at hword
    rw [List.append_assoc, List.cons_append, number_append_cons hrun hd hpoint]
    exact hword

theorem exists_ofChars?_of_isWord {cs : List Char} (h : IsWord cs) (rest : List Char) :
    ∃ lexeme, ofChars? (cs ++ rest) = some lexeme ∧ cs.length ≤ lexeme.2 := by
  obtain ⟨c, tail, rfl⟩ := List.exists_cons_of_ne_nil h.1
  refine ⟨_, ofChars?_wordChar (h.2 c List.mem_cons_self) (tail ++ rest), ?_⟩
  split
  · exact length_le_number h.2 rest
  · simp only [word, ← List.cons_append, List.takeWhile_append_of_pos h.2, List.length_append]
    omega

theorem exists_ofChars?_of_symbol {c : Char} {kind : Kind} (h : (c, kind) ∈ symbols)
    (rest : List Char) : ∃ lexeme, ofChars? (c :: rest) = some lexeme := by
  simp only [symbols, List.mem_cons, Prod.mk.injEq, List.not_mem_nil, or_false] at h
  rcases h with ⟨rfl, -⟩ | ⟨rfl, -⟩ | ⟨rfl, -⟩ | ⟨rfl, -⟩ | ⟨rfl, -⟩ | ⟨rfl, -⟩ | ⟨rfl, -⟩ |
    ⟨rfl, -⟩ | ⟨rfl, -⟩ | ⟨rfl, -⟩ | ⟨rfl, -⟩ | ⟨rfl, -⟩ | ⟨rfl, -⟩
  case inr.inl =>
    by_cases harrow : ∃ tail, rest = '>' :: tail
    · obtain ⟨tail, rfl⟩ := harrow
      exact ⟨_, rfl⟩
    · refine ⟨(.minus, 1), ?_⟩
      rw [ofChars?]
      exact fun tail heq => harrow ⟨tail, heq⟩
  all_goals exact ⟨_, rfl⟩

theorem Matches.exists_ofChars?_append {kind : Kind} {cs : List Char} (h : Matches kind cs)
    (rest : List Char) :
    ∃ lexeme, ofChars? (cs ++ rest) = some lexeme ∧ cs.length ≤ lexeme.2 := by
  rcases h.cases with ⟨c, hc, rfl⟩ | ⟨-, rfl⟩ | ⟨-, hword | hdecimal⟩
  · obtain ⟨lexeme, hlexeme⟩ := exists_ofChars?_of_symbol hc rest
    exact ⟨lexeme, hlexeme, length_pos hlexeme⟩
  · exact ⟨_, rfl, Nat.le_refl _⟩
  · exact exists_ofChars?_of_isWord hword rest
  · obtain ⟨length, hlength⟩ := exists_ofChars?_of_isDecimal hdecimal rest
    exact ⟨_, hlength⟩

/-- Whether a lexeme starts with a character is seen by the character alone, unless it is a
point. -/
theorem Matches.exists_ofChars?_cons {kind : Kind} {c : Char} {cs : List Char}
    (h : Matches kind (c :: cs)) (hpoint : c ≠ '.') (rest : List Char) :
    ∃ lexeme, ofChars? (c :: rest) = some lexeme := by
  have hword : isWordChar c = true → ∃ lexeme, ofChars? (c :: rest) = some lexeme :=
    fun hc => ⟨_, ofChars?_wordChar hc rest⟩
  rcases h.cases with ⟨d, hd, heq⟩ | ⟨-, heq⟩ | ⟨-, hcs | ⟨whole, fraction, suffix, heq, hwhole, -⟩⟩
  · cases heq
    exact exists_ofChars?_of_symbol hd rest
  · cases heq
    exact exists_ofChars?_of_symbol (List.mem_cons_of_mem _ List.mem_cons_self) rest
  · exact hword (hcs.2 c List.mem_cons_self)
  · cases whole with
    | nil => exact absurd (List.cons.inj heq).1 hpoint
    | cons d whole =>
        obtain rfl := (List.cons.inj heq).1
        exact hword (isWordChar_of_isDigit (hwhole c List.mem_cons_self))

/-- What is read to its end is a lexeme of the kind that is read. -/
theorem matches_of_length_le {cs : List Char} {lexeme : Kind × Nat}
    (h : ofChars? cs = some lexeme) (hle : cs.length ≤ lexeme.2) :
    Matches lexeme.1 cs ∧ lexeme.2 = cs.length := by
  obtain ⟨chars, rest, rfl, hlength, hmatches⟩ := startsWith_of_ofChars? h
  rw [hlength, List.length_append] at hle
  obtain rfl : rest = [] := List.eq_nil_of_length_eq_zero (by omega)
  rw [List.append_nil]
  exact ⟨hmatches, hlength⟩

theorem Matches.identifier_of_isWord {kind : Kind} {cs : List Char} (h : Matches kind cs)
    (hword : IsWord cs) (hfunc : cs ≠ ['f', 'u', 'n', 'c']) (hdigits : ¬ IsDigits cs)
    (hsuffixed : ¬ IsSuffixed cs) : kind = .identifier := by
  cases h with
  | @symbol c _ hc =>
      have hnot : ∀ s ∈ symbols, isWordChar s.1 = false := by decide
      exact absurd (hword.2 c List.mem_cons_self) (by simp [hnot _ hc])
  | arrow => exact absurd (hword.2 '-' List.mem_cons_self) (by decide)
  | integer h => exact absurd h hdigits
  | suffixed h => exact absurd h hsuffixed
  | decimal h =>
      obtain ⟨whole, fraction, suffix, rfl, -⟩ := h
      exact absurd (hword.2 '.' (List.mem_append_right _ List.mem_cons_self)) (by decide)
  | func => exact absurd rfl hfunc
  | identifier => rfl

/-- A lexeme by itself is read as a token of its kind. -/
theorem Matches.ofChars?_eq {kind : Kind} {cs : List Char} (h : Matches kind cs) :
    ofChars? cs = some (kind, cs.length) := by
  cases h with
  | symbol hc =>
      have hread : ∀ s ∈ symbols, ofChars? [s.1] = some (s.2, 1) := by decide
      exact hread _ hc
  | arrow => rfl
  | integer hdigits => exact ofChars?_of_isDigits hdigits
  | suffixed hsuffixed => exact ofChars?_of_isSuffixed hsuffixed
  | decimal hdecimal =>
      obtain ⟨length, hread, hle⟩ := exists_ofChars?_of_isDecimal hdecimal []
      rw [List.append_nil] at hread
      rw [hread, ← (matches_of_length_le hread hle).2]
  | func => rfl
  | identifier hword hfunc hdigits hsuffixed =>
      obtain ⟨⟨kind, length⟩, hread, hle⟩ := exists_ofChars?_of_isWord hword []
      rw [List.append_nil] at hread
      obtain ⟨hmatches, hlength⟩ := matches_of_length_le hread hle
      obtain rfl : kind = .identifier :=
        hmatches.identifier_of_isWord hword hfunc hdigits hsuffixed
      rw [hread, ← hlength]

/-! ## The longest lexeme -/

/-- No lexeme that the text starts with is longer. -/
structure Longest (kind : Kind) (chars rest : List Char) : Prop where
  isLexeme : Matches kind chars
  longest : ∀ {kind' : Kind} {more : List Char}, more <+: rest → Matches kind' (chars ++ more) →
    more = []

/-- The lexer takes the longest lexeme. -/
theorem ofChars?_append_iff {kind : Kind} {chars rest : List Char} :
    ofChars? (chars ++ rest) = some (kind, chars.length) ↔ Longest kind chars rest := by
  constructor
  · intro h
    constructor
    · obtain ⟨chars', rest', heq, hlength, hmatches⟩ := startsWith_of_ofChars? h
      obtain ⟨rfl, -⟩ := List.append_inj heq hlength
      exact hmatches
    · rintro kind' more ⟨behind, rfl⟩ hmatches
      obtain ⟨lexeme, hread, hle⟩ := hmatches.exists_ofChars?_append behind
      rw [List.append_assoc, h] at hread
      cases hread
      rw [List.length_append] at hle
      exact List.eq_nil_of_length_eq_zero (by simp only at hle; omega)
  · rintro ⟨hmatches, hlongest⟩
    obtain ⟨⟨kind', length⟩, hread, hle⟩ := hmatches.exists_ofChars?_append rest
    obtain ⟨chars', rest', heq, hlength, hmatches'⟩ := startsWith_of_ofChars? hread
    simp only at hle hlength hmatches'
    -- What is read goes on behind the lexeme, and as this is the longest one, it does not.
    obtain ⟨more, rfl, rfl⟩ : ∃ more, chars' = chars ++ more ∧ rest = more ++ rest' := by
      rcases List.append_eq_append_iff.mp heq with hmore | ⟨less, rfl, rfl⟩
      · exact hmore
      · rw [hlength, List.length_append] at hle
        obtain rfl : less = [] := List.eq_nil_of_length_eq_zero (by omega)
        exact ⟨[], by simp, rfl⟩
    obtain rfl := hlongest (List.prefix_append _ _) hmatches'
    rw [List.append_nil] at hmatches' hlength
    have hkind := hmatches'.ofChars?_eq
    rw [hmatches.ofChars?_eq] at hkind
    cases hkind
    rw [hread, hlength]

theorem exists_longest_of_ofChars? {cs : List Char} {lexeme : Kind × Nat}
    (h : ofChars? cs = some lexeme) :
    ∃ chars rest, cs = chars ++ rest ∧ lexeme.2 = chars.length ∧ Longest lexeme.1 chars rest := by
  obtain ⟨chars, rest, rfl, hlength, -⟩ := startsWith_of_ofChars? h
  refine ⟨chars, rest, rfl, hlength, ofChars?_append_iff.mp ?_⟩
  rw [h, ← hlength]

end StackScript.Lexeme
