import StackScript.Proofs.Lexing
import StackScript.Proofs.Spans

/-! # Tokens and the blanks around them

Reading tokens loses nothing but blanks, and where it stops, all that stands before can be read.
Which blanks separate the tokens has no say in what they are, as long as there are some. -/

namespace StackScript

variable {pos : Nat} {cs source : List Char} {tokens : List Token}

/-! ## Where tokens lie -/

namespace Token

/-- Space, tab, carriage return and line feed. -/
def blankBytes : Bytes := [0x20, 0x09, 0x0d, 0x0a]

def part (token : Token) : Text.Part := ⟨token.start, token.text.toList⟩

theorem mem_blankBytes {c : Char} (h : Text.isTokenBlank c = true) :
    ∀ byte ∈ String.utf8EncodeChar c, byte ∈ blankBytes := by
  simp only [Text.isTokenBlank, Bool.or_eq_true, beq_iff_eq] at h
  rcases h with ((rfl | rfl) | rfl) | rfl <;> simp [blankBytes, String.utf8EncodeChar]

end Token

theorem Lexes.laidOut (h : Lexes pos cs tokens) :
    Text.LaidOut Token.blankBytes pos cs (tokens.map Token.part) := by
  induction h with
  | @nil pos gap hgap =>
      rw [← List.append_nil gap]
      exact .gap (fun c hc => Token.mem_blankBytes (hgap c hc)) .nil
  | @cons pos rest token tokens hgap hstart hlongest _ ih =>
      refine .gap (fun c hc => Token.mem_blankBytes (hgap c hc)) ?_
      rw [← hstart]
      exact @Text.LaidOut.part _ token.part rest _ hlongest.isLexeme.ne_nil ih

/-- Every token is the longest lexeme at its place. -/
theorem Lexes.exists_longest (h : Lexes pos cs tokens) (before : List Char)
    (hsource : source = before ++ cs) (hpos : Text.byteLength before = pos) :
    ∀ token ∈ tokens, ∃ before rest, source = before ++ (token.text.toList ++ rest) ∧
      Text.byteLength before = token.start ∧
      Lexeme.Longest token.kind token.text.toList rest := by
  induction h generalizing before with
  | nil => simp
  | @cons pos rest token tokens _ hstart hlongest _ ih =>
      have hbefore : Text.byteLength (before ++ token.gap.toList) = token.start := by
        rw [Text.byteLength_append, hpos, hstart]
      have hsplit : source = before ++ token.gap.toList ++ (token.text.toList ++ rest) := by
        simp [hsource]
      refine List.forall_mem_cons.mpr ⟨⟨_, rest, hsplit, hbefore, hlongest⟩, ?_⟩
      refine ih (before ++ token.gap.toList ++ token.text.toList) ?_ ?_
      · rw [hsplit, List.append_assoc _ token.text.toList]
      · rw [Text.byteLength_append, hbefore, Token.stop]

theorem Lexes.cons_of_longest {kind : Kind} {gap chars rest : List Char}
    (hgap : ∀ c ∈ gap, Text.isTokenBlank c = true) (h : Lexeme.Longest kind chars rest)
    (hrest : Lexes (pos + Text.byteLength gap + Text.byteLength chars) rest tokens) :
    Lexes pos (gap ++ (chars ++ rest))
      (⟨kind, pos + Text.byteLength gap, String.ofList chars, String.ofList gap⟩ :: tokens) := by
  have hlexes := @Lexes.cons pos rest
    ⟨kind, pos + Text.byteLength gap, String.ofList chars, String.ofList gap⟩ tokens
    (by simpa using hgap) (by simp) (by simpa using h) (by simpa [Token.stop] using hrest)
  simpa using hlexes

/-- A lexeme with blanks before it is a token. -/
theorem Lexes.of_matches {kind : Kind} {gap chars : List Char}
    (hgap : ∀ c ∈ gap, Text.isTokenBlank c = true) (h : Lexeme.Matches kind chars) (pos : Nat) :
    Lexes pos (gap ++ chars)
      [⟨kind, pos + Text.byteLength gap, String.ofList chars, String.ofList gap⟩] := by
  have hlexes := @Lexes.cons_of_longest pos [] kind gap chars [] hgap (.of_blank h (by simp))
    (.nil (by simp))
  rwa [List.append_nil] at hlexes

/-! ## What follows a token -/

/-- A character that would go on a token of the kind: a digit, a letter, an underscore or a point
behind an integer, any of them but the point behind a word, and the rest of an arrow. -/
def Kind.goesOnWith : Kind → Char → Bool
  | .integer, c => Lexeme.isWordChar c || c == '.'
  | .identifier, c => Lexeme.isWordChar c
  | .func, c => Lexeme.isWordChar c
  | .minus, c => c == '>'
  | _, _ => false

namespace Lexeme

theorem IsWord.exists_matches_concat {chars : List Char} {c : Char} (h : IsWord chars)
    (hc : isWordChar c = true) : ∃ kind, Matches kind (chars ++ [c]) := by
  refine IsWord.exists_matches ⟨by simp, List.forall_mem_append.mpr ⟨h.2, ?_⟩⟩
  simpa using hc

theorem IsDigits.isDecimal_point {digits : List Char} (h : IsDigits digits) :
    IsDecimal (digits ++ ['.']) :=
  ⟨digits, [], [], rfl, h.2, by simp, .inl h.1, .inl rfl⟩

/-- With such a character behind it, a lexeme is the start of a longer one. -/
theorem Matches.exists_matches_concat {kind : Kind} {chars : List Char} {c : Char}
    (h : Matches kind chars) (hc : kind.goesOnWith c = true) :
    ∃ kind', Matches kind' (chars ++ [c]) := by
  cases h with
  | @symbol d _ hd =>
      cases kind with
      | minus =>
          obtain rfl : d = '-' := by simpa [symbols] using hd
          obtain rfl : c = '>' := eq_of_beq hc
          exact ⟨.arrow, .arrow⟩
      | integer | identifier | func => simp [symbols] at hd
      | _ => cases hc
  | arrow | suffixed | decimal => cases hc
  | integer hdigits =>
      rcases Bool.or_eq_true_iff.mp hc with hword | hpoint
      · exact hdigits.isWord.exists_matches_concat hword
      · rw [eq_of_beq hpoint]
        exact ⟨.float, .decimal hdigits.isDecimal_point⟩
  | func => exact isWord_func.exists_matches_concat hc
  | identifier hword => exact hword.exists_matches_concat hc

theorem Longest.not_goesOnWith {kind : Kind} {chars rest : List Char}
    (h : Longest kind chars rest) : ∀ c ∈ rest.head?, kind.goesOnWith c = false := by
  intro c hc
  obtain ⟨behind, rfl⟩ := List.head?_eq_some_iff.mp hc
  rw [Bool.eq_false_iff]
  intro hgoes
  obtain ⟨kind', hmatches⟩ := h.isLexeme.exists_matches_concat hgoes
  have hnil := h.longest ⟨behind, rfl⟩ hmatches
  cases hnil

/-- No lexeme that starts at the same place goes beyond the longest one. -/
theorem Longest.isPrefix {kind kind' : Kind} {before chars chars' rest : List Char}
    (h : Longest kind chars rest) (hmatches : Matches kind' chars')
    (hstands : Text.StandsAt (before ++ (chars ++ rest)) chars' (Text.byteLength before)) :
    chars' <+: chars := by
  obtain ⟨before', behind, htext, hlength⟩ := hstands
  have hdrop := Text.dropBytes?_append before (chars ++ rest)
  rw [htext, ← hlength, Text.dropBytes?_append, Option.some.injEq] at hdrop
  rcases List.append_eq_append_iff.mp hdrop with ⟨less, hless, -⟩ | ⟨more, rfl, rfl⟩
  · exact ⟨less, hless.symm⟩
  · obtain rfl := h.longest (List.prefix_append _ _) hmatches
    exact ⟨[], by simp⟩

end Lexeme

/-! ## Texts that are read and texts that are not -/

/-- Between the tokens of a source there are only blanks. Each token is a lexeme, the longest one that
starts at its place, and so the next character does not go on with it. -/
structure IsTokenization (source : List Char) (tokens : List Token) : Prop where
  partition : Text.IsPartition Token.blankBytes source (tokens.map Token.part)
  isLexeme : ∀ token ∈ tokens, Lexeme.Matches token.kind token.text.toList
  longest : ∀ token ∈ tokens, ∀ kind chars, Lexeme.Matches kind chars →
    Text.StandsAt source chars token.start → chars <+: token.text.toList
  ends : ∀ token ∈ tokens, ∀ c ∈ Text.charAt? source token.stop, token.kind.goesOnWith c = false

/-- A point without a digit behind it, or a character that is no blank and starts no token. What
stands before it can be read. -/
structure IsUnknown (source : List Char) (e : LexError) : Prop where
  char : Text.charAt? source e.pos = some e.char
  unknown : (e.char = '.' ∧ ∀ c ∈ Text.charAt? source (e.pos + 1), c.isDigit = false) ∨
    (Text.isTokenBlank e.char = false ∧ ∀ kind chars, ¬ Lexeme.Matches kind (e.char :: chars))
  before : ∃ before tokens, Text.takeBytes? e.pos source = some before ∧
    tokenize before = .ok tokens

theorem Lexes.isTokenization (h : Lexes 0 source tokens) : IsTokenization source tokens where
  partition := h.laidOut.isPartition
  isLexeme token htoken := by
    obtain ⟨_, _, -, -, hlongest⟩ := h.exists_longest [] rfl rfl token htoken
    exact hlongest.isLexeme
  longest token htoken kind chars hmatches hstands := by
    obtain ⟨before, rest, rfl, hstart, hlongest⟩ := h.exists_longest [] rfl rfl token htoken
    exact hlongest.isPrefix hmatches (hstart ▸ hstands)
  ends token htoken := by
    obtain ⟨before, rest, rfl, hstart, hlongest⟩ := h.exists_longest [] rfl rfl token htoken
    rw [Token.stop, ← hstart, ← Text.byteLength_append, ← List.append_assoc, Text.charAt?_append]
    exact hlongest.not_goesOnWith

theorem Lexeme.unknown_of_ofChars? {c : Char} {rest : List Char}
    (h : ofChars? (c :: rest) = none) :
    (c = '.' ∧ ∀ d ∈ rest.head?, d.isDigit = false) ∨
      (c ≠ '.' ∧ ∀ kind chars, ¬ Matches kind (c :: chars)) := by
  by_cases hc : c = '.'
  · subst hc
    refine .inl ⟨rfl, fun d hd => ?_⟩
    obtain ⟨behind, rfl⟩ := List.head?_eq_some_iff.mp hd
    rw [Bool.eq_false_iff]
    intro hdigit
    rw [ofChars?_point hdigit] at h
    cases h
  · refine .inr ⟨hc, fun kind chars hmatches => ?_⟩
    obtain ⟨lexeme, hread⟩ := hmatches.exists_ofChars?_cons hc rest
    rw [h] at hread
    cases hread

theorem isUnknown_of_tokenize {e : LexError} (h : tokenize source = .error e) :
    IsUnknown source e := by
  obtain ⟨before, rest, tokens, hsource, hpos, hlexes, hblank, hnone⟩ :=
    Lexer.exists_of_tokens_error h
  obtain rfl : source = before ++ e.char :: rest := hsource
  obtain ⟨char, pos⟩ := e
  obtain rfl : pos = Text.byteLength before := hpos.trans (Nat.zero_add _)
  refine ⟨Text.charAt?_append _ _, ?_, before, tokens, Text.takeBytes?_append _ _,
    Lexer.tokens_eq_ok_iff.mpr hlexes⟩
  rcases Lexeme.unknown_of_ofChars? hnone with ⟨rfl, hdigit⟩ | ⟨-, hmatches⟩
  · have hnext := Text.charAt?_append (before ++ ['.']) rest
    rw [Text.byteLength_append, List.append_assoc] at hnext
    exact .inl ⟨rfl, fun c hc => hdigit c (hnext ▸ hc)⟩
  · exact .inr ⟨hblank, hmatches⟩

/-- A text is read into its tokens, or up to a character that starts none. -/
theorem tokenize_reads_or_stops (source : List Char) :
    match tokenize source with
    | .ok tokens => IsTokenization source tokens
    | .error e => IsUnknown source e := by
  cases h : tokenize source with
  | ok tokens => exact (Lexer.tokens_eq_ok_iff.mp h).isTokenization
  | error e => exact isUnknown_of_tokenize h

/-! ## Other blanks -/

/-- What a token says, wherever it stands. -/
def Token.content (token : Token) : Kind × String := (token.kind, token.text)

/-- The texts of some tokens, with a separator between any two neighbours. -/
def Token.joined (separator : Nat → List Char) : List Token → List Char
  | [] => []
  | [token] => token.text.toList
  | token :: tokens =>
      token.text.toList ++ (separator 0 ++ joined (fun i => separator (i + 1)) tokens)

theorem exists_lexes_joined {separator : Nat → List Char} {gap : List Char}
    (hgap : ∀ c ∈ gap, Text.isTokenBlank c = true)
    (hlexemes : ∀ token ∈ tokens, Lexeme.Matches token.kind token.text.toList)
    (hseparator : ∀ i, i + 1 < tokens.length →
      separator i ≠ [] ∧ ∀ c ∈ separator i, Text.isTokenBlank c = true) (pos : Nat) :
    ∃ tokens', Lexes pos (gap ++ Token.joined separator tokens) tokens' ∧
      tokens'.map Token.content = tokens.map Token.content := by
  induction tokens generalizing separator gap pos with
  | nil => exact ⟨[], .nil (by simpa [Token.joined] using hgap), rfl⟩
  | cons token tokens ih =>
      obtain ⟨htoken, htokens⟩ := List.forall_mem_cons.mp hlexemes
      cases tokens with
      | nil =>
          exact ⟨_, .of_matches hgap htoken pos, by simp [Token.content]⟩
      | cons next more =>
          -- The blanks behind the token are those before the next one.
          obtain ⟨hne, hblank⟩ := hseparator 0 (by simp)
          obtain ⟨tokens', hlexes, hcontents⟩ := ih hblank htokens
            (fun i hi => hseparator (i + 1) (Nat.succ_lt_succ hi))
            (pos + Text.byteLength gap + Text.byteLength token.text.toList)
          obtain ⟨c, cs, hcs⟩ := List.exists_cons_of_ne_nil hne
          have hc : Text.isTokenBlank c = true := hblank c (hcs ▸ List.mem_cons_self)
          have hlongest : Lexeme.Longest token.kind token.text.toList
              (separator 0 ++ Token.joined (fun i => separator (i + 1)) (next :: more)) :=
            .of_blank htoken (by simpa [hcs] using hc)
          exact ⟨_, .cons_of_longest hgap hlongest hlexes, by simp [Token.content, hcontents]⟩

/-- Tokens are read again, in the same order, from their texts with any blanks between them. -/
theorem tokenize_joined {separator : Nat → List Char} (h : tokenize source = .ok tokens)
    (hseparator : ∀ i, i + 1 < tokens.length →
      separator i ≠ [] ∧ ∀ c ∈ separator i, Text.isTokenBlank c = true) :
    ∃ tokens', tokenize (Token.joined separator tokens) = .ok tokens' ∧
      tokens'.map Token.content = tokens.map Token.content := by
  have hlexemes := (Lexer.tokens_eq_ok_iff.mp h).isTokenization.isLexeme
  obtain ⟨tokens', hlexes, hcontent⟩ :=
    @exists_lexes_joined tokens separator [] (by simp) hlexemes hseparator 0
  exact ⟨tokens', Lexer.tokens_eq_ok_iff.mpr hlexes, hcontent⟩

/-- Points, an arrow and a word that starts with a digit, all without blanks between them. -/
theorem tokenize_joined_neighbours :
    ∃ tokens, tokenize "1..5->3fx-1.5abc".toList = .ok tokens ∧
      Token.joined (fun i => if i % 2 = 0 then [' '] else ['\t', '\n']) tokens =
        "1. .5\t\n-> 3fx\t\n- 1.5\t\nabc".toList ∧
      ∃ tokens', tokenize "1. .5\t\n-> 3fx\t\n- 1.5\t\nabc".toList = .ok tokens' ∧
        tokens'.map Token.content = tokens.map Token.content := by
  have htokens : tokenize "1..5->3fx-1.5abc".toList =
      .ok ((tokenize "1..5->3fx-1.5abc".toList).toOption.getD []) := by
    decide +kernel
  have hjoined : Token.joined (fun i => if i % 2 = 0 then [' '] else ['\t', '\n'])
      ((tokenize "1..5->3fx-1.5abc".toList).toOption.getD []) =
        "1. .5\t\n-> 3fx\t\n- 1.5\t\nabc".toList := by
    decide +kernel
  obtain ⟨tokens', htokens', hcontent⟩ := @tokenize_joined _ _
    (fun i => if i % 2 = 0 then [' '] else ['\t', '\n']) htokens fun i _ => by
      split <;> simp [Text.isTokenBlank]
  exact ⟨_, htokens, hjoined, tokens', hjoined ▸ htokens', hcontent⟩

end StackScript
