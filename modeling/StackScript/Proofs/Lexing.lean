import StackScript.Proofs.Lexemes

/-! # Tokens in their text

A token stands in the text at the offset that it carries. No space is part of it, so whatever
separates two tokens, a token itself is never torn apart by it. From one token to the next the lexer
takes the longest lexeme, until it comes to the end of the text or to a character that starts
none. -/

namespace StackScript

/-! ## Lexemes -/

namespace Lexeme

/-- The characters of names and numbers. -/
def isPlain (c : Char) : Bool := isWordChar c || c == '.'

/-- What a lexeme of a kind looks like. -/
inductive Form : Kind → List Char → Prop where
  | symbol {c : Char} {kind : Kind} : (c, kind) ∈ symbols → Form kind [c]
  | arrow : Form .arrow ['-', '>']
  | plain {kind : Kind} {chars : List Char} :
      kind ∈ [.integer, .float, .identifier, .func] → (∀ c ∈ chars, isPlain c = true) →
      Form kind chars

theorem isPlain_of_isWordChar {c : Char} (h : isWordChar c = true) : isPlain c = true := by
  rw [isPlain, h, Bool.true_or]

theorem Form.ne_endOfSource {kind : Kind} {chars : List Char} (h : Form kind chars) :
    kind ≠ .endOfSource := by
  cases h with
  | symbol h =>
      rintro rfl
      simp [symbols] at h
  | arrow => simp
  | plain h _ =>
      rintro rfl
      simp at h

theorem IsDecimal.isPlain {chars : List Char} (h : IsDecimal chars) :
    ∀ c ∈ chars, Lexeme.isPlain c = true := by
  obtain ⟨whole, fraction, suffix, rfl, hwhole, hfraction, -, hsuffix⟩ := h
  have hdigit : ∀ c : Char, c.isDigit = true → Lexeme.isPlain c = true :=
    fun c hc => isPlain_of_isWordChar (isWordChar_of_isDigit hc)
  have hmark : ∀ c ∈ suffix, Lexeme.isPlain c = true := by
    rcases hsuffix with rfl | ⟨c, rfl, hc⟩
    · simp
    · simpa using isPlain_of_isWordChar (isWordChar_of_isSuffix hc)
  simp only [List.forall_mem_append, List.forall_mem_cons]
  exact ⟨fun c hc => hdigit c (hwhole c hc), rfl, fun c hc => hdigit c (hfraction c hc), hmark⟩

theorem Matches.form {kind : Kind} {chars : List Char} (h : Matches kind chars) :
    Form kind chars := by
  rcases h.cases with ⟨c, hc, rfl⟩ | ⟨rfl, rfl⟩ | ⟨hkind, hword | hdecimal⟩
  · exact .symbol hc
  · exact .arrow
  · exact .plain hkind fun c hc => isPlain_of_isWordChar (hword.2 c hc)
  · exact .plain hkind hdecimal.isPlain

theorem Matches.ne_nil {kind : Kind} {chars : List Char} (h : Matches kind chars) :
    chars ≠ [] := by
  rintro rfl
  cases h.ofChars?_eq

/-- No blank is part of a lexeme. -/
theorem Matches.not_blank {kind : Kind} {chars : List Char} (h : Matches kind chars) :
    ∀ c ∈ chars, Text.isTokenBlank c = false := by
  cases h.form with
  | symbol hc =>
      have hsymbols : ∀ s ∈ symbols, Text.isTokenBlank s.1 = false := by decide
      simpa using hsymbols _ hc
  | arrow => simp [Text.isTokenBlank]
  | plain _ hplain =>
      intro c hc
      rw [Bool.eq_false_iff]
      intro hblank
      simp only [Text.isTokenBlank, Bool.or_eq_true, beq_iff_eq] at hblank
      rcases hblank with ((rfl | rfl) | rfl) | rfl <;> exact absurd (hplain _ hc) (by decide)

/-- A lexeme ends where blanks follow. -/
theorem Longest.of_blank {kind : Kind} {chars rest : List Char} (h : Matches kind chars)
    (hrest : ∀ c ∈ rest.head?, Text.isTokenBlank c = true) : Longest kind chars rest := by
  refine ⟨h, ?_⟩
  rintro kind' more ⟨behind, rfl⟩ hmatches
  cases more with
  | nil => rfl
  | cons c more =>
      have hblank := hrest c rfl
      rw [hmatches.not_blank c (by simp)] at hblank
      cases hblank

theorem Longest.of_prefix {kind : Kind} {chars rest rest' : List Char} (h : Longest kind chars rest)
    (hrest : rest' <+: rest) : Longest kind chars rest' :=
  ⟨h.isLexeme, fun hmore hmatches => h.longest (hmore.trans hrest) hmatches⟩

/-- The characters of a lexeme: no space is among them, and an operator is its symbol. -/
structure Spells (kind : Kind) (chars : List Char) : Prop where
  solid : ' ' ∉ chars
  operator : ∀ op, kind.operator? = some op → chars = op.symbol.toList

theorem Spells.of_no_operator {kind : Kind} {chars : List Char} (h : kind.operator? = none)
    (hsolid : ' ' ∉ chars) : Spells kind chars := by
  refine ⟨hsolid, ?_⟩
  intro op hop
  rw [h] at hop
  cases hop

theorem Form.spells {kind : Kind} {chars : List Char} (h : Form kind chars) :
    Spells kind chars := by
  cases h with
  | symbol h =>
      simp only [symbols, List.mem_cons, Prod.mk.injEq, List.not_mem_nil, or_false] at h
      rcases h with ⟨rfl, rfl⟩ | ⟨rfl, rfl⟩ | ⟨rfl, rfl⟩ | ⟨rfl, rfl⟩ | ⟨rfl, rfl⟩ | ⟨rfl, rfl⟩ |
        ⟨rfl, rfl⟩ | ⟨rfl, rfl⟩ | ⟨rfl, rfl⟩ | ⟨rfl, rfl⟩ | ⟨rfl, rfl⟩ | ⟨rfl, rfl⟩ | ⟨rfl, rfl⟩
      all_goals
        refine ⟨by simp, ?_⟩
        intro op hop
        cases hop
        try rfl
  | arrow => exact .of_no_operator rfl (by simp)
  | plain hkind hchars =>
      refine .of_no_operator ?_ fun hspace => ?_
      · revert kind
        decide
      · exact absurd (hchars ' ' hspace) (by decide)

end Lexeme

/-! ## The lexer -/

/-- The token is the text at its offset. -/
structure Token.StandsIn (text : List Char) (token : Token) : Prop where
  stands : Text.StandsAt text token.text.toList token.start
  spells : Lexeme.Spells token.kind token.text.toList

namespace Token.StandsIn

variable {text : List Char} {token : Token}

theorem wordAt (h : token.StandsIn text) : Text.WordAt text token.text.toList token.start :=
  ⟨h.stands, h.spells.solid⟩

theorem symbolAt (h : token.StandsIn text) {op : Operator} (hop : token.kind.operator? = some op) :
    Text.WordAt text op.symbol.toList token.start := by
  rw [← h.spells.operator op hop]
  exact h.wordAt

end Token.StandsIn

namespace Lexer

/-- The lexer passes over the blanks before a token and over the token. -/
structure Passes (lexer : Lexer) (token : Token) (lexer' : Lexer) : Prop where
  gap : ∀ c ∈ token.gap.toList, Text.isTokenBlank c = true
  start : token.start = lexer.pos + Text.byteLength token.gap.toList
  rest : lexer.rest = token.gap.toList ++ (token.text.toList ++ lexer'.rest)
  pos : lexer'.pos = token.stop

section

variable {gap : List Char}

theorem advance_append (pos : Nat) (xs ys : List Char) :
    advance ⟨pos, xs ++ ys⟩ xs.length = ⟨pos + Text.byteLength xs, ys⟩ := by
  rw [advance, List.take_left, List.drop_left]

theorem next_blank (hgap : ∀ c ∈ gap, Text.isTokenBlank c = true) (pos : Nat) :
    next ⟨pos, gap⟩ =
      (.ok ⟨.endOfSource, pos + Text.byteLength gap, "", String.ofList gap⟩,
        ⟨pos + Text.byteLength gap, []⟩) := by
  simp [next, advance, List.takeWhile_eq_self_iff.mpr hgap]

theorem next_longest (hgap : ∀ c ∈ gap, Text.isTokenBlank c = true) {kind : Kind}
    {chars rest : List Char} (h : Lexeme.Longest kind chars rest) (pos : Nat) :
    next ⟨pos, gap ++ (chars ++ rest)⟩ =
      (.ok ⟨kind, pos + Text.byteLength gap, String.ofList chars, String.ofList gap⟩,
        ⟨pos + Text.byteLength gap + Text.byteLength chars, rest⟩) := by
  obtain ⟨c, cs, rfl⟩ := List.exists_cons_of_ne_nil h.isLexeme.ne_nil
  have htake : (gap ++ (c :: cs ++ rest)).takeWhile Text.isTokenBlank = gap :=
    Text.takeWhile_append_cons hgap (h.isLexeme.not_blank c List.mem_cons_self)
  have hread := Lexeme.ofChars?_append_iff.mpr h
  have htext : (c :: cs ++ rest).take (c :: cs).length = c :: cs := List.take_left
  have hbehind := advance_append (pos + Text.byteLength gap) (c :: cs) rest
  rw [List.cons_append] at htake hread htext hbehind ⊢
  simp only [next, htake, advance_append, hread, htext, hbehind]

theorem next_unknown (hgap : ∀ c ∈ gap, Text.isTokenBlank c = true) {c : Char} {rest : List Char}
    (hc : Text.isTokenBlank c = false) (h : Lexeme.ofChars? (c :: rest) = none) (pos : Nat) :
    next ⟨pos, gap ++ c :: rest⟩ =
      (.error ⟨c, pos + Text.byteLength gap⟩,
        advance ⟨pos + Text.byteLength gap, c :: rest⟩ 1) := by
  have htake : (gap ++ c :: rest).takeWhile Text.isTokenBlank = gap :=
    Text.takeWhile_append_cons hgap hc
  simp only [next, htake, advance_append, h]

end

/-- What a text starts with: behind the blanks there is nothing, a lexeme, or a character that
starts none. -/
theorem start_cases (cs : List Char) :
    (∀ c ∈ cs, Text.isTokenBlank c = true) ∨
      (∃ gap chars rest kind, cs = gap ++ (chars ++ rest) ∧
        (∀ c ∈ gap, Text.isTokenBlank c = true) ∧ Lexeme.Longest kind chars rest) ∨
      ∃ gap c rest, cs = gap ++ c :: rest ∧ (∀ c ∈ gap, Text.isTokenBlank c = true) ∧
        Text.isTokenBlank c = false ∧ Lexeme.ofChars? (c :: rest) = none := by
  rcases Text.forall_or_exists_first Text.isTokenBlank cs with hall | ⟨gap, c, rest, rfl, hgap, hc⟩
  · exact .inl hall
  · cases hread : Lexeme.ofChars? (c :: rest) with
    | none => exact .inr (.inr ⟨gap, c, rest, rfl, hgap, hc, hread⟩)
    | some lexeme =>
        obtain ⟨chars, behind, heq, -, hlongest⟩ := Lexeme.exists_longest_of_ofChars? hread
        exact .inr (.inl ⟨gap, chars, behind, lexeme.1, by rw [heq], hgap, hlongest⟩)

/-- What is read is the end of the text or the longest lexeme. -/
theorem next_eq_ok {lexer lexer' : Lexer} {token : Token} (h : lexer.next = (.ok token, lexer')) :
    lexer.Passes token lexer' ∧
      (token.kind = .endOfSource ∧ token.text = "" ∧ lexer'.rest = [] ∨
        Lexeme.Longest token.kind token.text.toList lexer'.rest) := by
  obtain ⟨pos, cs⟩ := lexer
  rcases start_cases cs with hgap | ⟨gap, chars, rest, kind, rfl, hgap, hlongest⟩ |
    ⟨gap, c, rest, rfl, hgap, hc, hnone⟩
  · rw [next_blank hgap] at h
    cases h
    exact ⟨⟨by simpa using hgap, by simp, by simp, by simp [Token.stop]⟩, .inl ⟨rfl, rfl, rfl⟩⟩
  · rw [next_longest hgap hlongest] at h
    cases h
    exact ⟨⟨by simpa using hgap, by simp, by simp, by simp [Token.stop]⟩,
      .inr (by simpa using hlongest)⟩
  · rw [next_unknown hgap hc hnone] at h
    cases h

/-- What cannot be read is the first character behind the blanks. -/
theorem next_eq_error {lexer lexer' : Lexer} {e : LexError} (h : lexer.next = (.error e, lexer')) :
    ∃ gap rest, lexer.rest = gap ++ e.char :: rest ∧ (∀ c ∈ gap, Text.isTokenBlank c = true) ∧
      e.pos = lexer.pos + Text.byteLength gap ∧ Text.isTokenBlank e.char = false ∧
      Lexeme.ofChars? (e.char :: rest) = none := by
  obtain ⟨pos, cs⟩ := lexer
  rcases start_cases cs with hgap | ⟨gap, chars, rest, kind, rfl, hgap, hlongest⟩ |
    ⟨gap, c, rest, rfl, hgap, hc, hnone⟩
  · rw [next_blank hgap] at h
    cases h
  · rw [next_longest hgap hlongest] at h
    cases h
  · rw [next_unknown hgap hc hnone] at h
    cases h
    exact ⟨gap, rest, rfl, hgap, rfl, hc, hnone⟩

/-- What the lexer has still to read is the end of the text. -/
def ReadsFrom (text : List Char) (lexer : Lexer) : Prop :=
  ∃ before, text = before ++ lexer.rest ∧ Text.byteLength before = lexer.pos

theorem readsFrom_ofText (text : List Char) : ReadsFrom text (ofText text) := ⟨[], rfl, rfl⟩

variable {text : List Char} {lexer : Lexer}

/-- A token that is read stands in the text. -/
theorem ReadsFrom.next_ok (h : ReadsFrom text lexer) {lexer' : Lexer} {token : Token}
    (hnext : lexer.next = (.ok token, lexer')) : token.StandsIn text ∧ ReadsFrom text lexer' := by
  obtain ⟨before, rfl, hpos⟩ := h
  obtain ⟨⟨-, hstart, hrest, hpos'⟩, hkind⟩ := next_eq_ok hnext
  have hbefore : Text.byteLength (before ++ token.gap.toList) = token.start := by
    rw [Text.byteLength_append, hpos, hstart]
  refine ⟨⟨⟨before ++ token.gap.toList, lexer'.rest, by simp [hrest], hbefore⟩, ?_⟩,
    before ++ token.gap.toList ++ token.text.toList, by simp [hrest], ?_⟩
  · rcases hkind with ⟨hend, htext, -⟩ | hlongest
    · exact .of_no_operator (by rw [hend]; rfl) (by simp [htext])
    · exact hlongest.isLexeme.form.spells
  · rw [Text.byteLength_append, hbefore, hpos', Token.stop]

/-- A character that cannot be read stands in the text, and it is no space. -/
theorem ReadsFrom.next_error (h : ReadsFrom text lexer) {lexer' : Lexer} {e : LexError}
    (hnext : lexer.next = (.error e, lexer')) : Text.WordAt text [e.char] e.pos := by
  obtain ⟨before, rfl, hpos⟩ := h
  obtain ⟨gap, rest, hrest, -, hstart, hblank, -⟩ := next_eq_error hnext
  refine ⟨⟨before ++ gap, rest, by simp [hrest], ?_⟩, ?_⟩
  · rw [Text.byteLength_append, hpos, hstart]
  · rw [List.mem_singleton]
    intro hspace
    rw [← hspace] at hblank
    cases hblank

/-- The tokens that are read stand in the text, and so does a character that is not. -/
theorem ReadsFrom.tokens (h : ReadsFrom text lexer) :
    match lexer.tokens with
    | .ok tokens => ∀ token ∈ tokens, token.StandsIn text
    | .error e => Text.WordAt text [e.char] e.pos := by
  fun_induction Lexer.tokens lexer with
  | case1 lexer e lexer' hnext => exact h.next_error hnext
  | case2 lexer token lexer' hnext hkind => simp
  | case3 lexer token lexer' hnext hkind _ ih =>
      obtain ⟨htoken, hrest⟩ := h.next_ok hnext
      have htokens := ih hrest
      cases hresult : lexer'.tokens with
      | error e =>
          rw [hresult] at htokens
          exact htokens
      | ok tokens =>
          rw [hresult] at htokens
          exact List.forall_mem_cons.mpr ⟨htoken, htokens⟩

/-! ## All tokens of a text -/

theorem tokens_of_next_end {lexer' : Lexer} {token : Token} (h : lexer.next = (.ok token, lexer'))
    (hkind : token.kind = .endOfSource) : lexer.tokens = .ok [] := by
  rw [Lexer.tokens]
  split
  · rename_i hnext
    cases h.symm.trans hnext
  · rename_i hnext
    cases h.symm.trans hnext
    rw [dif_pos hkind]

theorem tokens_of_next {lexer' : Lexer} {token : Token} (h : lexer.next = (.ok token, lexer'))
    (hkind : token.kind ≠ .endOfSource) : lexer.tokens = lexer'.tokens.map (token :: ·) := by
  rw [Lexer.tokens]
  split
  · rename_i hnext
    cases h.symm.trans hnext
  · rename_i hnext
    cases h.symm.trans hnext
    rw [dif_neg hkind]

end Lexer

/-- A text that starts at an offset consists of the tokens and of blanks before and behind them.
Each token is the longest lexeme at its place. -/
inductive Lexes : Nat → List Char → List Token → Prop where
  | nil {pos : Nat} {gap : List Char} :
      (∀ c ∈ gap, Text.isTokenBlank c = true) → Lexes pos gap []
  | cons {pos : Nat} {rest : List Char} {token : Token} {tokens : List Token} :
      (∀ c ∈ token.gap.toList, Text.isTokenBlank c = true) →
      token.start = pos + Text.byteLength token.gap.toList →
      Lexeme.Longest token.kind token.text.toList rest → Lexes token.stop rest tokens →
      Lexes pos (token.gap.toList ++ (token.text.toList ++ rest)) (token :: tokens)

theorem Lexes.tokens_eq {pos : Nat} {cs : List Char} {tokens : List Token}
    (h : Lexes pos cs tokens) : Lexer.tokens ⟨pos, cs⟩ = .ok tokens := by
  induction h with
  | nil hgap => exact Lexer.tokens_of_next_end (Lexer.next_blank hgap _) rfl
  | @cons pos rest token tokens hgap hstart hlongest _ ih =>
      have hnext := Lexer.next_longest hgap hlongest pos
      rw [String.ofList_toList, String.ofList_toList, ← hstart] at hnext
      rw [Lexer.tokens_of_next hnext hlongest.isLexeme.form.ne_endOfSource]
      exact congrArg (Except.map (token :: ·)) ih

namespace Lexer

theorem tokens_eq_ok_iff {lexer : Lexer} {tokens : List Token} :
    lexer.tokens = .ok tokens ↔ Lexes lexer.pos lexer.rest tokens := by
  refine ⟨fun h => ?_, Lexes.tokens_eq⟩
  fun_induction Lexer.tokens lexer generalizing tokens with
  | case1 => cases h
  | case2 lexer token lexer' hnext hkind =>
      cases h
      obtain ⟨⟨hgap, -, hrest, -⟩, ⟨-, htext, hnil⟩ | hlongest⟩ := next_eq_ok hnext
      · rw [hrest, htext, hnil]
        simpa using Lexes.nil hgap
      · exact absurd hkind hlongest.isLexeme.form.ne_endOfSource
  | case3 lexer token lexer' hnext hkind _ ih =>
      obtain ⟨⟨hgap, hstart, hrest, hpos⟩, ⟨hend, -⟩ | hlongest⟩ := next_eq_ok hnext
      · exact absurd hend hkind
      · cases htokens : lexer'.tokens with
        | error e =>
            rw [htokens] at h
            cases h
        | ok tokens' =>
            rw [htokens] at h
            cases h
            rw [hrest]
            exact .cons hgap hstart hlongest (hpos ▸ ih htokens)

/-- What stands before a character that starts no lexeme is read. -/
theorem exists_of_tokens_error {lexer : Lexer} {e : LexError} (h : lexer.tokens = .error e) :
    ∃ before rest tokens, lexer.rest = before ++ e.char :: rest ∧
      e.pos = lexer.pos + Text.byteLength before ∧ Lexes lexer.pos before tokens ∧
      Text.isTokenBlank e.char = false ∧ Lexeme.ofChars? (e.char :: rest) = none := by
  fun_induction Lexer.tokens lexer with
  | case1 lexer e lexer' hnext =>
      cases h
      obtain ⟨gap, rest, hrest, hgap, hpos, hchar⟩ := next_eq_error hnext
      exact ⟨gap, rest, [], hrest, hpos, .nil hgap, hchar⟩
  | case2 => cases h
  | case3 lexer token lexer' hnext hkind _ ih =>
      obtain ⟨⟨hgap, hstart, hrest, hpos⟩, ⟨hend, -⟩ | hlongest⟩ := next_eq_ok hnext
      · exact absurd hend hkind
      · have herror : lexer'.tokens = .error e := by
          cases htokens : lexer'.tokens with
          | error e' =>
              rw [htokens] at h
              cases h
              rfl
          | ok tokens =>
              rw [htokens] at h
              cases h
        obtain ⟨before, rest, tokens, hbefore, hepos, hlexes, hchar⟩ := ih herror
        rw [hbefore] at hlongest
        rw [hpos] at hlexes
        refine ⟨token.gap.toList ++ (token.text.toList ++ before), rest, token :: tokens, ?_, ?_,
          .cons hgap hstart (hlongest.of_prefix (List.prefix_append _ _)) hlexes, hchar⟩
        · simp [hrest, hbefore]
        · rw [hepos, hpos, Token.stop, hstart, Text.byteLength_append, Text.byteLength_append]
          omega

end Lexer

theorem standsIn_of_tokenize {text : List Char} {tokens : List Token}
    (h : tokenize text = .ok tokens) : ∀ token ∈ tokens, token.StandsIn text := by
  have htokens := (Lexer.readsFrom_ofText text).tokens
  rw [tokenize] at h
  rwa [h] at htokens

theorem wordAt_of_tokenize_error {text : List Char} {e : LexError}
    (h : tokenize text = .error e) : Text.WordAt text [e.char] e.pos := by
  have hchar := (Lexer.readsFrom_ofText text).tokens
  rw [tokenize] at h
  rwa [h] at hchar

end StackScript
