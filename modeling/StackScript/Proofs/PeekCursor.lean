import StackScript.Proofs.Lexing
import StackScript.Proofs.Spans

/-! # Reading tokens through a cursor that looks ahead

A text is read one character at a time, and a second cursor looks at the characters to come. Each
look goes one character further, so the second cursor has to be put back before the next character
can be looked at again. Were this forgotten on one of the ways through the lexer, a character would
be passed over for a few neighbours only. On every way it is put back in time, and the tokens are
those of the lexer that sees the whole text at once. -/

namespace StackScript

/-! ## The cursor -/

/-- The characters of a text with the offsets where they start. -/
def Text.charIndices : Nat → List Char → List (Nat × Char)
  | _, [] => []
  | pos, c :: cs => (pos, c) :: charIndices (pos + c.utf8Size) cs

structure PeekText where
  original : List Char
  /-- The characters to come. -/
  rest : List (Nat × Char)
  /-- How many of them were looked at. -/
  ahead : Nat
  /-- The character that was read last. -/
  current : Nat × Char
  deriving DecidableEq, Repr

namespace PeekText

def ofText (text : List Char) : PeekText := ⟨text, Text.charIndices 0 text, 0, (0, '\x00')⟩

/-- Read a character. This puts the second cursor back. -/
def nextChar (source : PeekText) : Option (Nat × Char) × PeekText :=
  match source.rest with
  | [] => (none, { source with ahead := 0 })
  | entry :: rest => (some entry, { source with rest, ahead := 0, current := entry })

/-- Look one character further ahead. -/
def peekChar (source : PeekText) : Option (Nat × Char) × PeekText :=
  match source.rest[source.ahead]? with
  | none => (none, source)
  | some entry => (some entry, { source with ahead := source.ahead + 1 })

def resetPeek (source : PeekText) : PeekText := { source with ahead := 0 }

/-- Look one character further ahead for one of a class. -/
def peekIs (p : Char → Bool) (source : PeekText) : Bool × PeekText :=
  let (found?, peeked) := source.peekChar
  (found?.any fun entry => p entry.2, peeked)

theorem rest_peekIs (p : Char → Bool) (source : PeekText) :
    (source.peekIs p).2.rest = source.rest := by
  cases hentry : source.rest[source.ahead]? <;> simp [peekIs, peekChar, hentry]

theorem rest_nextChar (source : PeekText) : source.nextChar.2.rest = source.rest.tail := by
  rw [nextChar]
  split <;> simp_all

theorem rest_ne_nil_of_peekIs {p : Char → Bool} {source peeked : PeekText}
    (h : source.peekIs p = (true, peeked)) : source.rest ≠ [] := by
  intro hnil
  simp [peekIs, peekChar, hnil] at h

theorem length_rest_nextChar_lt {p : Char → Bool} {source peeked : PeekText}
    (h : source.peekIs p = (true, peeked)) :
    peeked.nextChar.2.rest.length < source.rest.length := by
  have hrest := source.rest_peekIs p
  have hpos := List.length_pos_iff.mpr (rest_ne_nil_of_peekIs h)
  rw [h] at hrest
  rw [rest_nextChar, hrest, List.length_tail]
  omega

theorem length_rest_lt_of_nextChar {source source' : PeekText} {entry : Nat × Char}
    (h : source.nextChar = (some entry, source')) :
    source'.rest.length < source.rest.length := by
  have hrest := source.rest_nextChar
  cases hentries : source.rest with
  | nil => simp [nextChar, hentries] at h
  | cons other rest =>
      rw [h, hentries, List.tail_cons] at hrest
      rw [hrest, List.length_cons]
      omega

/-- Read on as long as there are characters of a class. -/
def consume (p : Char → Bool) (source : PeekText) : PeekText :=
  match h : source.peekIs p with
  | (true, peeked) =>
      have := length_rest_nextChar_lt h
      consume p peeked.nextChar.2
  | (false, peeked) => peeked.resetPeek
termination_by source.rest.length

/-- Read the mark of a float, if there is one. -/
def consumeSuffix (source : PeekText) : Bool × PeekText :=
  match source.peekIs Lexeme.isSuffix with
  | (true, peeked) => (true, peeked.nextChar.2)
  | (false, peeked) => (false, peeked.resetPeek)

theorem length_rest_consume_le (p : Char → Bool) (source : PeekText) :
    (source.consume p).rest.length ≤ source.rest.length := by
  fun_induction consume p source with
  | case1 source peeked h hlt ih => omega
  | case2 source peeked h =>
      have hrest := source.rest_peekIs p
      rw [h] at hrest
      rw [resetPeek, hrest]

theorem consume_of_peekIs_true {p : Char → Bool} {source peeked : PeekText}
    (h : source.peekIs p = (true, peeked)) : source.consume p = peeked.nextChar.2.consume p := by
  rw [consume]
  split
  · rename_i hpeek
    cases h.symm.trans hpeek
    rfl
  · rename_i hpeek
    cases h.symm.trans hpeek

theorem consume_of_peekIs_false {p : Char → Bool} {source peeked : PeekText}
    (h : source.peekIs p = (false, peeked)) : source.consume p = peeked.resetPeek := by
  rw [consume]
  split
  · rename_i hpeek
    cases h.symm.trans hpeek
  · rename_i hpeek
    cases h.symm.trans hpeek
    rfl

/-! ## Where the cursor stands -/

/-- The characters to come are the end of the text. -/
structure Unread (source : PeekText) (before rest : List Char) : Prop where
  original : source.original = before ++ rest
  rest : source.rest = Text.charIndices (Text.byteLength before) rest

/-- The cursor stands behind the character that it read last, and nothing was looked at since. -/
structure IsAt (source : PeekText) (before rest : List Char) : Prop
    extends source.Unread before rest where
  ahead : source.ahead = 0
  current : source.current.1 + source.current.2.utf8Size = Text.byteLength before

variable {source : PeekText} {before rest : List Char}

theorem Unread.nextChar_nil (h : source.Unread before []) :
    source.nextChar = (none, source.resetPeek) := by
  have hrest : source.rest = [] := h.rest
  simp [nextChar, resetPeek, hrest]

/-- Reading a character does not depend on how far ahead was looked. -/
theorem Unread.nextChar_cons {c : Char} (h : source.Unread before (c :: rest)) :
    ∃ source', source.nextChar = (some (Text.byteLength before, c), source') ∧
      source'.current.1 = Text.byteLength before ∧ source'.IsAt (before ++ [c]) rest := by
  have hrest : source.rest = (Text.byteLength before, c) ::
    Text.charIndices (Text.byteLength before + c.utf8Size) rest := h.rest
  refine ⟨_, by rw [nextChar, hrest], rfl, ⟨?_, ?_⟩, rfl, ?_⟩
  · rw [List.append_assoc]
    exact h.original
  · simp
  · simp

/-- A look ahead sees the next character, and can be undone. -/
theorem IsAt.peekIs (h : source.IsAt before rest) (p : Char → Bool) :
    ∃ peeked, source.peekIs p = (rest.head?.any p, peeked) ∧
      peeked.nextChar = source.nextChar ∧ peeked.resetPeek = source := by
  obtain ⟨original, entries, ahead, current⟩ := source
  obtain ⟨⟨-, hrest⟩, hahead, -⟩ := h
  cases hahead
  cases hrest
  cases rest with
  | nil => exact ⟨_, rfl, rfl, rfl⟩
  | cons c rest => exact ⟨_, rfl, rfl, rfl⟩

theorem IsAt.resetPeek_eq (h : source.IsAt before rest) : source.resetPeek = source := by
  rw [resetPeek, ← h.ahead]

/-- Reading on stops at the first character that is not of the class. -/
theorem IsAt.consume {p : Char → Bool} {run : List Char} (h : source.IsAt before (run ++ rest))
    (hrun : ∀ c ∈ run, p c = true) (hrest : rest.head?.any p = false) :
    (source.consume p).IsAt (before ++ run) rest := by
  induction run generalizing source before with
  | nil =>
      obtain ⟨peeked, hpeek, -, hreset⟩ := h.peekIs p
      rw [List.nil_append, hrest] at hpeek
      rw [consume_of_peekIs_false hpeek, hreset, List.append_nil]
      exact h
  | cons c run ih =>
      obtain ⟨hc, hrun⟩ := List.forall_mem_cons.mp hrun
      obtain ⟨peeked, hpeek, hnext, -⟩ := h.peekIs p
      rw [List.cons_append, List.head?_cons, Option.any_some, hc] at hpeek
      obtain ⟨source', hread, -, hat⟩ := h.toUnread.nextChar_cons
      rw [consume_of_peekIs_true hpeek, hnext, hread, List.append_cons]
      exact ih hat hrun

theorem IsAt.consumeSuffix_of_head {c : Char} (h : source.IsAt before (c :: rest))
    (hc : Lexeme.isSuffix c = true) :
    ∃ source', source.consumeSuffix = (true, source') ∧ source'.IsAt (before ++ [c]) rest := by
  obtain ⟨peeked, hpeek, hnext, -⟩ := h.peekIs Lexeme.isSuffix
  obtain ⟨source', hread, -, hat⟩ := h.toUnread.nextChar_cons
  rw [List.head?_cons, Option.any_some, hc] at hpeek
  refine ⟨source', ?_, hat⟩
  rw [consumeSuffix, hpeek]
  simp only [hnext, hread]

theorem IsAt.consumeSuffix_eq (h : source.IsAt before rest)
    (hrest : rest.head?.any Lexeme.isSuffix = false) : source.consumeSuffix = (false, source) := by
  obtain ⟨peeked, hpeek, -, hreset⟩ := h.peekIs Lexeme.isSuffix
  rw [hrest] at hpeek
  rw [consumeSuffix, hpeek]
  simp only [hreset]

end PeekText

/-! ## The lexer -/

/-- Kind and offsets of a token. -/
structure Token.Extent where
  kind : Kind
  start : Nat
  stop : Nat
  deriving DecidableEq, Repr

def Token.extent (token : Token) : Token.Extent := ⟨token.kind, token.start, token.stop⟩

structure PeekLexer where
  source : PeekText
  /-- Where the token starts that is being read. -/
  tokenStart : Nat
  deriving DecidableEq, Repr

namespace PeekLexer

/-- What the lexer answers. There is no answer where the text cannot be cut at the offsets of a
token. -/
abbrev Answer := Option (Except LexError Token.Extent × PeekLexer)

def ofText (text : List Char) : PeekLexer := ⟨PeekText.ofText text, 0⟩

/-- The offset behind the character that was read last. -/
def stop (lexer : PeekLexer) : Nat :=
  lexer.source.current.1 + lexer.source.current.2.utf8Size

def makeToken (lexer : PeekLexer) (kind : Kind) : Answer :=
  some (.ok ⟨kind, lexer.tokenStart, lexer.stop⟩, lexer)

def unknown (lexer : PeekLexer) (c : Char) : Answer := some (.error ⟨c, lexer.tokenStart⟩, lexer)

/-- The text of the token so far. -/
def fragment? (lexer : PeekLexer) : Option (List Char) :=
  Text.slice? lexer.source.original lexer.tokenStart lexer.stop

def consumeIdent (lexer : PeekLexer) : Answer :=
  let lexer := { lexer with source := lexer.source.resetPeek.consume Lexeme.isWordChar }
  lexer.fragment?.bind fun fragment =>
    lexer.makeToken (if fragment = ['f', 'u', 'n', 'c'] then .func else .identifier)

/-- Digits behind a decimal point, and the mark of a float. -/
def consumeFraction (lexer : PeekLexer) : Answer :=
  let source := lexer.source.consume Char.isDigit
  makeToken { lexer with source := source.consumeSuffix.2 } .float

/-- Digits and perhaps the mark of a float are a number, unless a word goes on behind them. -/
def endNumber (lexer : PeekLexer) (suffix : Bool) : Answer :=
  match lexer.source.peekIs Lexeme.isWordChar with
  | (true, peeked) => consumeIdent { lexer with source := peeked }
  | (false, peeked) =>
      makeToken { lexer with source := peeked.resetPeek } (if suffix then .float else .integer)

def consumeNumber (lexer : PeekLexer) : Answer :=
  let source := lexer.source.resetPeek.consume Char.isDigit
  match source.peekIs (· == '.') with
  | (true, peeked) => consumeFraction { lexer with source := peeked.nextChar.2 }
  | (false, peeked) =>
      let suffixed := peeked.resetPeek.consumeSuffix
      endNumber { lexer with source := suffixed.2 } suffixed.1

/-- Read the token of which the first character was read. -/
def tokenFrom (lexer : PeekLexer) : Char → Answer
  | '+' => lexer.makeToken .plus
  | '-' =>
      match lexer.source.peekIs (· == '>') with
      | (true, peeked) => makeToken { lexer with source := peeked.nextChar.2 } .arrow
      | (false, peeked) => makeToken { lexer with source := peeked.resetPeek } .minus
  | '*' => lexer.makeToken .star
  | '/' => lexer.makeToken .slash
  | '%' => lexer.makeToken .percent
  | '=' => lexer.makeToken .equals
  | ',' => lexer.makeToken .comma
  | ':' => lexer.makeToken .colon
  | ';' => lexer.makeToken .semicolon
  | '(' => lexer.makeToken .leftParen
  | ')' => lexer.makeToken .rightParen
  | '\x7b' => lexer.makeToken .leftBrace
  | '\x7d' => lexer.makeToken .rightBrace
  | '.' =>
      match lexer.source.peekIs Char.isDigit with
      | (true, peeked) => consumeFraction { lexer with source := peeked.resetPeek }
      -- The second cursor is not put back here.
      | (false, peeked) => unknown { lexer with source := peeked } '.'
  | c =>
      if c.isDigit then lexer.consumeNumber
      else if Lexeme.isWordStart c then lexer.consumeIdent
      else lexer.unknown c

/-- Read one token behind any blanks. -/
def nextToken (lexer : PeekLexer) : Answer :=
  match h : lexer.source.nextChar with
  | (none, source) =>
      let stop := Text.byteLength source.original
      some (.ok ⟨.endOfSource, stop, stop⟩, { lexer with source })
  | (some (_, c), source) =>
      if Text.isTokenBlank c then
        have := Nat.lt_of_le_of_lt (source.length_rest_consume_le Text.isTokenBlank)
          (PeekText.length_rest_lt_of_nextChar h)
        nextToken ⟨source.consume Text.isTokenBlank, source.current.1⟩
      else
        tokenFrom ⟨source, source.current.1⟩ c
termination_by lexer.source.rest.length

/-! ## One token -/

/-- The answer is the lexeme at the start of a text, and the cursor stands behind it. -/
def Gives (answer : Answer) (before cs : List Char) (lexeme : Kind × Nat) : Prop :=
  ∃ lexer', answer = some (.ok ⟨lexeme.1, Text.byteLength before,
      Text.byteLength (before ++ cs.take lexeme.2)⟩, lexer') ∧
    lexer'.source.Unread (before ++ cs.take lexeme.2) (cs.drop lexeme.2)

section

variable {source : PeekText} {before chars cs rest : List Char} {length : Nat}

theorem gives_makeToken (h : source.IsAt (before ++ chars) rest) (hcs : cs = chars ++ rest)
    (hlength : length = chars.length) (kind : Kind) :
    Gives (makeToken ⟨source, Text.byteLength before⟩ kind) before cs (kind, length) := by
  subst hcs hlength
  have hstop : stop ⟨source, Text.byteLength before⟩ = Text.byteLength (before ++ chars) :=
    h.current
  refine ⟨⟨source, Text.byteLength before⟩, ?_, ?_⟩
  · rw [makeToken, hstop, List.take_left]
  · rw [List.take_left, List.drop_left]
    exact h.toUnread

/-- The fragment is the text of the token, so it can be cut out. -/
theorem fragment?_eq (h : source.IsAt (before ++ chars) rest) :
    fragment? ⟨source, Text.byteLength before⟩ = some chars := by
  have hstands : Text.StandsAt source.original chars (Text.byteLength before) :=
    ⟨before, rest, by rw [h.original, List.append_assoc], rfl⟩
  rw [fragment?, stop, h.current, Text.byteLength_append]
  exact hstands.slice?_eq

theorem gives_consumeIdent {run : List Char}
    (h : source.resetPeek.IsAt (before ++ chars) (run ++ rest))
    (hrun : ∀ c ∈ run, Lexeme.isWordChar c = true)
    (hrest : rest.head?.any Lexeme.isWordChar = false) :
    Gives (consumeIdent ⟨source, Text.byteLength before⟩) before (chars ++ (run ++ rest))
      (if chars ++ run = ['f', 'u', 'n', 'c'] then .func else .identifier,
        (chars ++ run).length) := by
  have hat := h.consume hrun hrest
  rw [List.append_assoc] at hat
  rw [consumeIdent, fragment?_eq hat, Option.bind_some]
  exact gives_makeToken hat (List.append_assoc _ _ _).symm rfl _

theorem gives_consumeFraction (h : source.IsAt (before ++ chars) rest) :
    Gives (consumeFraction ⟨source, Text.byteLength before⟩) before (chars ++ rest)
      (.float, chars.length + Lexeme.fractionLength rest) := by
  obtain ⟨run, behind, rfl, htake, hrun, hbehind⟩ := Text.exists_run Char.isDigit rest
  have hat := h.consume hrun hbehind
  rw [List.append_assoc] at hat
  rw [consumeFraction, Lexeme.fractionLength, htake, List.drop_left]
  by_cases hsuffix : behind.head?.any Lexeme.isSuffix = true
  · obtain ⟨c, more, rfl, hc⟩ := Text.exists_cons_of_any_head? hsuffix
    obtain ⟨source', hread, hat'⟩ := hat.consumeSuffix_of_head hc
    rw [List.append_assoc] at hat'
    rw [hread, if_pos hsuffix]
    exact gives_makeToken hat' (by simp) (by simp) _
  · rw [hat.consumeSuffix_eq (Bool.eq_false_iff.mpr hsuffix), if_neg hsuffix]
    exact gives_makeToken hat (by simp) (by simp) _

theorem gives_endNumber {run : List Char} (h : source.IsAt (before ++ chars) (run ++ rest))
    (hrun : ∀ c ∈ run, Lexeme.isWordChar c = true)
    (hrest : rest.head?.any Lexeme.isWordChar = false)
    (hfunc : chars ++ run ≠ ['f', 'u', 'n', 'c']) (suffix : Bool) :
    Gives (endNumber ⟨source, Text.byteLength before⟩ suffix) before (chars ++ (run ++ rest))
      (if run = [] then if suffix then .float else .integer else .identifier,
        (chars ++ run).length) := by
  obtain ⟨peeked, hpeek, -, hreset⟩ := h.peekIs Lexeme.isWordChar
  cases run with
  | nil =>
      rw [List.nil_append, hrest] at hpeek
      simp only [endNumber, hpeek, hreset, if_true]
      exact gives_makeToken h (by simp) (by simp) _
  | cons c run =>
      have hc := (List.forall_mem_cons.mp hrun).1
      rw [List.cons_append, List.head?_cons, Option.any_some, hc] at hpeek
      rw [← hreset] at h
      have hgives := gives_consumeIdent h hrun hrest
      rw [if_neg hfunc] at hgives
      simp only [endNumber, hpeek]
      exact hgives

/-- Behind the digits of a number the mark of a float is read first, though it may turn out to
belong to a word. -/
theorem gives_endNumber_consumeSuffix {digits : List Char}
    (h : source.IsAt (before ++ digits) rest)
    (hfunc : ∀ more, digits ++ more ≠ ['f', 'u', 'n', 'c']) :
    Gives (endNumber ⟨source.consumeSuffix.2, Text.byteLength before⟩ source.consumeSuffix.1) before
      (digits ++ rest) (Lexeme.numberKind digits (digits ++ rest.takeWhile Lexeme.isWordChar),
        (digits ++ rest.takeWhile Lexeme.isWordChar).length) := by
  rw [Lexeme.numberKind_append]
  by_cases hsuffix : rest.head?.any Lexeme.isSuffix = true
  · obtain ⟨c, more, rfl, hc⟩ := Text.exists_cons_of_any_head? hsuffix
    obtain ⟨source', hread, hat⟩ := h.consumeSuffix_of_head hc
    obtain ⟨word, behind, rfl, htake, hword, hbehind⟩ := Text.exists_run Lexeme.isWordChar more
    have hkind : Lexeme.numberKind [] (c :: word) = if word = [] then .float else .identifier := by
      cases word <;> simp [Lexeme.numberKind, hc]
    rw [List.append_assoc] at hat
    have hgives := gives_endNumber hat hword hbehind (by simpa using hfunc ([c] ++ word)) true
    rw [hread, List.takeWhile_cons_of_pos (Lexeme.isWordChar_of_isSuffix hc), htake, hkind]
    simpa using hgives
  · rw [h.consumeSuffix_eq (Bool.eq_false_iff.mpr hsuffix)]
    obtain ⟨word, behind, rfl, htake, hword, hbehind⟩ := Text.exists_run Lexeme.isWordChar rest
    have hkind : Lexeme.numberKind [] word = if word = [] then .integer else .identifier := by
      cases word with
      | nil => rfl
      | cons c word => cases word <;> simp_all [Lexeme.numberKind]
    rw [htake, hkind]
    exact gives_endNumber h hword hbehind (hfunc word) false

theorem gives_consumeNumber {c : Char} (hc : c.isDigit = true)
    (h : source.IsAt (before ++ [c]) rest) :
    Gives (consumeNumber ⟨source, Text.byteLength before⟩) before (c :: rest)
      (Lexeme.number (c :: rest)) := by
  obtain ⟨run, behind, rfl, -, hrun, hbehind⟩ := Text.exists_run Char.isDigit rest
  have hdigits : ∀ d ∈ c :: run, d.isDigit = true := List.forall_mem_cons.mpr ⟨hc, hrun⟩
  have hfunc (more : List Char) : c :: run ++ more ≠ ['f', 'u', 'n', 'c'] := by
    intro heq
    rw [(List.cons.inj heq).1] at hc
    cases hc
  have hat := h.consume hrun hbehind
  rw [List.append_assoc, List.singleton_append] at hat
  rw [consumeNumber, h.resetPeek_eq, ← List.cons_append, Lexeme.number_append hdigits hbehind]
  obtain ⟨peeked, hpeek, hnext, hreset⟩ := hat.peekIs (· == '.')
  by_cases hpoint : behind.head? = some '.'
  · obtain ⟨more, rfl⟩ := List.head?_eq_some_iff.mp hpoint
    obtain ⟨source', hread, -, hat'⟩ := hat.toUnread.nextChar_cons
    rw [List.append_assoc] at hat'
    have hgives := gives_consumeFraction hat'
    rw [hpoint, Option.any_some, beq_self_eq_true] at hpeek
    rw [if_pos hpoint]
    simp only [hpeek, hnext, hread]
    simpa using hgives
  · have hno : behind.head?.any (· == '.') = false := by
      cases behind <;> simp_all
    rw [hno] at hpeek
    rw [if_neg hpoint]
    simp only [hpeek, hreset]
    exact gives_endNumber_consumeSuffix hat hfunc

/-- The answer is the lexeme at the start of a text, or the first character if it starts none. -/
def Finds (answer : Answer) (before : List Char) (c : Char) (rest : List Char) :
    Option (Kind × Nat) → Prop
  | some lexeme => Gives answer before (c :: rest) lexeme
  | none => ∃ lexer', answer = some (.error ⟨c, Text.byteLength before⟩, lexer') ∧
      lexer'.source.Unread (before ++ [c]) rest

theorem finds_tokenFrom {c : Char} (h : source.IsAt (before ++ [c]) rest) :
    Finds (tokenFrom ⟨source, Text.byteLength before⟩ c) before c rest
      (Lexeme.ofChars? (c :: rest)) := by
  unfold tokenFrom
  split
  case h_2 =>
    obtain ⟨peeked, hpeek, hnext, hreset⟩ := h.peekIs (· == '>')
    by_cases harrow : rest.head?.any (· == '>') = true
    · obtain ⟨d, more, rfl, hd⟩ := Text.exists_cons_of_any_head? harrow
      obtain rfl := beq_iff_eq.mp hd
      obtain ⟨source', hread, -, hat⟩ := h.toUnread.nextChar_cons
      rw [List.append_assoc] at hat
      simp only [hpeek, harrow, hnext, hread]
      exact gives_makeToken hat rfl rfl _
    · have hread : Lexeme.ofChars? ('-' :: rest) = some (.minus, 1) := by
        rw [Lexeme.ofChars?]
        rintro more rfl
        exact harrow rfl
      simp only [hpeek, harrow, hreset, hread]
      exact gives_makeToken h rfl rfl _
  case h_14 =>
    obtain ⟨peeked, hpeek, -, hreset⟩ := h.peekIs Char.isDigit
    rw [Lexeme.ofChars?]
    by_cases hdigit : rest.head?.any Char.isDigit = true
    · rw [if_pos hdigit]
      simp only [hpeek, hdigit, hreset]
      exact gives_consumeFraction h
    · rw [if_neg hdigit]
      simp only [hpeek, hdigit]
      -- The text to come is the same, however far ahead was looked.
      rw [← hreset] at h
      exact ⟨_, rfl, h.original, h.rest⟩
  case h_15 =>
    by_cases hdigit : c.isDigit = true
    · rw [if_pos hdigit, Lexeme.ofChars?_wordChar (Lexeme.isWordChar_of_isDigit hdigit),
        if_pos hdigit]
      exact gives_consumeNumber hdigit h
    · rw [if_neg hdigit]
      by_cases hstart : Lexeme.isWordStart c = true
      · have hc := Lexeme.isWordChar_of_isWordStart hstart
        obtain ⟨word, behind, rfl, htake, hword, hbehind⟩ := Text.exists_run Lexeme.isWordChar rest
        rw [← h.resetPeek_eq] at h
        have hgives := gives_consumeIdent h hword hbehind
        rw [if_pos hstart, Lexeme.ofChars?_wordChar hc, if_neg hdigit, Lexeme.word,
          List.takeWhile_cons_of_pos hc, htake]
        exact hgives
      · have hread : Lexeme.ofChars? (c :: rest) = none := by
          unfold Lexeme.ofChars?
          split <;> simp_all
        rw [if_neg hstart, hread]
        exact ⟨_, rfl, h.toUnread⟩
  all_goals exact gives_makeToken h rfl rfl _

end

/-! ## One call after the other -/

theorem nextToken_of_end {lexer : PeekLexer} {source : PeekText}
    (h : lexer.source.nextChar = (none, source)) :
    lexer.nextToken = some (.ok ⟨.endOfSource, Text.byteLength source.original,
      Text.byteLength source.original⟩, { lexer with source }) := by
  rw [nextToken]
  split
  · rename_i hnext
    cases h.symm.trans hnext
    rfl
  · rename_i hnext
    cases h.symm.trans hnext

theorem nextToken_of_char {lexer : PeekLexer} {source : PeekText} {pos : Nat} {c : Char}
    (h : lexer.source.nextChar = (some (pos, c), source)) :
    lexer.nextToken =
      if Text.isTokenBlank c then
        nextToken ⟨source.consume Text.isTokenBlank, source.current.1⟩
      else
        tokenFrom ⟨source, source.current.1⟩ c := by
  rw [nextToken]
  split
  · rename_i hnext
    cases h.symm.trans hnext
  · rename_i hnext
    cases h.symm.trans hnext
    rfl

/-- Both lexers have the same text to read. How far ahead was looked before a call does not
matter. -/
def Follows (lexer : PeekLexer) (reader : Lexer) : Prop :=
  ∃ before, reader.pos = Text.byteLength before ∧ lexer.source.Unread before reader.rest

theorem follows_ofText (text : List Char) : (ofText text).Follows (Lexer.ofText text) :=
  ⟨[], rfl, rfl, rfl⟩

section

variable {lexer : PeekLexer} {before gap rest : List Char}

theorem exists_behind_blanks (h : lexer.source.Unread before (gap ++ rest))
    (hgap : ∀ c ∈ gap, Text.isTokenBlank c = true)
    (hrest : rest.head?.any Text.isTokenBlank = false) :
    ∃ lexer' : PeekLexer, lexer.nextToken = lexer'.nextToken ∧
      lexer'.source.Unread (before ++ gap) rest := by
  cases gap with
  | nil => exact ⟨lexer, rfl, by simpa using h⟩
  | cons c gap =>
      obtain ⟨hc, hgap⟩ := List.forall_mem_cons.mp hgap
      obtain ⟨source', hread, -, hat⟩ := h.nextChar_cons
      have hbehind := (hat.consume hgap hrest).toUnread
      rw [List.append_assoc] at hbehind
      refine ⟨⟨source'.consume Text.isTokenBlank, source'.current.1⟩, ?_, hbehind⟩
      rw [nextToken_of_char hread, if_pos hc]

/-- The answers are the same, and so is the text that is left to read. -/
def Agrees (answer : Answer) (result : Except LexError Token × Lexer) : Prop :=
  ∃ lexer', answer = some (result.1.map Token.extent, lexer') ∧ lexer'.Follows result.2

theorem agrees_nextToken_end (h : lexer.source.Unread (before ++ gap) [])
    (hgap : ∀ c ∈ gap, Text.isTokenBlank c = true) :
    Agrees lexer.nextToken (Lexer.next ⟨Text.byteLength before, gap⟩) := by
  have horiginal : lexer.source.resetPeek.original = before ++ gap := by
    rw [← List.append_nil (before ++ gap)]
    exact h.original
  refine ⟨{ lexer with source := lexer.source.resetPeek }, ?_, before ++ gap, ?_, ?_⟩
  · rw [nextToken_of_end h.nextChar_nil, horiginal, Lexer.next_blank hgap]
    simp [Except.map, Token.extent, Token.stop]
  · rw [Lexer.next_blank hgap, Text.byteLength_append]
  · rw [Lexer.next_blank hgap]
    exact ⟨h.original, h.rest⟩

theorem agrees_nextToken_char {c : Char} (h : lexer.source.Unread (before ++ gap) (c :: rest))
    (hgap : ∀ c ∈ gap, Text.isTokenBlank c = true) (hc : Text.isTokenBlank c = false) :
    Agrees lexer.nextToken (Lexer.next ⟨Text.byteLength before, gap ++ c :: rest⟩) := by
  obtain ⟨source', hread, hcurrent, hat⟩ := h.nextChar_cons
  have hfinds := finds_tokenFrom hat
  rw [nextToken_of_char hread, if_neg (by simp [hc]), hcurrent]
  cases hlexeme : Lexeme.ofChars? (c :: rest) with
  | none =>
      rw [hlexeme] at hfinds
      obtain ⟨lexer', hanswer, hunread⟩ := hfinds
      rw [Lexer.next_unknown hgap hc hlexeme]
      refine ⟨lexer', ?_, _, ?_, hunread⟩
      · rw [hanswer, Text.byteLength_append]
        rfl
      · simp [Lexer.advance, Nat.add_assoc]
  | some lexeme =>
      rw [hlexeme] at hfinds
      obtain ⟨lexer', hanswer, hunread⟩ := hfinds
      obtain ⟨chars, behind, heq, hlength, hlongest⟩ := Lexeme.exists_longest_of_ofChars? hlexeme
      rw [heq, hlength, List.take_left] at hanswer hunread
      rw [List.drop_left] at hunread
      rw [heq, Lexer.next_longest hgap hlongest]
      refine ⟨lexer', ?_, _, ?_, hunread⟩
      · rw [hanswer]
        simp [Except.map, Token.extent, Token.stop, Nat.add_assoc]
      · simp [Nat.add_assoc]

/-- Each call gives the same answer as a call of the lexer that sees the whole text, wherever the
calls before it have left the second cursor. -/
theorem agrees_nextToken {reader : Lexer} (h : lexer.Follows reader) :
    Agrees lexer.nextToken reader.next := by
  obtain ⟨pos, cs⟩ := reader
  obtain ⟨before, hpos, hunread⟩ := h
  obtain rfl : pos = Text.byteLength before := hpos
  obtain ⟨gap, rest, rfl, -, hgap, hrest⟩ := Text.exists_run Text.isTokenBlank cs
  obtain ⟨lexer', heq, hbehind⟩ := exists_behind_blanks hunread hgap hrest
  rw [heq]
  cases rest with
  | nil =>
      rw [List.append_nil]
      exact agrees_nextToken_end hbehind hgap
  | cons c rest => exact agrees_nextToken_char hbehind hgap (by simpa using hrest)

end

/-- The answers to a number of calls. -/
def answers : Nat → PeekLexer → Option (List (Except LexError Token.Extent))
  | 0, _ => some []
  | n + 1, lexer => lexer.nextToken.bind fun result =>
      (answers n result.2).map (result.1 :: ·)

end PeekLexer

/-- The answers to a number of calls. -/
def Lexer.answers : Nat → Lexer → List (Except LexError Token)
  | 0, _ => []
  | n + 1, lexer => lexer.next.1 :: answers n lexer.next.2

namespace PeekLexer

theorem Follows.answers_eq {lexer : PeekLexer} {reader : Lexer} (h : lexer.Follows reader)
    (n : Nat) : lexer.answers n = some ((reader.answers n).map (Except.map Token.extent)) := by
  induction n generalizing lexer reader with
  | zero => rfl
  | succ n ih =>
      obtain ⟨lexer', hanswer, hfollows⟩ := agrees_nextToken h
      rw [answers, hanswer, Option.bind_some, ih hfollows]
      rfl

/-- However often it is called, the lexer with two cursors finds the tokens and the errors of the
one that sees the whole text, at the same offsets. -/
theorem answers_ofText (text : List Char) (n : Nat) :
    (ofText text).answers n =
      some (((Lexer.ofText text).answers n).map (Except.map Token.extent)) :=
  (follows_ofText text).answers_eq n

end PeekLexer

end StackScript
