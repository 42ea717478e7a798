import StackScript.Diagnostic
import StackScript.Text.Blank
import StackScript.Token

/-! # Reading tokens

Tokens are as long as they can be. Digits that run into letters make a name, so `3d` is an
identifier, while a fraction or a single `f` behind the digits makes a float. -/

namespace StackScript

/-! ## Lexemes -/

namespace Lexeme

def isWordStart (c : Char) : Bool := c.isAlpha || c == '_'

def isWordChar (c : Char) : Bool := c.isAlphanum || c == '_'

/-- The mark of a float behind a number. -/
def isSuffix (c : Char) : Bool := c == 'f' || c == 'F'

/-- Length of the digits behind a decimal point, with the suffix if there is one. -/
def fractionLength (cs : List Char) : Nat :=
  let digits := (cs.takeWhile Char.isDigit).length
  if (cs.drop digits).head?.any isSuffix then digits + 1 else digits

/-- What the word is that starts with the given digits. -/
def numberKind (digits word : List Char) : Kind :=
  match word.drop digits.length with
  | [] => .integer
  | [c] => if isSuffix c then .float else .identifier
  | _ => .identifier

/-- The token that starts with a digit. -/
def number (cs : List Char) : Kind × Nat :=
  let digits := cs.takeWhile Char.isDigit
  if (cs.drop digits.length).head? = some '.' then
    (.float, digits.length + 1 + fractionLength (cs.drop (digits.length + 1)))
  else
    let word := cs.takeWhile isWordChar
    (numberKind digits word, word.length)

/-- The token that starts with a letter or an underscore. -/
def word (cs : List Char) : Kind × Nat :=
  let word := cs.takeWhile isWordChar
  (if word = ['f', 'u', 'n', 'c'] then .func else .identifier, word.length)

/-- Kind and length of the token at the start of a text. -/
def ofChars? : List Char → Option (Kind × Nat)
  | [] => none
  | '+' :: _ => some (.plus, 1)
  | '-' :: '>' :: _ => some (.arrow, 2)
  | '-' :: _ => some (.minus, 1)
  | '*' :: _ => some (.star, 1)
  | '/' :: _ => some (.slash, 1)
  | '%' :: _ => some (.percent, 1)
  | '=' :: _ => some (.equals, 1)
  | ',' :: _ => some (.comma, 1)
  | ':' :: _ => some (.colon, 1)
  | ';' :: _ => some (.semicolon, 1)
  | '(' :: _ => some (.leftParen, 1)
  | ')' :: _ => some (.rightParen, 1)
  | '\x7b' :: _ => some (.leftBrace, 1)
  | '\x7d' :: _ => some (.rightBrace, 1)
  | '.' :: cs => if cs.head?.any Char.isDigit then some (.float, 1 + fractionLength cs) else none
  | c :: cs =>
      if c.isDigit then some (number (c :: cs))
      else if isWordStart c then some (word (c :: cs))
      else none

end Lexeme

/-! ## The lexer -/

/-- A character that starts no token. -/
structure LexError where
  char : Char
  pos : Nat
  deriving DecidableEq, Repr

namespace LexError

def message (e : LexError) : String :=
  "unknown character '" ++ e.char.toString ++ "' at " ++ toString e.pos

def diagnostic (e : LexError) : Diagnostic := (Cause.unknownCharacter e.char).at e.pos

end LexError

/-- The text still to be read, and its offset. -/
structure Lexer where
  pos : Nat
  rest : List Char
  deriving DecidableEq, Repr

namespace Lexer

def ofText (text : List Char) : Lexer := ⟨0, text⟩

/-- Go on behind the given number of characters. -/
def advance (lexer : Lexer) (count : Nat) : Lexer :=
  ⟨lexer.pos + Text.byteLength (lexer.rest.take count), lexer.rest.drop count⟩

/-- Read one token behind any blanks. At the end of the text this is the empty token
`endOfSource`, time and again; a character that starts no token is passed over. -/
def next (lexer : Lexer) : Except LexError Token × Lexer :=
  let gap := lexer.rest.takeWhile Text.isTokenBlank
  let here := lexer.advance gap.length
  match here.rest with
  | [] => (.ok ⟨.endOfSource, here.pos, "", String.ofList gap⟩, here)
  | c :: _ =>
      match Lexeme.ofChars? here.rest with
      | none => (.error ⟨c, here.pos⟩, here.advance 1)
      | some (kind, length) =>
          (.ok ⟨kind, here.pos, String.ofList (here.rest.take length), String.ofList gap⟩,
            here.advance length)

end Lexer

/-! Every lexeme has at least one character, so each token brings the lexer closer to the end. -/

theorem Lexeme.number_pos {c : Char} (cs : List Char) (h : c.isDigit) :
    0 < (Lexeme.number (c :: cs)).2 := by
  have hw : Lexeme.isWordChar c := by simp [Lexeme.isWordChar, Char.isAlphanum, h]
  unfold Lexeme.number
  simp only
  split
  · simp only
    omega
  · simp [hw]

theorem Lexeme.word_pos {c : Char} (cs : List Char) (h : Lexeme.isWordStart c) :
    0 < (Lexeme.word (c :: cs)).2 := by
  have hw : Lexeme.isWordChar c := by
    simp only [Lexeme.isWordStart, Bool.or_eq_true] at h
    rcases h with h | h <;> simp [Lexeme.isWordChar, Char.isAlphanum, h]
  simp [Lexeme.word, hw]

theorem Lexeme.length_pos {cs : List Char} {kind : Kind} {length : Nat}
    (h : Lexeme.ofChars? cs = some (kind, length)) : 0 < length := by
  unfold Lexeme.ofChars? at h
  split at h
  all_goals first
    | (simp only [Option.some.injEq, Prod.mk.injEq] at h; omega)
    | skip
  · cases h
  · split at h
    · simp only [Option.some.injEq, Prod.mk.injEq] at h
      omega
    · cases h
  · rename_i c cs _ _ _ _ _ _ _ _ _ _ _ _ _ _ _
    split at h
    · rename_i hd
      have := Lexeme.number_pos cs hd
      simp only [Option.some.injEq] at h
      rw [h] at this
      exact this
    · split at h
      · rename_i hw
        have := Lexeme.word_pos cs hw
        simp only [Option.some.injEq] at h
        rw [h] at this
        exact this
      · cases h

theorem Lexer.next_shorter {lexer lexer' : Lexer} {token : Token}
    (h : lexer.next = (.ok token, lexer')) (hkind : token.kind ≠ .endOfSource) :
    lexer'.rest.length < lexer.rest.length := by
  simp only [Lexer.next] at h
  split at h
  · simp only [Prod.mk.injEq, Except.ok.injEq] at h
    exact absurd (by rw [← h.1]) hkind
  · rename_i c cs hrest
    split at h
    · cases h
    · rename_i kind length hlex
      have hpos := Lexeme.length_pos hlex
      have hle : (lexer.advance (lexer.rest.takeWhile Text.isTokenBlank).length).rest.length ≤
          lexer.rest.length := by
        simp [Lexer.advance]
      simp only [Prod.mk.injEq] at h
      rw [← h.2]
      simp only [Lexer.advance, List.length_drop] at hrest hle ⊢
      have := congrArg List.length hrest
      simp only [List.length_drop, List.length_cons] at this
      omega

/-- The tokens that the lexer has still to read, without the one that marks the end. -/
def Lexer.tokens (lexer : Lexer) : Except LexError (List Token) :=
  match h : lexer.next with
  | (.error e, _) => .error e
  | (.ok token, lexer') =>
      if hkind : token.kind = .endOfSource then .ok []
      else
        have := Lexer.next_shorter h hkind
        lexer'.tokens.map (token :: ·)
termination_by lexer.rest.length

/-- All tokens of a text. -/
def tokenize (text : List Char) : Except LexError (List Token) := (Lexer.ofText text).tokens

/-! ## Items one by one -/

/-- What a lexer gives at one call. -/
abbrev LexItem := Except LexError Token

/-- The end of the text and an error are the last items. -/
def LexItem.isLast : LexItem → Bool
  | .ok token => token.kind == .endOfSource
  | .error _ => true

/-- A lexer that is asked for items until the last one. -/
structure Scan where
  lexer : Lexer
  finished : Bool
  deriving DecidableEq, Repr

namespace Scan

def ofText (text : List Char) : Scan := ⟨Lexer.ofText text, false⟩

/-- The next item, unless the last one was given. -/
def next (scan : Scan) : Option LexItem × Scan :=
  if scan.finished then (none, scan)
  else
    let (item, lexer) := scan.lexer.next
    (some item, ⟨lexer, LexItem.isLast item⟩)

/-- Bounds the number of items to come. -/
def measure (scan : Scan) : Nat := if scan.finished then 0 else scan.lexer.rest.length + 1

theorem measure_next {scan scan' : Scan} {item : LexItem} (h : scan.next = (some item, scan')) :
    scan'.measure < scan.measure := by
  unfold next at h
  split at h
  · cases h
  · rename_i hfinished
    simp only [Prod.mk.injEq, Option.some.injEq] at h
    obtain ⟨hitem, rfl⟩ := h
    subst hitem
    simp only [measure, hfinished]
    split
    · simp
    · rename_i hlast
      cases hnext : scan.lexer.next with
      | mk item lexer =>
        rw [hnext] at hlast
        cases item with
        | error e => simp [LexItem.isLast] at hlast
        | ok token =>
          have := Lexer.next_shorter hnext (by simpa [LexItem.isLast] using hlast)
          simpa using this

/-- All items to come, and the state behind them. -/
def items (scan : Scan) : List LexItem × Scan :=
  match h : scan.next with
  | (none, scan') => ([], scan')
  | (some item, scan') =>
      have := measure_next h
      let (rest, last) := scan'.items
      (item :: rest, last)
termination_by scan.measure

end Scan

end StackScript
