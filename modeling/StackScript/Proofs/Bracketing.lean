import StackScript.Proofs.Grammar
import StackScript.Proofs.Lexing

/-! # Brackets in texts and among tokens

Every bracket of a text is a token by itself. So the brackets of a text match where those among its
tokens do, and no curly bracket is in the text of a statement. -/

namespace StackScript

open Delimiter

/-! ## Texts of tokens -/

/-- The tokens are what stands between the blanks of a text. -/
inductive Spelled : List Char → List Token → Prop where
  | nil {gap : List Char} : (∀ c ∈ gap, Text.isTokenBlank c = true) → Spelled gap []
  | cons {gap chars rest : List Char} {token : Token} {tokens : List Token} :
      (∀ c ∈ gap, Text.isTokenBlank c = true) → Lexeme.Form token.kind chars →
      Spelled rest tokens → Spelled (gap ++ (chars ++ rest)) (token :: tokens)

theorem Lexes.spelled {pos : Nat} {text : List Char} {tokens : List Token}
    (h : Lexes pos text tokens) : Spelled text tokens := by
  induction h with
  | nil hgap => exact .nil hgap
  | cons hgap _ hlongest _ ih => exact .cons hgap hlongest.isLexeme.form ih

theorem spelled_of_tokenize {text : List Char} {tokens : List Token}
    (h : tokenize text = .ok tokens) : Spelled text tokens :=
  (Lexer.tokens_eq_ok_iff.mp h).spelled

/-! ## Depth -/

/-- A lexeme opens and closes what its kind does. -/
structure Lexeme.Mirrors (classify : Char → Delimiter) (classifyKind : Kind → Delimiter) :
    Prop where
  blank : ∀ c, Text.isTokenBlank c = true → classify c = other
  plain : ∀ c, isPlain c = true → classify c = other
  plainKind : ∀ kind ∈ [Kind.integer, .float, .identifier, .func], classifyKind kind = other
  arrow : ∀ c ∈ ['-', '>'], classify c = other
  arrowKind : classifyKind .arrow = other
  symbol : ∀ s ∈ symbols, classify s.1 = classifyKind s.2

theorem Lexeme.mirrors_parenthesis : Mirrors parenthesis (between .leftParen .rightParen) where
  blank _ := between_eq_other_of rfl rfl
  plain _ := between_eq_other_of rfl rfl
  plainKind := by decide
  arrow := by simp [parenthesis, between]
  arrowKind := rfl
  symbol := by decide

theorem Lexeme.mirrors_brace : Mirrors brace (between .leftBrace .rightBrace) where
  blank _ := between_eq_other_of rfl rfl
  plain _ := between_eq_other_of rfl rfl
  plainKind := by decide
  arrow := by simp [brace, between]
  arrowKind := rfl
  symbol := by decide

section

variable {classify : Char → Delimiter} {classifyKind : Kind → Delimiter}

theorem Lexeme.Mirrors.depthAfter_chars (h : Mirrors classify classifyKind) {kind : Kind}
    {chars : List Char} (hform : Form kind chars) (depth : Nat) :
    depthAfter classify depth chars = depthAfter classifyKind depth [kind] := by
  cases hform with
  | @symbol c kind hsymbol => simp only [depthAfter, h.symbol _ hsymbol]
  | arrow => rw [depthAfter_of_other h.arrow, depthAfter_of_other (by simp [h.arrowKind])]
  | plain hkind hchars =>
      rw [depthAfter_of_other fun c hc => h.plain c (hchars c hc),
        depthAfter_of_other (by simpa using h.plainKind kind hkind)]

/-- Between the blanks and the tokens no bracket is lost. -/
theorem Lexeme.Mirrors.depthAfter_text (h : Mirrors classify classifyKind) {text : List Char}
    {tokens : List Token} (hspelled : Spelled text tokens) (depth : Nat) :
    depthAfter classify depth text =
      depthAfter (fun token : Token => classifyKind token.kind) depth tokens := by
  induction hspelled generalizing depth with
  | nil hgap => exact depthAfter_of_other (fun c hc => h.blank c (hgap c hc)) depth
  | @cons gap chars rest token tokens hgap hform _ ih =>
      have htokens := @depthAfter_append _ (fun token : Token => classifyKind token.kind) depth
        [token] tokens
      rw [depthAfter_append, depthAfter_of_other fun c hc => h.blank c (hgap c hc),
        Option.bind_some, depthAfter_append, h.depthAfter_chars hform]
      simp only [ih]
      exact htokens.symm

end

/-- Round brackets match in a text when they match among its tokens. -/
theorem isBalanced_parenthesis_iff {text : List Char} {tokens : List Token}
    (h : Spelled text tokens) :
    IsBalanced parenthesis text ↔ IsBalanced Token.parenthesis tokens := by
  rw [IsBalanced, Lexeme.mirrors_parenthesis.depthAfter_text h]
  rfl

/-! ## Curly brackets -/

/-- Curly brackets among tokens. -/
def Token.brace (token : Token) : Delimiter := between .leftBrace .rightBrace token.kind

theorem isBalanced_brace_iff {text : List Char} {tokens : List Token} (h : Spelled text tokens) :
    IsBalanced brace text ↔ IsBalanced Token.brace tokens := by
  rw [IsBalanced, Lexeme.mirrors_brace.depthAfter_text h]
  rfl

namespace Token

theorem brace_eq {token : Token} {kind : Kind} (h : token.kind = kind) :
    token.brace = between .leftBrace .rightBrace kind := by
  rw [brace, h]

theorem brace_binary {left right : List Token} {token : Token} {op : Operator}
    (hleft : ∀ t ∈ left, t.brace = other) (hop : token.kind.operator? = some op)
    (hright : ∀ t ∈ right, t.brace = other) : ∀ t ∈ left ++ token :: right, t.brace = other := by
  have htoken : token.brace = other := by
    rw [brace, between, if_neg, if_neg]
    all_goals
      intro hkind
      rw [hkind] at hop
      cases hop
  exact List.forall_mem_append.mpr ⟨hleft, List.forall_mem_cons.mpr ⟨htoken, hright⟩⟩

theorem brace_enclosed {first last : Token} {inner : List Token} (hfirst : first.kind = .leftParen)
    (hinner : ∀ t ∈ inner, t.brace = other) (hlast : last.kind = .rightParen) :
    ∀ t ∈ first :: (inner ++ [last]), t.brace = other := by
  simp only [List.forall_mem_cons, List.forall_mem_append]
  exact ⟨brace_eq hfirst, hinner, brace_eq hlast, by simp⟩

end Token

theorem Term.Derives.brace_eq_other {rank : Rank} {tokens : List Token} {a : Term}
    (h : Term.Derives rank tokens a) : ∀ token ∈ tokens, token.brace = other := by
  induction h with
  | sum _ hop _ ihl ihr => exact Token.brace_binary ihl (operator?_of_additive? hop).1 ihr
  | product _ hop _ ihl ihr => exact Token.brace_binary ihl (operator?_of_multiplicative? hop).1 ihr
  | ofProduct _ ih => exact ih
  | ofFactor _ ih => exact ih
  | name hkind => exact List.forall_mem_singleton.mpr (Token.brace_eq hkind)
  | integer hkind => exact List.forall_mem_singleton.mpr (Token.brace_eq hkind)
  | negative hsign hkind => simp [Token.brace_eq hsign, Token.brace_eq hkind, between]
  | group hfirst _ hlast ih => exact Token.brace_enclosed hfirst ih hlast

theorem Place.Derives.brace_eq_other {tokens : List Token} {p : Place}
    (h : Place.Derives tokens p) : ∀ token ∈ tokens, token.brace = other := by
  induction h with
  | name hkind => exact List.forall_mem_singleton.mpr (Token.brace_eq hkind)
  | declaration hty hname => simp [Token.brace_eq hty, Token.brace_eq hname, between]
  | group hfirst _ hlast ih => exact Token.brace_enclosed hfirst ih hlast

/-- No statement has a curly bracket. -/
theorem Statement.Derives.brace_eq_other {tokens : List Token} {st : Statement}
    (h : Statement.Derives tokens st) : ∀ token ∈ tokens, token.brace = other := by
  induction h with
  | assignment hp hequals ha =>
      exact Token.brace_binary hp.brace_eq_other (by rw [hequals]; rfl) ha.brace_eq_other
  | declaration hty hname => simp [Token.brace_eq hty, Token.brace_eq hname, between]
  | value ha => exact ha.brace_eq_other
  | group hfirst _ hlast ih => exact Token.brace_enclosed hfirst ih hlast

end StackScript
