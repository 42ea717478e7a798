import StackScript.Diagnostic
import StackScript.Token
import StackScript.Token.Literal

/-! # Expressions

The tokens of a statement are read as a tree by splitting them, again and again, at the right-most
of the operators that bind weakest. Where a part of the tokens makes no sense the tree holds the
diagnostic for it in that place: what stands to the left of it is still compiled first. -/

namespace StackScript

/-! ## Brackets and the split point -/

/-- Take off the brackets that enclose the whole expression, as often as there are any. -/
def stripParentheses (tokens : List Token) : List Token :=
  if Delimiter.isWrapped Token.parenthesis tokens then
    stripParentheses tokens.tail.dropLast
  else
    tokens
termination_by tokens.length
decreasing_by
  rename_i h
  simp only [Delimiter.isWrapped, Bool.and_eq_true, decide_eq_true_eq] at h
  simp only [List.length_dropLast, List.length_tail]
  omega

theorem length_stripParentheses_le (tokens : List Token) :
    (stripParentheses tokens).length ≤ tokens.length := by
  fun_induction stripParentheses tokens with
  | case1 tokens h ih =>
      simp only [List.length_dropLast, List.length_tail] at ih
      omega
  | case2 => exact Nat.le_refl _

/-- A minus sign behind nothing, behind an operator or behind an opening bracket belongs to a
literal. -/
def isSign (previous : Option Kind) (kind : Kind) : Bool :=
  kind == .minus && previous.all fun k => k == .leftParen || k.operator?.isSome

/-- The binary operators outside of all brackets, with their indices. -/
def binaryOperators (index : Nat) (previous : Option Kind) :
    List (Token × Nat) → List (Nat × Operator)
  | [] => []
  | (token, depth) :: rest =>
      let others := binaryOperators (index + 1) (some token.kind) rest
      if depth = 0 ∧ !isSign previous token.kind then
        match token.kind.operator? with
        | some op => (index, op) :: others
        | none => others
      else
        others

/-- Of two operators, the one on the right unless it binds tighter. -/
def weaker (best : Option (Nat × Operator)) (candidate : Nat × Operator) : Option (Nat × Operator) :=
  match best with
  | some (index, op) =>
      if op.precedence < candidate.2.precedence then some (index, op) else some candidate
  | none => some candidate

/-- The right-most of the binary operators that bind weakest. -/
def splitPoint? (tokens : List Token) : Option (Nat × Operator) :=
  (binaryOperators 0 none (tokens.zip (Delimiter.depths Token.parenthesis tokens))).foldl weaker none

/-- An expression cut at a binary operator. -/
structure Split where
  left : List Token
  op : Operator
  token : Token
  right : List Token
  deriving DecidableEq, Repr

/-- Cut an expression at its split point. -/
def split? (tokens : List Token) : Option Split :=
  match splitPoint? tokens with
  | none => none
  | some (index, op) =>
      match tokens.drop index with
      | [] => none
      | token :: right => some ⟨tokens.take index, op, token, right⟩

theorem split?_eq {tokens : List Token} {s : Split} (h : split? tokens = some s) :
    tokens = s.left ++ s.token :: s.right := by
  unfold split? at h
  split at h
  · cases h
  · rename_i index op _
    split at h
    · cases h
    · rename_i token right hdrop
      cases h
      rw [← hdrop, List.take_append_drop]

theorem length_split? {tokens : List Token} {s : Split}
    (h : split? (stripParentheses tokens) = some s) :
    s.left.length < tokens.length ∧ s.right.length < tokens.length := by
  have hle := length_stripParentheses_le tokens
  have hlen := congrArg List.length (split?_eq h)
  simp only [List.length_append, List.length_cons] at hlen
  omega

/-! ## Trees -/

/-- What a value is assigned to: a variable, or a new one declared by tokens of which the first is
an identifier. -/
inductive Target where
  | name (token : Token)
  | declaration (tokens : List Token)
  deriving DecidableEq, Repr

inductive Expression where
  /-- A constant whose literal starts at `pos`. -/
  | literal (value : Cell) (pos : Nat)
  /-- The value of a variable. -/
  | name (token : Token)
  /-- An identifier with more tokens behind it. -/
  | declaration (tokens : List Token)
  | assignment (target : Target) (value : Expression) (valuePos : Nat)
  | arithmetic (op : Arithmetic) (pos : Nat) (left right : Expression)
  | malformed (error : Diagnostic)
  deriving DecidableEq, Repr

namespace Expression

/-- The constant that a literal stands for, if it is a 32-bit integer. -/
def ofLiteral (negative : Bool) (digits : Token) (pos : Nat) : Expression :=
  let magnitude : Int := Literal.value digits.text.toList
  let value := if negative then -magnitude else magnitude
  if -2147483648 ≤ value ∧ value ≤ 2147483647 then .literal (BitVec.ofInt 32 value) pos
  else
    let text := if negative then "-" ++ digits.text else digits.text
    .malformed ((Cause.integerOutOfRange text).at pos)

/-- Offset of the first of some tokens. -/
def startOf (tokens : List Token) : Nat := (tokens.head?.map Token.start).getD 0

/-- Tokens that are neither a constant nor a variable nor a declaration. -/
def notAnOperand (tokens : List Token) : Expression :=
  .malformed ((Cause.notAConstantOrVariable (Token.spelling tokens)).at (startOf tokens))

/-- An expression without an operator outside of brackets. -/
def ofOperand : List Token → Expression
  | [token] =>
      if token.kind = .identifier then .name token
      else if token.kind = .integer then ofLiteral false token token.start
      else notAnOperand [token]
  | first :: second :: rest =>
      if first.kind = .minus ∧ second.kind = .integer ∧ rest = [] then
        ofLiteral true second first.start
      else if first.kind = .identifier then .declaration (first :: second :: rest)
      else notAnOperand (first :: second :: rest)
  | [] => notAnOperand []

/-- What the tokens to the left of an equals sign stand for. -/
def target? (tokens : List Token) : Option Target :=
  match stripParentheses tokens with
  | [token] => if token.kind = .identifier then some (.name token) else none
  | first :: second :: rest =>
      if first.kind = .identifier then some (.declaration (first :: second :: rest)) else none
  | [] => none

/-- The tree of an expression. -/
def ofTokens (tokens : List Token) : Expression :=
  if stripParentheses tokens = [] then notAnOperand tokens
  else
    match h : split? (stripParentheses tokens) with
    | none => ofOperand (stripParentheses tokens)
    | some s =>
        have := length_split? h
        if s.left = [] then .malformed ((Cause.missingLeftOperand s.op).at s.token.start)
        else if s.right = [] then .malformed ((Cause.missingRightOperand s.op).at s.token.stop)
        else
          match s.op with
          | .arithmetic op => .arithmetic op s.token.start (ofTokens s.left) (ofTokens s.right)
          | .assign =>
              match target? s.left with
              | none => .malformed ((Cause.missingLeftOperand .assign).at s.token.start)
              | some target => .assignment target (ofTokens s.right) (startOf s.right)
termination_by tokens.length

end Expression

end StackScript
