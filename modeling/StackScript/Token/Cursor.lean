import StackScript.Diagnostic
import StackScript.Token

/-! # Stepping through tokens -/

namespace StackScript

/-- Why a token cannot be consumed. -/
inductive TokenError where
  | mismatch (expected encountered : Kind) (text : String) (pos : Nat)
  | endOfSource (expected : Kind) (pos : Nat)
  | trailing (text : String) (pos : Nat)
  deriving DecidableEq, Repr

namespace TokenError

def message : TokenError → String
  | mismatch expected encountered _ _ =>
      "encountered unexpected token '" ++ encountered.display ++ "', expected '" ++
        expected.display ++ "'"
  | endOfSource expected _ =>
      "unexpected end of source code, expected '" ++ expected.display ++ "'"
  | trailing text _ => "unexpected trailing token '" ++ text ++ "'"

/-- The name of the kind of error. -/
def name : TokenError → String
  | mismatch .. => "Mismatch"
  | endOfSource .. => "EndOfSource"
  | trailing .. => "Trailing"

/-- What is missing where the tokens end before the expected one. -/
def missing : Kind → Cause
  | .leftParen | .rightParen => .missingParenthesis
  | .leftBrace | .rightBrace => .missingCurlyBrace
  | .semicolon => .missingSemicolon
  | _ => .unexpectedEndOfLine

def diagnostic : TokenError → Diagnostic
  | mismatch _ _ text pos | trailing text pos => (Cause.unexpectedToken text).at pos
  | endOfSource expected pos => (missing expected).at pos

end TokenError

/-- The tokens not yet consumed, and the offset where the last of all the tokens ends. -/
structure Cursor where
  rest : List Token
  endPos : Nat
  deriving DecidableEq, Repr

namespace Cursor

def ofTokens (tokens : List Token) : Cursor := ⟨tokens, (tokens.getLast?.map Token.stop).getD 0⟩

def atEnd (cursor : Cursor) : Bool := cursor.rest.isEmpty

def peek? (cursor : Cursor) : Option Token := cursor.rest.head?

def peekKind? (cursor : Cursor) : Option Kind := cursor.peek?.map Token.kind

/-- Move past the next token. -/
def advance (cursor : Cursor) : Cursor := { cursor with rest := cursor.rest.tail }

/-- The next token, if it is of the given kind. -/
def accept? (cursor : Cursor) (kind : Kind) : Option (Token × Cursor) :=
  match cursor.rest with
  | token :: rest => if token.kind = kind then some (token, { cursor with rest }) else none
  | [] => none

/-- The next token, which must be of the given kind. -/
def consume (cursor : Cursor) (kind : Kind) : Except TokenError (Token × Cursor) :=
  match cursor.rest with
  | [] => .error (.endOfSource kind cursor.endPos)
  | token :: rest =>
      if token.kind = kind then .ok (token, { cursor with rest })
      else .error (.mismatch kind token.kind token.text token.start)

/-- No token may be left. -/
def expectEnd (cursor : Cursor) : Except TokenError Unit :=
  match cursor.rest with
  | [] => .ok ()
  | token :: _ => .error (.trailing token.text token.start)

end Cursor

end StackScript
