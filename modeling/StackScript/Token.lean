import StackScript.Delimiter
import StackScript.Operator
import StackScript.Text.Offset

/-! # Tokens

A token knows its text, where it starts, and the blanks before it. A run of tokens therefore gives
back the text that it was read from. -/

namespace StackScript

/-- Kinds of tokens. `func` is the one reserved word. -/
inductive Kind where
  | plus | minus | star | slash | percent | equals | comma | colon | semicolon | arrow
  | leftParen | rightParen | leftBrace | rightBrace
  | integer | float | identifier | func
  | endOfSource
  deriving DecidableEq, Repr

namespace Kind

def display : Kind → String
  | plus => "+"
  | minus => "-"
  | star => "*"
  | slash => "/"
  | percent => "%"
  | equals => "="
  | comma => ","
  | colon => ":"
  | semicolon => ";"
  | arrow => "->"
  | leftParen => "("
  | rightParen => ")"
  | leftBrace => "\x7b"
  | rightBrace => "\x7d"
  | integer => "integer"
  | float => "float"
  | identifier => "identifier"
  | func => "func"
  | endOfSource => "end of source"

/-- The operator that a token stands for. -/
def operator? : Kind → Option Operator
  | equals => some .assign
  | plus => some (.arithmetic .add)
  | minus => some (.arithmetic .sub)
  | star => some (.arithmetic .mul)
  | slash => some (.arithmetic .div)
  | percent => some (.arithmetic .mod)
  | _ => none

end Kind

structure Token where
  kind : Kind
  /-- Offset of the first byte. -/
  start : Nat
  text : String
  /-- The blanks between this token and the one before it. -/
  gap : String := ""
  deriving DecidableEq, Repr

namespace Token

/-- Offset just past the last byte. -/
def stop (token : Token) : Nat := token.start + Text.byteLength token.text.toList

/-- Round brackets among tokens. -/
def parenthesis (token : Token) : Delimiter := Delimiter.between .leftParen .rightParen token.kind

/-- The text that a run of tokens covers, from its first token to its last. -/
def spelling : List Token → String
  | [] => ""
  | token :: rest => rest.foldl (fun text t => text ++ t.gap ++ t.text) token.text

end Token

end StackScript
