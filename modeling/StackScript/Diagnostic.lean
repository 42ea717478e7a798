import StackScript.Operator
import StackScript.Text.Offset

/-! # Diagnostics

The ways in which a script can be wrong, and where. -/

namespace StackScript

inductive Cause where
  | sourceInvalid
  | unclosedBlockComment
  | unexpectedEndOfLine
  | unknownType (name : String)
  | missingSemicolon
  | missingCurlyBrace
  | missingParenthesis
  | invalidIdentifier (text : String)
  | missingLeftOperand (op : Operator)
  | missingRightOperand (op : Operator)
  | duplicateIdentifier (name : String)
  | illegalVoidUsage
  | illegalVoidOperand (op : Operator)
  | illegalCast (source target : String)
  | notAConstantOrVariable (text : String)
  | undeclaredIdentifier (name : String)
  | unexpectedToken (text : String)
  | unknownCharacter (char : Char)
  | integerOutOfRange (literal : String)
  | unsupportedOperand (op : Operator) (ty : String)
  | tooManyVariables
  | unusedValue (ty : String)
  deriving DecidableEq, Repr

namespace Cause

def message : Cause → String
  | sourceInvalid => "source is empty or invalid"
  | unclosedBlockComment => "unclosed block comment"
  | unexpectedEndOfLine => "unexpected end of line, expected identifier"
  | unknownType name => "unknown type '" ++ name ++ "'"
  | missingSemicolon => "missing semicolon"
  | missingCurlyBrace => "missing curly brace"
  | missingParenthesis => "missing parenthesis"
  | invalidIdentifier text => "invalid identifier '" ++ text ++ "'"
  | missingLeftOperand op => "missing left operand for '" ++ op.symbol ++ "'"
  | missingRightOperand op => "missing right operand for '" ++ op.symbol ++ "'"
  | duplicateIdentifier name => "identifier '" ++ name ++ "' already declared"
  | illegalVoidUsage => "illegal use of void"
  | illegalVoidOperand op => "void operand for '" ++ op.symbol ++ "'"
  | illegalCast source target => "illegal cast from " ++ source ++ " to " ++ target
  | notAConstantOrVariable text => "'" ++ text ++ "' is not a constant or variable"
  | undeclaredIdentifier name => "undeclared identifier '" ++ name ++ "'"
  | unexpectedToken text => "unexpected token '" ++ text ++ "'"
  | unknownCharacter char => "unknown character '" ++ char.toString ++ "'"
  | integerOutOfRange literal => "integer literal '" ++ literal ++ "' out of range"
  | unsupportedOperand op ty =>
      "operator '" ++ op.symbol ++ "' does not support operands of type " ++ ty
  | tooManyVariables => "too many variables"
  | unusedValue ty => "value of type " ++ ty ++ " is never used"

/-- The name of the kind of cause. -/
def name : Cause → String
  | sourceInvalid => "SourceInvalid"
  | unclosedBlockComment => "UnclosedBlockComment"
  | unexpectedEndOfLine => "UnexpectedEndOfLine"
  | unknownType _ => "UnknownType"
  | missingSemicolon => "MissingSemicolon"
  | missingCurlyBrace => "MissingCurlyBrace"
  | missingParenthesis => "MissingParenthesis"
  | invalidIdentifier _ => "InvalidIdentifier"
  | missingLeftOperand _ => "MissingLeftOperand"
  | missingRightOperand _ => "MissingRightOperand"
  | duplicateIdentifier _ => "DuplicateIdentifier"
  | illegalVoidUsage => "IllegalVoidUsage"
  | illegalVoidOperand _ => "IllegalVoidOperand"
  | illegalCast _ _ => "IllegalCast"
  | notAConstantOrVariable _ => "NotAConstantOrVariable"
  | undeclaredIdentifier _ => "UndeclaredIdentifier"
  | unexpectedToken _ => "UnexpectedToken"
  | unknownCharacter _ => "UnknownCharacter"
  | integerOutOfRange _ => "IntegerOutOfRange"
  | unsupportedOperand _ _ => "UnsupportedOperand"
  | tooManyVariables => "TooManyVariables"
  | unusedValue _ => "UnusedValue"

end Cause

/-- A cause, the offset of the fault in some text, and its line there once it is known. -/
structure Diagnostic where
  cause : Cause
  pos : Option Nat := none
  line : Option Nat := none
  deriving DecidableEq, Repr

/-- Report a cause at an offset. -/
def Cause.at (cause : Cause) (pos : Nat) : Diagnostic := { cause, pos := some pos }

namespace Diagnostic

def message (d : Diagnostic) : String :=
  match d.line with
  | some line => "line " ++ toString line ++ ": " ++ d.cause.message
  | none => d.cause.message

/-- Carry the offset over to another text. -/
def mapPos (d : Diagnostic) (f : Nat → Nat) : Diagnostic := { d with pos := d.pos.map f }

/-- Find the line of the offset in the text that it belongs to. -/
def withLine (d : Diagnostic) (text : List Char) : Diagnostic :=
  { d with line := d.pos.map (Text.lineNumber text) }

end Diagnostic

end StackScript
