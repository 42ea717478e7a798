import StackScript.Declaration

/-! # Function headers

A header is `func: name(type name, ...)`, with an arrow and a type behind it for a function that
returns a value. -/

namespace StackScript

structure Header where
  keyword : Token
  name : Token
  params : List Parameter
  /-- The type behind the arrow. -/
  ret : Option Token
  deriving DecidableEq, Repr

namespace Header

/-- What is wrong with the tokens between the colon, which ends at `colonStop`, and the list of
parameters, if they are not the name of a function. Unlike other names it may not start with a
digit. -/
def nameError? (colonStop : Nat) : List Token → Option Diagnostic
  | [] => some (Cause.unexpectedEndOfLine.at colonStop)
  | token :: rest =>
      if rest = [] ∧ token.kind = .identifier ∧ !token.text.toList.head?.any Char.isDigit then none
      else some ((Cause.invalidIdentifier (Token.spelling (token :: rest))).at token.start)

/-- Check that the tokens up to the first opening bracket are a name. -/
def checkName (colonStop : Nat) : Reader Unit := do
  let rest := (← Reader.here).rest
  let beforeParams := rest.takeWhile fun token => token.kind != .leftParen
  if beforeParams.length = rest.length then Reader.fail (Cause.missingParenthesis.at colonStop)
  else
    match nameError? colonStop beforeParams with
    | some d => Reader.fail d
    | none => pure ()

/-- The list of parameters must not end with a comma. -/
def readParams : Reader (List Parameter) := do
  let params ← Parameter.list
  match Parameter.trailing? params with
  | some comma => Reader.fail (Cause.unexpectedEndOfLine.at comma.stop)
  | none => return params

/-- The type behind an arrow, if there is an arrow. -/
def readRet : Reader (Option Token) := do
  match ← Reader.token? .arrow with
  | some _ => return some (← Reader.identifier)
  | none => return none

def reader : Reader Header := do
  let keyword ← Reader.token .func
  let colon ← Reader.token .colon
  checkName colon.stop
  let name ← Reader.identifier
  let _ ← Reader.token .leftParen
  let params ← readParams
  let _ ← Reader.token .rightParen
  let ret ← readRet
  Reader.finish
  return { keyword, name, params, ret }

end Header

end StackScript
