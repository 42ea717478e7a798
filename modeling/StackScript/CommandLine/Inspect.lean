import StackScript.CommandLine.Directory
import StackScript.Diagnostic
import StackScript.Machine.Fault

/-! # Errors in full

When a command fails, its error is shown with all its parts: the name of the kind of error, and
its fields in brackets. -/

namespace StackScript

namespace Inspect

/-- A name with fields that have no names. -/
def tuple (name : String) (fields : List String) : String :=
  if fields = [] then name else name ++ "(" ++ String.intercalate ", " fields ++ ")"

/-- A name with named fields. -/
def record (name : String) (fields : List (String × String)) : String :=
  name ++ " \x7b " ++ String.intercalate ", " (fields.map fun (key, value) => key ++ ": " ++ value) ++
    " \x7d"

def option (value : Option Nat) : String :=
  match value with
  | some n => tuple "Some" [toString n]
  | none => "None"

end Inspect

def Cause.inspect (cause : Cause) : String :=
  match cause with
  | .unknownType text | .invalidIdentifier text | .duplicateIdentifier text
  | .notAConstantOrVariable text | .undeclaredIdentifier text | .unexpectedToken text
  | .integerOutOfRange text | .unusedValue text => Inspect.tuple cause.name [Text.quoted text]
  | .missingLeftOperand op | .missingRightOperand op | .illegalVoidOperand op =>
      Inspect.tuple cause.name [Text.quoted op.symbol]
  | .illegalCast source target =>
      Inspect.record cause.name [("from", Text.quoted source), ("to", Text.quoted target)]
  | .unknownCharacter char => Inspect.tuple cause.name [Text.quotedChar char]
  | .unsupportedOperand op ty =>
      Inspect.record cause.name [("op", Text.quoted op.symbol), ("ty", Text.quoted ty)]
  | .sourceInvalid | .unclosedBlockComment | .unexpectedEndOfLine | .missingSemicolon
  | .missingCurlyBrace | .missingParenthesis | .illegalVoidUsage | .tooManyVariables => cause.name

def Diagnostic.inspect (d : Diagnostic) : String :=
  Inspect.record "CompileError"
    [("kind", d.cause.inspect), ("pos", Inspect.option d.pos), ("line", Inspect.option d.line)]

def Fault.inspect (fault : Fault) : String :=
  Inspect.record fault.name <|
    match fault with
    | .stackOverflow requested position capacity =>
        [("requested", toString requested), ("position", toString position),
          ("capacity", toString capacity)]
    | .stackUnderflow requested position =>
        [("requested", toString requested), ("position", toString position)]
    | .divideByZero offset => [("offset", toString offset)]
    | .unknownOpcode offset byte => [("offset", toString offset), ("byte", toString byte.toNat)]
    | .truncatedInstruction offset opcode =>
        [("offset", toString offset), ("opcode", Text.quoted (truncatedMnemonic opcode))]

end StackScript
