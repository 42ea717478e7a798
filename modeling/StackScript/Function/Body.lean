import StackScript.Delimiter
import StackScript.Diagnostic
import StackScript.Text.Blank

/-! # Function bodies

The body of a function is not compiled. It opens at the first curly bracket of the function's text
and ends at the partner of that bracket, with nothing but white space behind it. -/

namespace StackScript

structure Body where
  /-- The text before the body. -/
  header : List Char
  /-- The text between the brackets. -/
  inner : List Char
  deriving DecidableEq, Repr

namespace Body

/-- Offset of the opening bracket. -/
def start (body : Body) : Nat := Text.byteLength body.header

/-- Offset just past the closing bracket. -/
def stop (body : Body) : Nat := body.start + Text.byteLength body.inner + 2

/-- Find the body in the text of a function. -/
def locate (text : List Char) : Except Diagnostic Body :=
  let header := text.takeWhile (· != '\x7b')
  match text.drop header.length with
  | [] => .error (Cause.missingCurlyBrace.at (Text.byteLength text))
  | _ :: rest =>
      match Delimiter.findClose Delimiter.brace rest with
      | none => .error (Cause.missingCurlyBrace.at (Text.byteLength header))
      | some index =>
          let body : Body := ⟨header, rest.take index⟩
          let after := rest.drop (index + 1)
          let blanks := after.takeWhile Text.isWhiteSpace
          match after.drop blanks.length with
          | [] => .ok body
          | junk =>
              let word := junk.takeWhile fun c => !Text.isWhiteSpace c
              .error ((Cause.unexpectedToken (String.ofList word)).at
                (body.stop + Text.byteLength blanks))

end Body

end StackScript
