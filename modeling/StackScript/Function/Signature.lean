import StackScript.Function.Body
import StackScript.Function.Header
import StackScript.Token.Lexer
import StackScript.Ty

/-! # Function signatures

What is kept of a function: its name, and the types of its parameters and of its result. -/

namespace StackScript

structure Signature where
  name : String
  params : List (String × Ty)
  ret : Ty
  deriving DecidableEq, Repr

/-- Brackets among tokens must match. -/
def checkParentheses (tokens : List Token) : Except Diagnostic Unit :=
  match Delimiter.imbalance? Token.parenthesis tokens with
  | none => .ok ()
  | some i => .error (Cause.missingParenthesis.at ((tokens[i.index]?.map Token.start).getD 0))

/-- The tokens of a text with matching brackets. -/
def balancedTokens (text : List Char) : Except Diagnostic (List Token) := do
  let tokens ← (tokenize text).mapError LexError.diagnostic
  checkParentheses tokens
  return tokens

namespace Signature

def display (s : Signature) : String :=
  s.name ++ "(" ++ String.intercalate ", " (s.params.map fun (name, ty) => ty.name ++ " " ++ name) ++
    ") -> " ++ s.ret.name

/-- The registered type that a token names. -/
def resolve (registry : Registry) (token : Token) : Except Diagnostic Ty :=
  match registry.lookup? token.text with
  | some ty => .ok ty
  | none => .error ((Cause.unknownType token.text).at token.start)

/-- Parameters have types other than void, and names of their own. -/
def resolveParams (registry : Registry) (resolved : List (String × Ty)) :
    List Parameter → Except Diagnostic (List (String × Ty))
  | [] => .ok resolved
  | ⟨decl, _⟩ :: params => do
      let ty ← resolve registry decl.ty
      if ty.isVoid then
        .error (Cause.illegalVoidUsage.at decl.ty.start)
      else if resolved.any fun param => param.1 == decl.name.text then
        .error ((Cause.duplicateIdentifier decl.name.text).at decl.name.start)
      else
        resolveParams registry (resolved ++ [(decl.name.text, ty)]) params

/-- The signature that a header declares beside the functions that are known already. -/
def ofHeader (registry : Registry) (known : List Signature) (header : Header) :
    Except Diagnostic Signature := do
  if known.any fun s => s.name == header.name.text then
    .error ((Cause.duplicateIdentifier header.name.text).at header.name.start)
  else
    let params ← resolveParams registry [] header.params
    let ret ← match header.ret with
      | some token => resolve registry token
      | none => .ok Ty.void
    return ⟨header.name.text, params, ret⟩

/-- The signature of a function given as text. -/
def ofText (registry : Registry) (known : List Signature) (text : List Char) :
    Except Diagnostic Signature := do
  let body ← Body.locate text
  let tokens ← balancedTokens body.header
  let header ← (Header.reader.read (Cursor.ofTokens tokens)).1
  ofHeader registry known header

end Signature

end StackScript
