import StackScript.Emission
import StackScript.Function.Signature
import StackScript.Source.Piece
import StackScript.Source.Stripped

/-! # Compiling scripts

A context holds what has been compiled so far: the variables, the signatures of the functions and
the code. A whole script starts it over. Single statements build on what is there, so that a
script can also be fed one statement at a time. -/

namespace StackScript

structure Context where
  registry : Registry
  symbols : SymbolTable := {}
  functions : List Signature := []
  code : List Instr := []
  deriving DecidableEq, Repr

/-- A compiled script. -/
structure Compilation where
  instrs : List Instr
  symbols : SymbolTable
  functions : List Signature
  deriving DecidableEq, Repr

def Compilation.bytecode (c : Compilation) : Bytes := assemble c.instrs

/-- The tokens without a semicolon at their end. -/
def dropTerminator (tokens : List Token) : List Token :=
  if tokens.getLast?.map Token.kind = some .semicolon then tokens.dropLast else tokens

namespace Context

/-- A context in which nothing was compiled yet. -/
def reset (ctx : Context) : Context := { registry := ctx.registry }

/-- Emit code into the context. -/
def emit {α : Type} (ctx : Context) (m : Emit α) : Except Diagnostic α × Context :=
  let e := m.run ctx.symbols
  (e.result, { ctx with symbols := e.symbols, code := ctx.code ++ e.code })

/-! ## Single statements -/

/-- The tokens of a statement, which must not be empty. -/
def statementTokens (text : List Char) : Except Diagnostic (List Token) := do
  let tokens ← (balancedTokens text).mapError (·.withLine text)
  if dropTerminator tokens = [] then .error { cause := .sourceInvalid }
  else .ok (dropTerminator tokens)

/-- Compile one statement behind what is there. A statement that fails leaves no trace. -/
def compileStatement (ctx : Context) (text : List Char) : Except Diagnostic Value × Context :=
  match statementTokens text with
  | .error d => (.error d, ctx)
  | .ok tokens =>
      match ctx.emit ((Expression.ofTokens tokens).emit ctx.registry) with
      | (.ok value, ctx') => (.ok value, ctx')
      | (.error d, _) => (.error (d.withLine text), ctx)

/-! ## Whole scripts -/

/-- Compile a statement of a script, whose value must not be left behind. -/
def compileTokens (ctx : Context) (tokens : List Token) : Except Diagnostic Unit × Context :=
  match tokens with
  | [] => (.ok (), ctx)
  | first :: rest =>
      match ctx.emit ((Expression.ofTokens (first :: rest)).emit ctx.registry) with
      | (.error d, ctx) => (.error d, ctx)
      | (.ok value, ctx) =>
          if value.ty.isVoid then (.ok (), ctx)
          else (.error ((Cause.unusedValue value.ty.name).at first.start), ctx)

/-- Compile a piece of a script. Offsets in a diagnostic are offsets in the piece. -/
def compilePiece (ctx : Context) (kind : PieceKind) (text : List Char) :
    Except Diagnostic Unit × Context :=
  match kind with
  | .function =>
      match Signature.ofText ctx.registry ctx.functions text with
      | .error d => (.error d, ctx)
      | .ok signature => (.ok (), { ctx with functions := ctx.functions ++ [signature] })
  | .statement =>
      match balancedTokens text with
      | .error d => (.error d, ctx)
      | .ok tokens => ctx.compileTokens (dropTerminator tokens)

/-- Compile pieces up to the first error. What was compiled before it stays, and so does what the
failing piece has emitted. -/
def compilePieces (ctx : Context) : List Piece → Except Diagnostic Unit × Context
  | [] => (.ok (), ctx)
  | piece :: pieces =>
      match ctx.compilePiece piece.kind piece.text with
      | (.error d, ctx) => (.error (d.mapPos (· + piece.start)), ctx)
      | (.ok _, ctx) => ctx.compilePieces pieces

/-- The stripped text of a script and its pieces. -/
def piecesOf (source : List Char) : Except Diagnostic (Stripped × List Piece) := do
  let stripped ← Stripped.ofSource source
  let pieces ← (do checkNesting stripped.text; Piece.all stripped.text : Except Diagnostic _)
    |>.mapError (stripped.locate source)
  return (stripped, pieces)

def compilation (ctx : Context) : Compilation := ⟨ctx.code, ctx.symbols, ctx.functions⟩

/-- Compile a whole script from the start. -/
def compile (ctx : Context) (source : List Char) : Except Diagnostic Compilation × Context :=
  match piecesOf source with
  | .error d => (.error d, ctx.reset)
  | .ok (stripped, pieces) =>
      match ctx.reset.compilePieces pieces with
      | (.error d, ctx) => (.error (stripped.locate source d), ctx)
      | (.ok _, ctx) => (.ok ctx.compilation, ctx)

end Context

/-- Compile a script over the given types. -/
def compile (registry : Registry) (source : String) : Except Diagnostic Compilation :=
  (Context.compile { registry } source.toList).1

end StackScript
