import StackScript.Declaration
import StackScript.Expression
import StackScript.SymbolTable

/-! # Emitting code for expressions

Compiling an expression appends instructions and may declare a variable. Both stand even when the
expression turns out to be wrong further on; whoever asked for it decides whether to take them
back. -/

namespace StackScript

/-- What an expression leaves behind: a value of some type, or nothing if the type is void; and
the slot that it loaded, declared or stored to. -/
structure Value where
  ty : Ty
  slot : Option UInt8 := none
  deriving DecidableEq, Repr

/-- An outcome, the variables after it, and the instructions emitted on the way. -/
structure Emission (α : Type) where
  result : Except Diagnostic α
  symbols : SymbolTable
  code : List Instr

/-- Computations that emit code over a table of variables. -/
structure Emit (α : Type) where
  run : SymbolTable → Emission α

namespace Emit

variable {α β : Type}

instance : Monad Emit where
  pure a := ⟨fun symbols => ⟨.ok a, symbols, []⟩⟩
  bind m next := ⟨fun symbols =>
    match m.run symbols with
    | ⟨.ok a, symbols, code⟩ =>
        let rest := (next a).run symbols
        ⟨rest.result, rest.symbols, code ++ rest.code⟩
    | ⟨.error d, symbols, code⟩ => ⟨.error d, symbols, code⟩⟩

@[simp] theorem run_pure (a : α) (symbols : SymbolTable) :
    (pure a : Emit α).run symbols = ⟨.ok a, symbols, []⟩ := rfl

@[simp] theorem run_bind (m : Emit α) (next : α → Emit β) (symbols : SymbolTable) :
    (m >>= next).run symbols =
      match m.run symbols with
      | ⟨.ok a, symbols, code⟩ =>
          let rest := (next a).run symbols
          ⟨rest.result, rest.symbols, code ++ rest.code⟩
      | ⟨.error d, symbols, code⟩ => ⟨.error d, symbols, code⟩ := rfl

def fail (d : Diagnostic) : Emit α := ⟨fun symbols => ⟨.error d, symbols, []⟩⟩

/-- Emit one instruction. -/
def instr (i : Instr) : Emit Unit := ⟨fun symbols => ⟨.ok (), symbols, [i]⟩⟩

/-- The variables declared so far. -/
def symbols : Emit SymbolTable := ⟨fun symbols => ⟨.ok symbols, symbols, []⟩⟩

/-- Declare a variable; a refusal is reported at `pos`. -/
def declare (name : String) (ty : Ty) (pos : Nat) : Emit UInt8 :=
  ⟨fun symbols =>
    match symbols.declare name ty with
    | .ok (slot, symbols) => ⟨.ok slot, symbols, []⟩
    | .error cause => ⟨.error (cause.at pos), symbols, []⟩⟩

/-- Convert the value just computed, unless it has the wanted type. -/
def cast (source target : Ty) (pos : Nat) : Emit Unit :=
  if source = target then pure ()
  else
    match source.castInstr? target with
    | some i => instr i
    | none => fail ((Cause.illegalCast source.name target.name).at pos)

end Emit

/-- Declare the variable named by a type and an identifier. If the first token is no type but a
variable, it is the token behind it that is out of place. -/
def declareVariable (registry : Registry) (tokens : List Token) : Emit (UInt8 × Ty) :=
  match tokens with
  | [] => Emit.fail { cause := .unexpectedEndOfLine }
  | first :: rest =>
      match registry.lookup? first.text with
      | none => do
          match (← Emit.symbols).findSlot? first.text, rest with
          | some _, second :: _ => Emit.fail ((Cause.unexpectedToken second.text).at second.start)
          | _, _ => Emit.fail ((Cause.unknownType first.text).at first.start)
      | some ty =>
          match (Declaration.reader.read (Cursor.ofTokens tokens)).1 with
          | .error d => Emit.fail d
          | .ok decl =>
              if ty.isVoid then Emit.fail (Cause.illegalVoidUsage.at decl.ty.start)
              else do
                let slot ← Emit.declare decl.name.text ty decl.name.start
                return (slot, ty)

/-- The slot and type of an assignment's target. It is found before the value is compiled, so a
variable can be used in its own first value. -/
def Target.resolve (registry : Registry) : Target → Emit (UInt8 × Ty)
  | .name token => do
      match (← Emit.symbols).lookup? token.text with
      | some (slot, symbol) => return (slot, symbol.ty)
      | none =>
          if registry.isRegistered token.text then
            Emit.fail (Cause.unexpectedEndOfLine.at token.stop)
          else
            Emit.fail ((Cause.undeclaredIdentifier token.text).at token.start)
  | .declaration tokens => declareVariable registry tokens

/-- Load a variable. -/
def loadVariable (registry : Registry) (token : Token) : Emit Value := do
  match (← Emit.symbols).lookup? token.text with
  | some (slot, symbol) =>
      Emit.instr (.load slot)
      return ⟨symbol.ty, some slot⟩
  | none =>
      if registry.isRegistered token.text then
        Emit.fail (Cause.unexpectedEndOfLine.at token.stop)
      else
        Emit.fail ((Cause.notAConstantOrVariable token.text).at token.start)

/-- Compile an expression. -/
def Expression.emit (registry : Registry) : Expression → Emit Value
  | .literal value pos =>
      match registry.lookup? Ty.int32.name with
      | none => Emit.fail ((Cause.unknownType Ty.int32.name).at pos)
      | some ty => do
          Emit.instr (.constInt value)
          return { ty }
  | .name token => loadVariable registry token
  | .declaration tokens => do
      let (slot, _) ← declareVariable registry tokens
      return ⟨Ty.void, some slot⟩
  | .assignment target value valuePos => do
      let (slot, ty) ← target.resolve registry
      let result ← value.emit registry
      if result.ty.isVoid then Emit.fail (Cause.illegalVoidUsage.at valuePos)
      else do
        Emit.cast result.ty ty valuePos
        Emit.instr (.store slot)
        return ⟨Ty.void, some slot⟩
  | .arithmetic op pos left right => do
      let lhs ← left.emit registry
      if lhs.ty.isVoid then Emit.fail ((Cause.illegalVoidOperand (.arithmetic op)).at pos)
      else do
        let rhs ← right.emit registry
        if rhs.ty.isVoid then Emit.fail ((Cause.illegalVoidOperand (.arithmetic op)).at pos)
        else do
          Emit.cast rhs.ty lhs.ty pos
          if lhs.ty.name = Ty.int32.name then do
            Emit.instr op.instr
            return { ty := lhs.ty }
          else
            Emit.fail ((Cause.unsupportedOperand (.arithmetic op) lhs.ty.name).at pos)
  | .malformed error => Emit.fail error

end StackScript
