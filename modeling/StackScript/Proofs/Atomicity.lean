import StackScript.Proofs.Acceptance

/-! # Statements all or nothing

A statement that fails is taken back, however far it got. One that compiles adds its code at the
end and declares one variable at most: what declares a variable leaves no value, so that nothing
else can use it as an operand. -/

namespace StackScript

/-! ## Tables that were declared further -/

/-- The second table comes from the first one by declarations alone. -/
inductive SymbolTable.Declarations : SymbolTable → SymbolTable → Prop where
  | nil {table : SymbolTable} : Declarations table table
  | snoc {table middle table' : SymbolTable} {name : String} {ty : Ty} {slot : UInt8} :
      Declarations table middle → middle.declare name ty = .ok (slot, table') →
      Declarations table table'

namespace SymbolTable.Declarations

variable {table middle table' : SymbolTable}

theorem trans (h : Declarations table middle) (h' : Declarations middle table') :
    Declarations table table' := by
  induction h' with
  | nil => exact h
  | snoc _ hdeclare ih => exact .snoc ih hdeclare

theorem wellFormed (h : Declarations table table') (hwell : table.WellFormed) :
    table'.WellFormed := by
  induction h with
  | nil => exact hwell
  | snoc _ hdeclare ih => exact ih.declare hdeclare

end SymbolTable.Declarations

theorem SymbolTable.mem_live_declare_iff {table table' : SymbolTable}
    (h : table.slots.length ≤ maxSlots) {name : String} {ty : Ty} {slot : UInt8}
    (hdeclare : table.declare name ty = .ok (slot, table')) (entry : UInt8 × Symbol) :
    entry ∈ table'.live ↔ entry = (slot, ⟨name, ty⟩) ∨ entry ∈ table.live := by
  have hd := declares_of_declare h hdeclare
  obtain ⟨s, symbol⟩ := entry
  rw [mem_live_iff hd.bounded, mem_live_iff h, Prod.mk.injEq]
  constructor
  · exact hd.eq_or_get?
  · rintro (⟨rfl, rfl⟩ | hget)
    · exact hd.get?_slot
    · exact hd.get?_of_some hget

/-! ## Emission -/

section Emission

variable {α β : Type} {registry : Registry}

/-- Whether it succeeds or fails, all that a computation does to the variables is to declare
some. -/
def Emit.OnlyDeclares (m : Emit α) : Prop :=
  ∀ table : SymbolTable, table.Declarations (m.run table).symbols

namespace Emit

theorem onlyDeclares_pure (a : α) : OnlyDeclares (pure a) := fun _ => .nil

theorem onlyDeclares_fail (d : Diagnostic) : OnlyDeclares (fail d : Emit α) := fun _ => .nil

theorem onlyDeclares_instr (i : Instr) : OnlyDeclares (instr i) := fun _ => .nil

theorem onlyDeclares_symbols : OnlyDeclares symbols := fun _ => .nil

theorem OnlyDeclares.bind {m : Emit α} {next : α → Emit β} (h : OnlyDeclares m)
    (hnext : ∀ a, OnlyDeclares (next a)) : OnlyDeclares (m >>= next) := by
  intro table
  have hrun := h table
  rw [run_bind]
  generalize m.run table = e at hrun ⊢
  obtain ⟨d | a, middle, code⟩ := e
  · exact hrun
  · exact hrun.trans (hnext a middle)

theorem onlyDeclares_declare (name : String) (ty : Ty) (pos : Nat) :
    OnlyDeclares (declare name ty pos) := by
  intro table
  simp only [declare]
  cases hdeclare : table.declare name ty with
  | error cause => exact .nil
  | ok declared => exact .snoc .nil hdeclare

theorem onlyDeclares_cast (source target : Ty) (pos : Nat) :
    OnlyDeclares (cast source target pos) := by
  unfold cast
  split
  · exact onlyDeclares_pure ()
  · split
    · exact onlyDeclares_instr _
    · exact onlyDeclares_fail _

end Emit

open Emit

theorem onlyDeclares_declareVariable (registry : Registry) (tokens : List Token) :
    OnlyDeclares (declareVariable registry tokens) := by
  unfold declareVariable
  split
  · exact onlyDeclares_fail _
  · split
    · refine onlyDeclares_symbols.bind fun table => ?_
      split <;> exact onlyDeclares_fail _
    · split
      · exact onlyDeclares_fail _
      · split
        · exact onlyDeclares_fail _
        · exact (onlyDeclares_declare _ _ _).bind fun _ => onlyDeclares_pure _

theorem onlyDeclares_resolve (registry : Registry) (target : Target) :
    OnlyDeclares (target.resolve registry) := by
  cases target with
  | name token =>
      refine onlyDeclares_symbols.bind fun table => ?_
      split
      · exact onlyDeclares_pure _
      · split <;> exact onlyDeclares_fail _
  | declaration tokens => exact onlyDeclares_declareVariable registry tokens

theorem onlyDeclares_loadVariable (registry : Registry) (token : Token) :
    OnlyDeclares (loadVariable registry token) := by
  refine onlyDeclares_symbols.bind fun table => ?_
  split
  · exact (onlyDeclares_instr _).bind fun _ => onlyDeclares_pure _
  · split <;> exact onlyDeclares_fail _

theorem onlyDeclares_storeResult (result : Value) (ty : Ty) (slot : UInt8) (pos : Nat) :
    OnlyDeclares (if result.ty.isVoid then fail (Cause.illegalVoidUsage.at pos) else do
      cast result.ty ty pos
      instr (.store slot)
      return (⟨Ty.void, some slot⟩ : Value)) := by
  split
  · exact onlyDeclares_fail _
  · exact (onlyDeclares_cast _ _ _).bind fun _ =>
      (onlyDeclares_instr _).bind fun _ => onlyDeclares_pure _

theorem onlyDeclares_operate (op : Arithmetic) (pos : Nat) (lhs : Value) {right : Emit Value}
    (h : OnlyDeclares right) :
    OnlyDeclares (if lhs.ty.isVoid then fail ((Cause.illegalVoidOperand (.arithmetic op)).at pos)
      else do
        let rhs ← right
        if rhs.ty.isVoid then fail ((Cause.illegalVoidOperand (.arithmetic op)).at pos)
        else do
          cast rhs.ty lhs.ty pos
          if lhs.ty.name = Ty.int32.name then do
            instr op.instr
            return (⟨lhs.ty, none⟩ : Value)
          else
            fail ((Cause.unsupportedOperand (.arithmetic op) lhs.ty.name).at pos)) := by
  split
  · exact onlyDeclares_fail _
  · refine h.bind fun rhs => ?_
    split
    · exact onlyDeclares_fail _
    · refine (onlyDeclares_cast _ _ _).bind fun _ => ?_
      split
      · exact (onlyDeclares_instr _).bind fun _ => onlyDeclares_pure _
      · exact onlyDeclares_fail _

theorem Expression.onlyDeclares_emit (registry : Registry) (e : Expression) :
    OnlyDeclares (e.emit registry) := by
  induction e with
  | literal value pos =>
      unfold emit
      split
      · exact onlyDeclares_fail _
      · exact (onlyDeclares_instr _).bind fun _ => onlyDeclares_pure _
  | name token => exact onlyDeclares_loadVariable registry token
  | declaration tokens =>
      exact (onlyDeclares_declareVariable registry tokens).bind fun _ => onlyDeclares_pure _
  | assignment target value pos ih =>
      exact (onlyDeclares_resolve registry target).bind fun _ =>
        ih.bind fun result => onlyDeclares_storeResult result _ _ _
  | arithmetic op pos left right ihl ihr =>
      exact ihl.bind fun lhs => onlyDeclares_operate op pos lhs ihr
  | malformed error => exact onlyDeclares_fail error

/-! ## Expressions that compile -/

variable {table table' : SymbolTable} {code : List Instr}

theorem Emit.symbols_of_run_cast {source target : Ty} {pos : Nat} {u : Unit}
    (h : (cast source target pos).run table = ⟨.ok u, table', code⟩) : table' = table := by
  unfold cast at h
  split at h
  · cases h
    rfl
  · split at h
    · cases h
      rfl
    · cases h

theorem symbols_of_run_loadVariable {token : Token} {v : Value}
    (h : (loadVariable registry token).run table = ⟨.ok v, table', code⟩) : table' = table := by
  rw [loadVariable, run_symbols_bind] at h
  split at h
  · cases h
    rfl
  · split at h <;> cases h

/-- An expression that leaves a value has declared nothing. -/
theorem Expression.symbols_of_run_emit {e : Expression} {v : Value}
    (h : (e.emit registry).run table = ⟨.ok v, table', code⟩) (hvalue : v.ty.isVoid = false) :
    table' = table := by
  induction e generalizing table table' code v with
  | literal value pos =>
      unfold emit at h
      split at h <;> cases h
      rfl
  | name token => exact symbols_of_run_loadVariable h
  | declaration tokens =>
      obtain ⟨slot, ty, -, rfl⟩ := run_emit_declaration_eq_ok_iff.mp h
      cases hvalue
  | assignment target value pos _ =>
      obtain ⟨slot, _, _, _, _, _, _, _, -, -, -, -, rfl, -⟩ :=
        run_emit_assignment_eq_ok_iff.mp h
      cases hvalue
  | arithmetic op pos left right ihl ihr =>
      obtain ⟨lhs, middle, _, rhs, last, _, _, hleft, hlvalue, hright, hrvalue, hcast, -⟩ :=
        run_emit_arithmetic_eq_ok_iff.mp h
      rw [symbols_of_run_cast hcast, ihr hright hrvalue, ihl hleft hlvalue]
  | malformed error => cases h

theorem exists_declare_of_run_declareVariable {tokens : List Token} {slot : UInt8} {ty : Ty}
    (h : (declareVariable registry tokens).run table = ⟨.ok (slot, ty), table', code⟩) :
    ∃ name, table.declare name ty = .ok (slot, table') := by
  unfold declareVariable at h
  split at h
  · cases h
  · split at h
    · rw [run_symbols_bind] at h
      split at h <;> cases h
    · split at h
      · cases h
      · rename_i decl _
        split at h
        · cases h
        · obtain ⟨_, _, _, _, hdeclare, hpure, -⟩ := run_bind_eq_ok_iff.mp h
          cases hpure
          exact ⟨decl.name.text, (run_declare_eq_ok_iff.mp hdeclare).1⟩

/-- Of the variables, what compiles leaves all as they were, or declares one more. -/
theorem Expression.symbols_of_run_emit_cases {e : Expression} {v : Value}
    (h : (e.emit registry).run table = ⟨.ok v, table', code⟩) :
    table' = table ∨ ∃ name ty slot, table.declare name ty = .ok (slot, table') := by
  cases e with
  | literal value pos =>
      unfold emit at h
      split at h <;> cases h
      exact .inl rfl
  | name token => exact .inl (symbols_of_run_loadVariable h)
  | declaration tokens =>
      obtain ⟨slot, ty, hdeclare, -⟩ := run_emit_declaration_eq_ok_iff.mp h
      obtain ⟨name, hname⟩ := exists_declare_of_run_declareVariable hdeclare
      exact .inr ⟨name, ty, slot, hname⟩
  | assignment target value pos =>
      obtain ⟨slot, ty, middle, _, result, last, _, _, hresolve, hvalue, hvoid, hcast, -⟩ :=
        run_emit_assignment_eq_ok_iff.mp h
      -- Behind the target nothing is declared any more.
      obtain rfl := symbols_of_run_cast hcast
      obtain rfl := symbols_of_run_emit hvalue hvoid
      cases target with
      | name token =>
          rw [Target.resolve, run_symbols_bind] at hresolve
          split at hresolve
          · cases hresolve
            exact .inl rfl
          · split at hresolve <;> cases hresolve
      | declaration tokens =>
          obtain ⟨name, hname⟩ := exists_declare_of_run_declareVariable hresolve
          exact .inr ⟨name, ty, slot, hname⟩
  | arithmetic op pos left right =>
      obtain ⟨lhs, _, _, _, _, _, _, -, hvalue, -, -, -, -, rfl, -⟩ :=
        run_emit_arithmetic_eq_ok_iff.mp h
      exact .inl (symbols_of_run_emit h hvalue)
  | malformed error => cases h

end Emission

/-! ## Contexts in use -/

namespace Context

variable {ctx ctx' : Context}

/-- Emission puts code behind the code that is there. -/
theorem exists_run_of_emit {α : Type} {m : Emit α} {result : Except Diagnostic α}
    (h : ctx.emit m = (result, ctx')) :
    ∃ table code, m.run ctx.symbols = ⟨result, table, code⟩ ∧
      ctx' = { ctx with symbols := table, code := ctx.code ++ code } := by
  rw [emit] at h
  cases hrun : m.run ctx.symbols with
  | mk result' table code =>
      rw [hrun] at h
      cases h
      exact ⟨table, code, rfl, rfl⟩

theorem declarations_of_emit {e : Expression} {result : Except Diagnostic Value}
    (h : ctx.emit (e.emit ctx.registry) = (result, ctx')) :
    ctx.symbols.Declarations ctx'.symbols := by
  obtain ⟨table, code, hrun, rfl⟩ := exists_run_of_emit h
  have hdeclares := e.onlyDeclares_emit ctx.registry ctx.symbols
  rw [hrun] at hdeclares
  exact hdeclares

theorem declarations_compileStatement (ctx : Context) (text : List Char) :
    ctx.symbols.Declarations (ctx.compileStatement text).2.symbols := by
  unfold compileStatement
  split
  · exact .nil
  · split
    · rename_i hok
      exact declarations_of_emit hok
    · exact .nil

theorem declarations_compileTokens (ctx : Context) (tokens : List Token) :
    ctx.symbols.Declarations (ctx.compileTokens tokens).2.symbols := by
  unfold compileTokens
  split
  · exact .nil
  · split
    · rename_i herror
      exact declarations_of_emit herror
    · rename_i hok
      split <;> exact declarations_of_emit hok

theorem declarations_compilePiece (ctx : Context) (kind : PieceKind) (text : List Char) :
    ctx.symbols.Declarations (ctx.compilePiece kind text).2.symbols := by
  cases kind with
  | function =>
      simp only [compilePiece]
      split <;> exact .nil
  | statement =>
      simp only [compilePiece]
      split
      · exact .nil
      · exact ctx.declarations_compileTokens _

theorem declarations_compilePieces (ctx : Context) (pieces : List Piece) :
    ctx.symbols.Declarations (ctx.compilePieces pieces).2.symbols := by
  induction pieces generalizing ctx with
  | nil => exact .nil
  | cons piece pieces ih =>
      have hpiece := ctx.declarations_compilePiece piece.kind piece.text
      unfold compilePieces
      split
      · rename_i herror
        rwa [herror] at hpiece
      · rename_i middle hok
        rw [hok] at hpiece
        exact hpiece.trans (ih middle)

/-- A script starts from the empty table, and may have declared some of its variables when it
fails. -/
theorem declarations_compile (ctx : Context) (source : List Char) :
    ({} : SymbolTable).Declarations (ctx.compile source).2.symbols := by
  unfold compile
  split
  · exact .nil
  · rename_i pieces _
    have hpieces := ctx.reset.declarations_compilePieces pieces
    split
    · rename_i herror
      rwa [herror] at hpieces
    · rename_i hok
      rwa [hok] at hpieces

/-- What a host can ask of a context. -/
inductive Call where
  | compile (source : List Char)
  | statement (text : List Char)
  | reset
  | symbols (call : SymbolTable.Call)
  deriving DecidableEq, Repr

/-- The context after a call, whether the call succeeded or not. -/
def perform (ctx : Context) : Call → Context
  | .compile source => (ctx.compile source).2
  | .statement text => (ctx.compileStatement text).2
  | .reset => ctx.reset
  | .symbols call => { ctx with symbols := ctx.symbols.perform call }

/-- A context that came out of some calls on a new one. -/
def Reachable (ctx : Context) : Prop :=
  ∃ registry calls, ctx = List.foldl perform { registry } calls

theorem wellFormed_perform (h : ctx.symbols.WellFormed) (call : Call) :
    (ctx.perform call).symbols.WellFormed := by
  cases call with
  | compile source =>
      exact (ctx.declarations_compile source).wellFormed SymbolTable.wellFormed_empty
  | statement text => exact (ctx.declarations_compileStatement text).wellFormed h
  | reset => exact SymbolTable.wellFormed_empty
  | symbols call => exact h.perform call

theorem Reachable.wellFormed (h : ctx.Reachable) : ctx.symbols.WellFormed := by
  obtain ⟨registry, calls, rfl⟩ := h
  have hruns : ∀ ctx : Context, ctx.symbols.WellFormed →
      (calls.foldl perform ctx).symbols.WellFormed := by
    induction calls with
    | nil => exact fun _ h => h
    | cons call calls ih => exact fun _ h => ih _ (wellFormed_perform h call)
  exact hruns _ SymbolTable.wellFormed_empty

/-! ## Taking back -/

/-- Compile one statement in place. If it fails, the variables are put back, and the code is cut
to the length that it had. -/
def compileInPlace (ctx : Context) (text : List Char) : Except Diagnostic Value × Context :=
  match statementTokens text with
  | .error d => (.error d, ctx)
  | .ok tokens =>
      match ctx.emit ((Expression.ofTokens tokens).emit ctx.registry) with
      | (.ok value, ctx') => (.ok value, ctx')
      | (.error d, ctx') =>
          (.error (d.withLine text),
            { ctx' with symbols := ctx.symbols, code := ctx'.code.take ctx.code.length })

/-- Cutting is enough, since emission never touches the code that is there. -/
theorem compileInPlace_eq_compileStatement (ctx : Context) (text : List Char) :
    ctx.compileInPlace text = ctx.compileStatement text := by
  unfold compileInPlace compileStatement
  cases statementTokens text with
  | error d => rfl
  | ok tokens =>
      rcases hemit : ctx.emit ((Expression.ofTokens tokens).emit ctx.registry) with
        ⟨d | value, ctx'⟩
      · obtain ⟨table, code, -, rfl⟩ := exists_run_of_emit hemit
        simp only [hemit, List.take_left]
      · simp only [hemit]

/-- A later context has more code at its end and the same functions. All variables are still in
their slots, and at most one is new, in the lowest of the slots that were free. -/
structure ExtendedBy (ctx ctx' : Context) : Prop where
  code : ctx.code <+: ctx'.code
  functions : ctx'.functions = ctx.functions
  live : ∀ entry ∈ ctx.symbols.live, entry ∈ ctx'.symbols.live
  new : ctx'.symbols = ctx.symbols ∨
    ∃ slot symbol, ctx.symbols.IsLowestFree slot ∧
      ∀ entry, entry ∈ ctx'.symbols.live ↔ entry = (slot, symbol) ∨ entry ∈ ctx.symbols.live

theorem extendedBy_of_compileStatement (h : ctx.symbols.WellFormed) {text : List Char} {v : Value}
    (hok : ctx.compileStatement text = (.ok v, ctx')) : ctx.ExtendedBy ctx' := by
  obtain ⟨tokens, -, -, hemit⟩ := compileStatement_eq_ok_iff_emit.mp hok
  obtain ⟨table, code, hrun, rfl⟩ := exists_run_of_emit hemit
  rcases Expression.symbols_of_run_emit_cases hrun with rfl | ⟨name, ty, slot, hdeclare⟩
  · exact ⟨List.prefix_append _ _, rfl, fun _ hentry => hentry, .inl rfl⟩
  · have hlive := SymbolTable.mem_live_declare_iff h.bounded hdeclare
    exact ⟨List.prefix_append _ _, rfl, fun entry hentry => (hlive entry).mpr (.inr hentry),
      .inr ⟨slot, _, SymbolTable.isLowestFree_of_declare h.bounded hdeclare, hlive⟩⟩

/-- Wherever calls have brought a context, a statement that fails leaves it as it was, also when it
is compiled in place and taken back. A statement that compiles extends it. -/
theorem compileStatement_atomic (h : ctx.Reachable) (text : List Char) :
    ctx.compileInPlace text = ctx.compileStatement text ∧
    (∀ d ctx', ctx.compileStatement text = (.error d, ctx') → ctx' = ctx) ∧
    ∀ v ctx', ctx.compileStatement text = (.ok v, ctx') → ctx.ExtendedBy ctx' := by
  refine ⟨ctx.compileInPlace_eq_compileStatement text, fun d ctx' herror => ?_,
    fun v ctx' hok => extendedBy_of_compileStatement h.wellFormed hok⟩
  rcases ctx.compileStatement_cases text with ⟨v, middle, hok⟩ | ⟨d', hsame⟩
  · rw [hok] at herror
    cases herror
  · rw [hsame] at herror
    exact (congrArg Prod.snd herror).symm

/-- Three variables, the third of a type that no statement can declare; the second was freed, and a
script had failed before. The statement that fails has by then declared two variables and stored
to one of them. -/
theorem compileStatement_atomic_reusedSlot :
    ∃ ctx ctx' : Context, ctx.Reachable ∧ ctx.code.length = 5 ∧
      ctx.symbols.live = [(0, ⟨"a", .int32⟩), (2, ⟨"v", .void⟩)] ∧
      ctx.compileStatement "int32 z = a * 2;".toList = (.ok ⟨.void, some 1⟩, ctx') ∧
      ctx'.symbols.live = [(0, ⟨"a", .int32⟩), (1, ⟨"z", .int32⟩), (2, ⟨"v", .void⟩)] ∧
      ctx.ExtendedBy ctx' ∧
      ∃ d, ctx.compileInPlace "int32 z = (int32 y = 3);".toList = (.error d, ctx) := by
  have hctx : ∃ ctx : Context, ctx.Reachable ∧ ctx.code.length = 5 ∧
      ctx.symbols.live = [(0, ⟨"a", .int32⟩), (2, ⟨"v", .void⟩)] ∧
      (ctx.compileStatement "int32 z = a * 2;".toList).1.toOption = some ⟨.void, some 1⟩ ∧
      (ctx.compileStatement "int32 z = a * 2;".toList).2.symbols.live =
        [(0, ⟨"a", .int32⟩), (1, ⟨"z", .int32⟩), (2, ⟨"v", .void⟩)] ∧
      (ctx.compileStatement "int32 z = (int32 y = 3);".toList).1.toOption = none :=
    ⟨_, ⟨.builtins, [.compile "int32 a = 1; int32 b; a + b;".toList,
      .symbols (.declare "v" .void), .symbols (.free 1)], rfl⟩,
      by decide +kernel, by decide +kernel, by decide +kernel, by decide +kernel,
      by decide +kernel⟩
  obtain ⟨ctx, hreachable, hcode, hlive, hvalue, hlive', hnone⟩ := hctx
  have hok : ctx.compileStatement "int32 z = a * 2;".toList =
      (.ok ⟨.void, some 1⟩, (ctx.compileStatement "int32 z = a * 2;".toList).2) :=
    Prod.ext (toOption_eq_some_iff.mp hvalue) rfl
  obtain ⟨-, -, hextended⟩ := compileStatement_atomic hreachable "int32 z = a * 2;".toList
  obtain ⟨hinPlace, hfails, -⟩ :=
    compileStatement_atomic hreachable "int32 z = (int32 y = 3);".toList
  rcases hresult : ctx.compileStatement "int32 z = (int32 y = 3);".toList with ⟨d | v, ctx'⟩
  · obtain rfl := hfails d ctx' hresult
    rw [hresult] at hinPlace
    exact ⟨_, _, hreachable, hcode, hlive, hok, hlive', hextended _ _ hok, d, hinPlace⟩
  · rw [hresult] at hnone
    cases hnone

end Context

end StackScript
