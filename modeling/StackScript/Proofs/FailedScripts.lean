import StackScript.Proofs.Atomicity

/-! # Scripts that fail

A script stops at the first piece that fails. The pieces before it are compiled, and nothing that
the failing one has done is taken back. A statement does something as soon as it gets past its
first step, so only those that fail at once leave no trace. -/

namespace StackScript

/-! ## Traces -/

namespace SymbolTable

variable {table table' : SymbolTable}

theorem Declarations.mem_live (h : Declarations table table') (hwell : table.WellFormed) :
    ∀ entry ∈ table.live, entry ∈ table'.live := by
  induction h with
  | nil => exact fun _ hentry => hentry
  | snoc hbefore hdeclare ih =>
      intro entry hentry
      rw [mem_live_declare_iff (hbefore.wellFormed hwell).bounded hdeclare]
      exact .inr (ih entry hentry)

theorem exists_mem_live_of_declare (h : table.slots.length ≤ maxSlots) {name : String} {ty : Ty}
    {slot : UInt8} (hdeclare : table.declare name ty = .ok (slot, table')) :
    ∃ entry ∈ table'.live, entry ∉ table.live := by
  refine ⟨_, (mem_live_declare_iff h hdeclare _).mpr (.inl rfl), ?_⟩
  rw [mem_live_iff h, (isLowestFree_of_declare h hdeclare).1]
  simp

end SymbolTable

/-- Code was emitted, or a variable is there that was not. -/
def Emission.LeavesTrace {α : Type} (table : SymbolTable) (e : Emission α) : Prop :=
  e.code ≠ [] ∨ ∃ entry ∈ e.symbols.live, entry ∉ table.live

section Traces

variable {α β : Type} {registry : Registry} {table : SymbolTable}

namespace Emit

/-- What follows does not remove a trace. -/
theorem leavesTrace_bind (hwell : table.WellFormed) {m : Emit α} {next : α → Emit β}
    (h : (m.run table).LeavesTrace table) (hm : OnlyDeclares m)
    (hnext : ∀ a, OnlyDeclares (next a)) : ((m >>= next).run table).LeavesTrace table := by
  have hrun := hm table
  rw [run_bind]
  generalize m.run table = e at h hrun ⊢
  obtain ⟨d | a, middle, code⟩ := e
  · exact h
  · rcases h with hcode | ⟨entry, hentry, hnew⟩
    · exact .inl fun hnil => hcode (List.append_eq_nil_iff.mp hnil).1
    · exact .inr ⟨entry, (hnext a middle).mem_live (hrun.wellFormed hwell) entry hentry, hnew⟩

theorem leavesTrace_bind_of_run {m : Emit α} {next : α → Emit β} {a : α}
    (hm : m.run table = ⟨.ok a, table, []⟩) (h : ((next a).run table).LeavesTrace table) :
    ((m >>= next).run table).LeavesTrace table := by
  rw [run_bind, hm]
  exact h

end Emit

open Emit

/-- A declaration is refused, and nothing has changed. -/
def DeclarationFails (registry : Registry) (table : SymbolTable) (tokens : List Token) : Prop :=
  ∃ d, (declareVariable registry tokens).run table = ⟨.error d, table, []⟩

theorem run_declareVariable_cases (registry : Registry) (tokens : List Token)
    (table : SymbolTable) :
    DeclarationFails registry table tokens ∨
      ∃ name ty slot table', table.declare name ty = .ok (slot, table') ∧
        (declareVariable registry tokens).run table = ⟨.ok (slot, ty), table', []⟩ := by
  unfold DeclarationFails declareVariable
  split
  · exact .inl ⟨_, rfl⟩
  · split
    · rw [run_symbols_bind]
      split <;> exact .inl ⟨_, rfl⟩
    · rename_i ty _
      split
      · exact .inl ⟨_, rfl⟩
      · rename_i decl _
        split
        · exact .inl ⟨_, rfl⟩
        · cases hdeclare : table.declare decl.name.text ty with
          | error cause =>
              refine .inl ⟨cause.at decl.name.start, ?_⟩
              simp [declare, hdeclare]
          | ok declared =>
              refine .inr ⟨_, ty, _, _, hdeclare, ?_⟩
              simp [declare, hdeclare]

/-- The first step of an expression fails. Its parts are compiled from left to right, and to find
a variable that is there is no step. -/
def Expression.FailsAtOnce (registry : Registry) (table : SymbolTable) : Expression → Prop
  | .literal _ _ => registry.lookup? Ty.int32.name = none
  | .name token => table.lookup? token.text = none
  | .declaration tokens => DeclarationFails registry table tokens
  | .assignment (.name token) value _ =>
      table.lookup? token.text = none ∨ value.FailsAtOnce registry table
  | .assignment (.declaration tokens) _ _ => DeclarationFails registry table tokens
  | .arithmetic _ _ left _ => left.FailsAtOnce registry table
  | .malformed _ => True

theorem leavesTrace_declareVariable (hwell : table.WellFormed) {tokens : List Token}
    (h : ¬ DeclarationFails registry table tokens) :
    ((declareVariable registry tokens).run table).LeavesTrace table := by
  rcases run_declareVariable_cases registry tokens table with
    hfails | ⟨name, ty, slot, table', hdeclare, hrun⟩
  · exact absurd hfails h
  · rw [hrun]
    exact .inr (SymbolTable.exists_mem_live_of_declare hwell.bounded hdeclare)

theorem Expression.leavesTrace_emit (hwell : table.WellFormed) {e : Expression}
    (h : ¬ e.FailsAtOnce registry table) : ((e.emit registry).run table).LeavesTrace table := by
  induction e with
  | literal value pos =>
      rw [emit]
      cases hlookup : registry.lookup? Ty.int32.name with
      | none => exact absurd hlookup h
      | some ty => exact .inl (List.cons_ne_nil _ _)
  | name token =>
      rw [emit, loadVariable, run_symbols_bind]
      cases hlookup : table.lookup? token.text with
      | none => exact absurd hlookup h
      | some found => exact .inl (List.cons_ne_nil _ _)
  | declaration tokens =>
      exact leavesTrace_bind hwell (leavesTrace_declareVariable hwell h)
        (onlyDeclares_declareVariable registry tokens) fun _ => onlyDeclares_pure _
  | assignment target value pos ih =>
      have hnext : ∀ (slot : UInt8) (ty : Ty) (result : Value), OnlyDeclares _ :=
        fun slot ty result => onlyDeclares_storeResult result ty slot pos
      cases target with
      | name token =>
          -- To find the target leaves no trace, so it has to come from the value.
          obtain ⟨hlive, hvalue⟩ := not_or.mp h
          obtain ⟨⟨slot, symbol⟩, hlookup⟩ := Option.ne_none_iff_exists'.mp hlive
          have hresolve : ((Target.name token).resolve registry).run table =
              ⟨.ok (slot, symbol.ty), table, []⟩ := by
            rw [Target.resolve, run_symbols_bind, hlookup]
            rfl
          exact leavesTrace_bind_of_run hresolve (leavesTrace_bind hwell (ih hvalue)
            (value.onlyDeclares_emit registry) (hnext slot symbol.ty))
      | declaration tokens =>
          exact leavesTrace_bind hwell (leavesTrace_declareVariable hwell h)
            (onlyDeclares_declareVariable registry tokens) fun declared =>
              (value.onlyDeclares_emit registry).bind (hnext declared.1 declared.2)
  | arithmetic op pos left right ihl =>
      exact leavesTrace_bind hwell (ihl h) (left.onlyDeclares_emit registry) fun lhs =>
        onlyDeclares_operate op pos lhs (right.onlyDeclares_emit registry)
  | malformed error => exact absurd trivial h

theorem Expression.FailsAtOnce.run_emit {e : Expression} (h : e.FailsAtOnce registry table) :
    ∃ d, (e.emit registry).run table = ⟨.error d, table, []⟩ := by
  induction e with
  | literal value pos =>
      rw [emit, show registry.lookup? Ty.int32.name = none from h]
      exact ⟨_, rfl⟩
  | name token =>
      rw [emit, loadVariable, run_symbols_bind, show table.lookup? token.text = none from h]
      dsimp only
      split <;> exact ⟨_, rfl⟩
  | declaration tokens =>
      obtain ⟨d, hrun⟩ := h
      rw [emit, run_bind, hrun]
      exact ⟨d, rfl⟩
  | assignment target value pos ih =>
      cases target with
      | name token =>
          cases hlookup : table.lookup? token.text with
          | none =>
              by_cases hty : registry.isRegistered token.text <;>
                simp [emit, Target.resolve, hlookup, hty]
          | some found =>
              obtain ⟨d, hrun⟩ := ih (h.resolve_left (by simp [hlookup]))
              simp [emit, Target.resolve, hlookup, hrun]
      | declaration tokens =>
          obtain ⟨d, hrun⟩ := h
          rw [emit, run_bind, Target.resolve, hrun]
          exact ⟨d, rfl⟩
  | arithmetic op pos left right ihl =>
      obtain ⟨d, hrun⟩ := ihl h
      rw [emit, run_bind, hrun]
      exact ⟨d, rfl⟩
  | malformed error => exact ⟨error, rfl⟩

end Traces

/-! ## Pieces and scripts -/

namespace Context

variable {ctx ctx' : Context}

/-- The piece fails before it has done anything. Functions and texts that are no tokens always
do. -/
def FailsAtOnce (ctx : Context) (piece : Piece) : Prop :=
  piece.kind = .statement → ∀ tokens, balancedTokens piece.text = .ok tokens →
    (Expression.ofTokens (dropTerminator tokens)).FailsAtOnce ctx.registry ctx.symbols

/-- What a context has become by a piece that failed in it. All that was there is still there. To
take the piece back, it is enough to put back the variables and to cut the code; nothing has to be
taken back exactly if the piece failed at once. -/
structure LeftBy (ctx : Context) (piece : Piece) (ctx' : Context) : Prop where
  functions : ctx'.functions = ctx.functions
  code : ctx.code <+: ctx'.code
  live : ∀ entry ∈ ctx.symbols.live, entry ∈ ctx'.symbols.live
  takenBack : { ctx' with symbols := ctx.symbols, code := ctx'.code.take ctx.code.length } = ctx
  failsAtOnce : ctx'.code = ctx.code → ctx'.symbols.live = ctx.symbols.live → ctx.FailsAtOnce piece
  eq_of_failsAtOnce : ctx.FailsAtOnce piece → ctx' = ctx

theorem leftBy_self {piece : Piece} (h : ctx.FailsAtOnce piece) : ctx.LeftBy piece ctx := by
  refine ⟨rfl, List.prefix_refl _, fun _ hentry => hentry, ?_, fun _ _ => h, fun _ => rfl⟩
  rw [List.take_length]

theorem leftBy_emit (hwell : ctx.symbols.WellFormed) {piece : Piece} {tokens : List Token}
    (hkind : piece.kind = .statement) (htokens : balancedTokens piece.text = .ok tokens) :
    ctx.LeftBy piece
      (ctx.emit ((Expression.ofTokens (dropTerminator tokens)).emit ctx.registry)).2 := by
  have hfails : ctx.FailsAtOnce piece ↔
      (Expression.ofTokens (dropTerminator tokens)).FailsAtOnce ctx.registry ctx.symbols := by
    refine ⟨fun h => h hkind tokens htokens, fun h _ tokens' htokens' => ?_⟩
    cases htokens.symm.trans htokens'
    exact h
  rw [emit]
  generalize Expression.ofTokens (dropTerminator tokens) = e at hfails ⊢
  refine ⟨rfl, List.prefix_append _ _, ?_, ?_, ?_, ?_⟩
  · exact (e.onlyDeclares_emit ctx.registry ctx.symbols).mem_live hwell
  · simp
  · intro hcode hlive
    refine hfails.mpr (Classical.byContradiction fun hnot => ?_)
    rcases Expression.leavesTrace_emit hwell hnot with hsome | ⟨entry, hentry, hnew⟩
    · exact hsome (List.append_right_eq_self.mp hcode)
    · exact hnew (hlive ▸ hentry)
  · intro h
    obtain ⟨d, hrun⟩ := (hfails.mp h).run_emit
    simp [hrun]

theorem snd_compileTokens {tokens : List Token} (hne : tokens ≠ []) :
    (ctx.compileTokens tokens).2 =
      (ctx.emit ((Expression.ofTokens tokens).emit ctx.registry)).2 := by
  cases tokens with
  | nil => exact absurd rfl hne
  | cons first rest =>
      rw [compileTokens]
      rcases ctx.emit ((Expression.ofTokens (first :: rest)).emit ctx.registry) with
        ⟨d | value, ctx'⟩
      · rfl
      · dsimp only
        split <;> rfl

theorem leftBy_of_compilePiece_error (hwell : ctx.symbols.WellFormed) {piece : Piece}
    {d : Diagnostic} (h : ctx.compilePiece piece.kind piece.text = (.error d, ctx')) :
    ctx.LeftBy piece ctx' := by
  cases hkind : piece.kind with
  | function =>
      rw [hkind, compilePiece] at h
      split at h <;> cases h
      exact leftBy_self fun hstatement => by cases hkind.symm.trans hstatement
  | statement =>
      rw [hkind, compilePiece] at h
      split at h
      · rename_i hnone
        cases h
        exact leftBy_self fun _ tokens htokens => by cases hnone.symm.trans htokens
      · rename_i tokens htokens
        by_cases hempty : dropTerminator tokens = []
        · rw [hempty] at h
          cases h
        · -- The context is the same whether emission failed or the value is not wanted.
          obtain rfl : ctx' = _ := (congrArg Prod.snd h).symm.trans (snd_compileTokens hempty)
          exact leftBy_emit hwell hkind htokens

/-- Where pieces fail, the ones before the failing piece were compiled. -/
theorem exists_failing_of_compilePieces {pieces : List Piece} {d : Diagnostic}
    (h : ctx.compilePieces pieces = (.error d, ctx')) :
    ∃ before piece behind middle d', pieces = before ++ piece :: behind ∧
      ctx.compilePieces before = (.ok (), middle) ∧
      middle.compilePiece piece.kind piece.text = (.error d', ctx') ∧
      d = d'.mapPos (· + piece.start) := by
  induction pieces generalizing ctx with
  | nil => cases h
  | cons piece pieces ih =>
      rw [compilePieces] at h
      split at h
      · rename_i d' failed hpiece
        cases h
        exact ⟨[], piece, pieces, ctx, d', rfl, rfl, hpiece, rfl⟩
      · rename_i next hpiece
        obtain ⟨before, failing, behind, middle, d', rfl, hbefore, hfails, hd⟩ := ih h
        refine ⟨piece :: before, failing, behind, middle, d', rfl, ?_, hfails, hd⟩
        rw [compilePieces, hpiece]
        exact hbefore

/-- A script that fails in one of its pieces leaves the context to which the pieces before have
brought it, with what the failing piece did up to its failure. -/
theorem compile_error_leftBy {source : List Char} {stripped : Stripped} {pieces : List Piece}
    {d : Diagnostic} (hpieces : piecesOf source = .ok (stripped, pieces))
    (herror : ctx.compile source = (.error d, ctx')) :
    ∃ before piece behind middle d', pieces = before ++ piece :: behind ∧
      ctx.reset.compilePieces before = (.ok (), middle) ∧
      middle.compilePiece piece.kind piece.text = (.error d', ctx') ∧
      d = stripped.locate source (d'.mapPos (· + piece.start)) ∧ middle.LeftBy piece ctx' := by
  rw [compile, hpieces] at herror
  dsimp only at herror
  split at herror
  · rename_i hfailed
    cases herror
    obtain ⟨before, piece, behind, middle, d', hsplit, hbefore, hpiece, rfl⟩ :=
      exists_failing_of_compilePieces hfailed
    refine ⟨before, piece, behind, middle, d', hsplit, hbefore, hpiece, rfl, ?_⟩
    have hdeclared := ctx.reset.declarations_compilePieces before
    rw [hbefore] at hdeclared
    exact leftBy_of_compilePiece_error (hdeclared.wellFormed SymbolTable.wellFormed_empty) hpiece
  · cases herror

/-- The third piece of four fails for its value, after all of its code was emitted. -/
theorem compile_error_leftBy_unusedValue :
    ∃ stripped pieces d ctx', piecesOf "int32 a = 1; func: f() \x7b\x7d a + 2; int32 c;".toList =
        .ok (stripped, pieces) ∧ pieces.length = 4 ∧
      compile { registry := .builtins } "int32 a = 1; func: f() \x7b\x7d a + 2; int32 c;".toList =
        (.error d, ctx') ∧
      ctx'.code = [.constInt 1, .store 0, .load 0, .constInt 2, .add] ∧
      ∃ before piece behind middle d', pieces = before ++ piece :: behind ∧
        compilePieces { registry := .builtins } before = (.ok (), middle) ∧
        middle.compilePiece piece.kind piece.text = (.error d', ctx') ∧
        d = stripped.locate "int32 a = 1; func: f() \x7b\x7d a + 2; int32 c;".toList
          (d'.mapPos (· + piece.start)) ∧ middle.LeftBy piece ctx' := by
  generalize hsource : "int32 a = 1; func: f() \x7b\x7d a + 2; int32 c;".toList = source
  have hlength : (piecesOf source).toOption.map (·.2.length) = some 4 := by
    rw [← hsource]
    decide +kernel
  have hfails : (compile { registry := .builtins } source).1.toOption = none ∧
      (compile { registry := .builtins } source).2.code =
        [.constInt 1, .store 0, .load 0, .constInt 2, .add] := by
    rw [← hsource]
    decide +kernel
  obtain ⟨⟨stripped, pieces⟩, hpieces, hfour⟩ := Option.map_eq_some_iff.mp hlength
  rw [toOption_eq_some_iff] at hpieces
  rcases hcompile : compile { registry := .builtins } source with ⟨d | c, ctx'⟩
  · rw [hcompile] at hfails
    exact ⟨stripped, pieces, d, ctx', hpieces, hfour, rfl, hfails.2,
      compile_error_leftBy hpieces hcompile⟩
  · rw [hcompile] at hfails
    cases hfails.1

/-- The only statement of the script fails at its last operand. The variable stays declared and the
constant emitted, although no piece before has been compiled. -/
theorem compile_error_keeps_half_statement :
    ∃ stripped piece d ctx', piecesOf "int32 a = 1 + b;".toList = .ok (stripped, [piece]) ∧
      compile { registry := .builtins } "int32 a = 1 + b;".toList = (.error d, ctx') ∧
      ctx'.code = [.constInt 1] ∧ ctx'.symbols.live = [(0, ⟨"a", .int32⟩)] := by
  generalize hsource : "int32 a = 1 + b;".toList = source
  have hlength : (piecesOf source).toOption.map (·.2.length) = some 1 := by
    rw [← hsource]
    decide +kernel
  have hfails : (compile { registry := .builtins } source).1.toOption = none ∧
      (compile { registry := .builtins } source).2.code = [.constInt 1] ∧
      (compile { registry := .builtins } source).2.symbols.live = [(0, ⟨"a", .int32⟩)] := by
    rw [← hsource]
    decide +kernel
  obtain ⟨⟨stripped, pieces⟩, hpieces, hone⟩ := Option.map_eq_some_iff.mp hlength
  obtain ⟨piece, rfl⟩ := List.length_eq_one_iff.mp hone
  rw [toOption_eq_some_iff] at hpieces
  rcases hcompile : compile { registry := .builtins } source with ⟨d | c, ctx'⟩
  · rw [hcompile] at hfails
    exact ⟨stripped, piece, d, ctx', hpieces, rfl, hfails.2.1, hfails.2.2⟩
  · rw [hcompile] at hfails
    cases hfails.1

end Context

end StackScript
