import StackScript.Proofs.Acceptance

/-! # Scripts that compile

A script is read as the statements outside of its functions. One that compiles is well typed from
the empty table on, and its code is the code of its statements, one behind the other. -/

namespace StackScript

open Delimiter

/-! ## Reading -/

/-- The tokens of the statements among some pieces. -/
def Piece.statements : List Piece → Except Diagnostic (List (List Token))
  | [] => .ok []
  | piece :: pieces =>
      match piece.kind with
      | .function => statements pieces
      | .statement => do
          let tokens ← balancedTokens piece.text
          let rest ← statements pieces
          return dropTerminator tokens :: rest

/-- The tokens of the statements of a script. -/
def globalStatements (source : List Char) : Except Diagnostic (List (List Token)) := do
  let (_, pieces) ← Context.piecesOf source
  Piece.statements pieces

/-- A program is a list of statements; nothing stands for one without tokens. -/
inductive Program.Derives : List (List Token) → List Statement → Prop where
  | nil : Derives [] []
  | blank {rest : List (List Token)} {program : List Statement} :
      Derives rest program → Derives ([] :: rest) program
  | statement {tokens : List Token} {rest : List (List Token)} {st : Statement}
      {program : List Statement} :
      Statement.Derives tokens st → Derives rest program →
      Derives (tokens :: rest) (st :: program)

theorem Program.Derives.unique {statements : List (List Token)} {p q : List Statement}
    (hp : Derives statements p) (hq : Derives statements q) : p = q := by
  induction hp generalizing q with
  | nil =>
      cases hq
      rfl
  | blank _ ih =>
      cases hq with
      | blank hq => exact ih hq
      | statement hst _ => exact absurd rfl hst.ne_nil
  | statement hst _ ih =>
      cases hq with
      | blank _ => exact absurd rfl hst.ne_nil
      | statement hst' hq => rw [hst.unique hst', ih hq]

/-! ## Typing and code -/

def Statement.isValue : Statement → Bool
  | value _ => true
  | assignment .. | declaration .. => false

namespace Program

variable (registry : Registry)

/-- The table behind a program. -/
def after : SymbolTable → List Statement → SymbolTable
  | table, [] => table
  | table, st :: program => after (st.after registry table) program

/-- Every statement is well typed where it stands, and none leaves a value. -/
def WellTyped : SymbolTable → List Statement → Prop
  | _, [] => True
  | table, st :: program =>
      st.WellTyped registry table ∧ st.isValue = false ∧
        WellTyped (st.after registry table) program

def code : SymbolTable → List Statement → List Instr
  | _, [] => []
  | table, st :: program => st.code registry table ++ code (st.after registry table) program

end Program

section

variable {registry : Registry} {table : SymbolTable} {st : Statement}

theorem Statement.WellTyped.isVoid_result (h : table.DeclaredFrom registry)
    (hst : st.WellTyped registry table) :
    (st.result registry table).ty.isVoid = !st.isValue := by
  cases st with
  | assignment p a => rfl
  | declaration ty x => rfl
  | value a => exact (Term.WellTyped.result h hst).2.2

theorem Statement.WellTyped.declaredFrom (h : table.DeclaredFrom registry)
    (hst : st.WellTyped registry table) : (st.after registry table).DeclaredFrom registry := by
  cases st with
  | assignment p a => exact Place.WellTyped.declaredFrom hst.1 h
  | declaration ty x => exact Place.WellTyped.declaredFrom (p := .declaration ty x) hst h
  | value a => exact h

theorem Program.WellTyped.declaredFrom (h : table.DeclaredFrom registry)
    {program : List Statement} (hp : WellTyped registry table program) :
    (after registry table program).DeclaredFrom registry := by
  induction program generalizing table with
  | nil => exact h
  | cons st program ih => exact ih (hp.1.declaredFrom h) hp.2.2

end

/-! ## Compiling -/

namespace Context

variable {ctx ctx' : Context} {u : Unit}

theorem compileTokens_eq_ok_iff {tokens : List Token} (hne : tokens ≠ []) :
    ctx.compileTokens tokens = (.ok u, ctx') ↔
      ∃ v, ctx.emit ((Expression.ofTokens tokens).emit ctx.registry) = (.ok v, ctx') ∧
        v.ty.isVoid = true := by
  cases tokens with
  | nil => exact absurd rfl hne
  | cons first rest =>
      rw [compileTokens]
      generalize ctx.emit ((Expression.ofTokens (first :: rest)).emit ctx.registry) = outcome
      obtain ⟨d | v, next⟩ := outcome
      · simp
      · by_cases hvoid : v.ty.isVoid = true
        · simp [hvoid, and_assoc]
        · simp [hvoid]

theorem compileTokens_eq_ok (h : ctx.symbols.DeclaredFrom ctx.registry) {tokens : List Token}
    (hb : IsBalanced Token.parenthesis tokens) (hok : ctx.compileTokens tokens = (.ok u, ctx')) :
    tokens = [] ∧ ctx' = ctx ∨ ∃ st, Statement.Derives tokens st ∧
      st.WellTyped ctx.registry ctx.symbols ∧ st.isValue = false ∧ ctx' = ctx.append st := by
  by_cases hnil : tokens = []
  · subst hnil
    cases hok
    exact .inl ⟨rfl, rfl⟩
  · obtain ⟨v, hemit, hvoid⟩ := (compileTokens_eq_ok_iff hnil).mp hok
    obtain ⟨st, hst, hwell, rfl, rfl⟩ := (emit_ofTokens_eq_ok_iff h hb).mp hemit
    rw [hwell.isVoid_result h, Bool.not_eq_true'] at hvoid
    exact .inr ⟨st, hst, hwell, hvoid, rfl⟩

/-- A function leaves its signature only. -/
theorem compilePiece_function_eq_ok {text : List Char}
    (hok : ctx.compilePiece .function text = (.ok u, ctx')) :
    ∃ functions, ctx' = { ctx with functions } := by
  simp only [compilePiece] at hok
  split at hok
  · cases hok
  · cases hok
    exact ⟨_, rfl⟩

theorem compilePiece_statement_eq_ok_iff {text : List Char} :
    ctx.compilePiece .statement text = (.ok u, ctx') ↔ ∃ tokens, balancedTokens text = .ok tokens ∧
      ctx.compileTokens (dropTerminator tokens) = (.ok u, ctx') := by
  simp only [compilePiece]
  cases balancedTokens text <;> simp

/-- A statement leaves nothing if it is blank. Otherwise it is well typed, and it is appended. -/
theorem compilePiece_statement_cases (h : ctx.symbols.DeclaredFrom ctx.registry) {text : List Char}
    (hok : ctx.compilePiece .statement text = (.ok u, ctx')) :
    ∃ tokens, balancedTokens text = .ok tokens ∧
      (dropTerminator tokens = [] ∧ ctx' = ctx ∨
        ∃ st, Statement.Derives (dropTerminator tokens) st ∧
          st.WellTyped ctx.registry ctx.symbols ∧ st.isValue = false ∧ ctx' = ctx.append st) := by
  obtain ⟨tokens, htokens, hcompile⟩ := compilePiece_statement_eq_ok_iff.mp hok
  have hb := balanced_dropTerminator (balancedTokens_eq_ok_iff.mp htokens).2
  exact ⟨tokens, htokens, compileTokens_eq_ok h hb hcompile⟩

theorem compilePieces_cons_eq_ok {piece : Piece} {pieces : List Piece}
    (hok : ctx.compilePieces (piece :: pieces) = (.ok u, ctx')) :
    ∃ middle, ctx.compilePiece piece.kind piece.text = (.ok (), middle) ∧
      middle.compilePieces pieces = (.ok u, ctx') := by
  simp only [compilePieces] at hok
  split at hok
  · cases hok
  · rename_i middle hpiece
    exact ⟨middle, hpiece, hok⟩

/-- Pieces that compile are a well-typed program, whose code is appended. -/
theorem compilePieces_eq_ok (h : ctx.symbols.DeclaredFrom ctx.registry) {pieces : List Piece}
    (hok : ctx.compilePieces pieces = (.ok u, ctx')) :
    ∃ statements program, Piece.statements pieces = .ok statements ∧
      Program.Derives statements program ∧ Program.WellTyped ctx.registry ctx.symbols program ∧
      ctx'.registry = ctx.registry ∧
      ctx'.symbols = Program.after ctx.registry ctx.symbols program ∧
      ctx'.code = ctx.code ++ Program.code ctx.registry ctx.symbols program := by
  induction pieces generalizing ctx with
  | nil =>
      cases hok
      exact ⟨[], [], rfl, .nil, trivial, rfl, rfl, by simp [Program.code]⟩
  | cons piece pieces ih =>
      obtain ⟨kind, start, text⟩ := piece
      obtain ⟨middle, hpiece, hrest⟩ := compilePieces_cons_eq_ok hok
      cases kind with
      | function =>
          obtain ⟨functions, rfl⟩ := compilePiece_function_eq_ok hpiece
          obtain ⟨statements, hstatements⟩ := @ih { ctx with functions } h hrest
          exact ⟨statements, hstatements⟩
      | statement =>
          obtain ⟨tokens, htokens, hcases⟩ := compilePiece_statement_cases h hpiece
          have hcons : ∀ {statements}, Piece.statements pieces = .ok statements →
              Piece.statements (⟨.statement, start, text⟩ :: pieces) =
                .ok (dropTerminator tokens :: statements) := by
            intro statements hstatements
            simp [Piece.statements, htokens, hstatements, bind, Except.bind, pure, Except.pure]
          rcases hcases with ⟨hnil, rfl⟩ | ⟨st, hst, hwell, hvoid, rfl⟩
          · obtain ⟨statements, program, hstatements, hderives, hprogram⟩ := ih h hrest
            exact ⟨_, program, hcons hstatements, hnil ▸ .blank hderives, hprogram⟩
          · obtain ⟨statements, program, hstatements, hderives, htyped, hregistry, hsymbols,
              hcode⟩ := ih (hwell.declaredFrom h) hrest
            refine ⟨_, st :: program, hcons hstatements, .statement hst hderives,
              ⟨hwell, hvoid, htyped⟩, hregistry, hsymbols, ?_⟩
            rw [hcode]
            simp [append, Program.code]

/-- A script that compiles is a well-typed program over the registry alone. -/
theorem compile_eq_ok {source : List Char} {c : Compilation}
    (hok : ctx.compile source = (.ok c, ctx')) :
    ∃ statements program, globalStatements source = .ok statements ∧
      Program.Derives statements program ∧ Program.WellTyped ctx.registry {} program ∧
      c = ctx'.compilation ∧ ctx'.registry = ctx.registry ∧
      ctx'.symbols = Program.after ctx.registry {} program ∧
      ctx'.code = Program.code ctx.registry {} program := by
  unfold compile at hok
  split at hok
  · cases hok
  · rename_i stripped pieces hpieces
    split at hok
    · cases hok
    · rename_i last hcompile
      cases hok
      obtain ⟨statements, program, hstatements, hderives, htyped, hrest⟩ :=
        compilePieces_eq_ok .empty hcompile
      refine ⟨statements, program, ?_, hderives, htyped, rfl, hrest⟩
      simp [globalStatements, hpieces, hstatements, bind, Except.bind]

end Context

end StackScript
