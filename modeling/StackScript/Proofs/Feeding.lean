import StackScript.Proofs.Bracketing
import StackScript.Proofs.Script
import StackScript.Proofs.Segmentation

/-! # Scripts one statement at a time

A script without functions compiles exactly when its statements do that are fed one by one. The
brackets of the whole script need no check then: they match in every statement that compiles. -/

namespace StackScript

open Delimiter

/-! ## Blank statements -/

theorem Lexeme.Form.eq_of_semicolon {chars : List Char} (h : Form .semicolon chars) :
    chars = [';'] := by
  cases h with
  | @symbol c _ h => simpa [symbols] using h
  | plain h _ => simp at h

theorem eq_of_dropTerminator_eq_nil {tokens : List Token} (h : dropTerminator tokens = []) :
    tokens = [] ∨ ∃ token, tokens = [token] ∧ token.kind = .semicolon := by
  rcases dropTerminator_cases tokens with hsame | ⟨last, hkind, htokens⟩
  · exact .inl (hsame.symm.trans h)
  · rw [h] at htokens
    exact .inr ⟨last, htokens, hkind⟩

namespace Piece

/-- Whether nothing but blanks stands before the semicolon of a statement. -/
def isBlank (piece : Piece) : Bool := (piece.text.takeWhile (· != ';')).all Text.isAsciiBlank

/-- The texts of the statements that are not blank. -/
def nonblankTexts (pieces : List Piece) : List (List Char) :=
  (pieces.filter fun piece => !piece.isBlank).map Piece.text

theorem Shape.isBlank_iff {piece : Piece} (h : Shape .statement piece.text) :
    piece.isBlank = true ↔ piece.text = [';'] := by
  rw [isBlank]
  generalize piece.text = text at h
  cases h with
  | @statement body hhead _ hbody =>
      rw [takeWhile_ne_semicolon hbody]
      cases body with
      | nil => simp
      | cons c cs => simp [hhead c rfl]

theorem Shape.eq_nil_of_semicolon {rest : List Char} (h : Shape .statement (';' :: rest)) :
    rest = [] := by
  generalize htext : ';' :: rest = text at h
  cases h with
  | @statement body _ _ hbody =>
      cases body with
      | nil => exact (List.cons.inj htext).2
      | cons c cs =>
          rw [← (List.cons.inj htext).1] at hbody
          exact absurd List.mem_cons_self hbody

/-- A statement that is not blank has a token before its semicolon. -/
theorem Shape.dropTerminator_ne_nil {text : List Char} {tokens : List Token}
    (h : Shape .statement text) (hne : text ≠ [';']) (hspelled : Spelled text tokens) :
    dropTerminator tokens ≠ [] := by
  intro hnil
  obtain ⟨c, cs, htext, hc⟩ := h.exists_cons
  have hblank : ∀ gap : List Char, (∀ d ∈ gap, Text.isTokenBlank d = true) → c ∉ gap := by
    intro gap hgap hmem
    rw [Text.isAsciiBlank, hgap c hmem, Bool.true_or] at hc
    cases hc
  rcases eq_of_dropTerminator_eq_nil hnil with rfl | ⟨token, rfl, hkind⟩
  · cases hspelled with
    | nil hgap => exact hblank text hgap (by simp [htext])
  · cases hspelled with
    | @cons gap chars rest _ _ hgap hform _ =>
        rw [hkind] at hform
        obtain rfl := hform.eq_of_semicolon
        cases gap with
        | nil =>
            obtain rfl : rest = [] := h.eq_nil_of_semicolon
            exact hne rfl
        | cons d gap =>
            rw [← (List.cons.inj htext).1] at hblank
            exact hblank _ hgap List.mem_cons_self

end Piece

/-! ## Statements -/

namespace Context

variable {ctx ctx' : Context}

/-- As a piece of a script, a statement compiles when it does so by itself and leaves no value. -/
theorem compilePiece_eq_ok_iff_compileStatement {text : List Char}
    (h : Piece.Shape .statement text) (hne : text ≠ [';']) :
    ctx.compilePiece .statement text = (.ok (), ctx') ↔
      ∃ v, ctx.compileStatement text = (.ok v, ctx') ∧ v.ty.isVoid = true := by
  simp only [compilePiece_statement_eq_ok_iff, compileStatement_eq_ok_iff_emit]
  constructor
  · rintro ⟨tokens, htokens, hcompile⟩
    have hspelled := spelled_of_tokenize (balancedTokens_eq_ok_iff.mp htokens).1
    have htoken := h.dropTerminator_ne_nil hne hspelled
    obtain ⟨v, hemit, hvoid⟩ := (compileTokens_eq_ok_iff htoken).mp hcompile
    exact ⟨v, ⟨tokens, htokens, htoken, hemit⟩, hvoid⟩
  · rintro ⟨v, ⟨tokens, htokens, htoken, hemit⟩, hvoid⟩
    exact ⟨tokens, htokens, (compileTokens_eq_ok_iff htoken).mpr ⟨v, hemit, hvoid⟩⟩

theorem compilePiece_blank (ctx : Context) : ctx.compilePiece .statement [';'] = (.ok (), ctx) := by
  have htokens : balancedTokens [';'] = .ok [⟨.semicolon, 0, ";", ""⟩] :=
    toOption_eq_some_iff.mp (by decide +kernel)
  exact compilePiece_statement_eq_ok_iff.mpr ⟨_, htokens, rfl⟩

/-! ## One by one -/

/-- Compile statements one behind the other, whether those before them fail or not. -/
def feed (ctx : Context) : List (List Char) → List (Except Diagnostic Value) × Context
  | [] => ([], ctx)
  | text :: texts =>
      let fed := (ctx.compileStatement text).2.feed texts
      ((ctx.compileStatement text).1 :: fed.1, fed.2)

/-- Every statement was compiled, and none of them left a value. -/
def AllVoid (results : List (Except Diagnostic Value)) : Prop :=
  ∀ result ∈ results, ∃ v, result = .ok v ∧ v.ty.isVoid = true

/-- Statements as pieces of a script, and the same statements one by one. -/
theorem compilePieces_eq_ok_iff_feed {pieces : List Piece}
    (h : ∀ piece ∈ pieces, piece.kind = .statement ∧ Piece.Shape .statement piece.text) :
    ctx.compilePieces pieces = (.ok (), ctx') ↔
      AllVoid (ctx.feed (Piece.nonblankTexts pieces)).1 ∧
        (ctx.feed (Piece.nonblankTexts pieces)).2 = ctx' := by
  induction pieces generalizing ctx with
  | nil => simp [compilePieces, Piece.nonblankTexts, feed, AllVoid]
  | cons piece pieces ih =>
      obtain ⟨⟨hkind, hshape⟩, hpieces⟩ := List.forall_mem_cons.mp h
      -- A blank statement is not fed, and as a piece it leaves the context as it is.
      by_cases hblank : piece.isBlank = true
      · have htexts : Piece.nonblankTexts (piece :: pieces) = Piece.nonblankTexts pieces := by
          simp [Piece.nonblankTexts, hblank]
        have hpiece : ctx.compilePiece piece.kind piece.text = (.ok (), ctx) := by
          rw [hkind, hshape.isBlank_iff.mp hblank, compilePiece_blank]
        simp only [compilePieces, hpiece, htexts]
        exact ih hpieces
      · have htexts : Piece.nonblankTexts (piece :: pieces) =
            piece.text :: Piece.nonblankTexts pieces := by
          simp [Piece.nonblankTexts, hblank]
        have hiff : ∀ {next}, ctx.compilePiece piece.kind piece.text = (.ok (), next) ↔
            ∃ v, ctx.compileStatement piece.text = (.ok v, next) ∧ v.ty.isVoid = true := by
          rw [hkind]
          exact compilePiece_eq_ok_iff_compileStatement hshape
            fun htext => hblank (hshape.isBlank_iff.mpr htext)
        simp only [htexts, feed, AllVoid, List.forall_mem_cons]
        constructor
        · intro hok
          obtain ⟨middle, hpiece, hrest⟩ := compilePieces_cons_eq_ok hok
          obtain ⟨v, hstatement, hvoid⟩ := hiff.mp hpiece
          obtain ⟨hresults, hlast⟩ := (ih hpieces).mp hrest
          rw [hstatement]
          exact ⟨⟨⟨v, rfl, hvoid⟩, hresults⟩, hlast⟩
        · rintro ⟨⟨⟨v, hv, hvoid⟩, hresults⟩, hlast⟩
          have hpiece := hiff.mpr ⟨v, Prod.ext hv rfl, hvoid⟩
          simp only [compilePieces, hpiece]
          exact (ih hpieces).mpr ⟨hresults, hlast⟩

theorem functions_compileStatement (ctx : Context) (text : List Char) :
    (ctx.compileStatement text).2.functions = ctx.functions := by
  unfold compileStatement
  split
  · rfl
  · rename_i tokens _
    rw [emit]
    cases (((Expression.ofTokens tokens).emit ctx.registry).run ctx.symbols).result <;> rfl

theorem functions_feed (ctx : Context) (texts : List (List Char)) :
    (ctx.feed texts).2.functions = ctx.functions := by
  induction texts generalizing ctx with
  | nil => rfl
  | cons text texts ih => exact (ih _).trans (ctx.functions_compileStatement text)

/-! ## Brackets of the whole script -/

theorem brace_of_dropTerminator {tokens : List Token}
    (h : ∀ token ∈ dropTerminator tokens, token.brace = other) :
    ∀ token ∈ tokens, token.brace = other := by
  rcases dropTerminator_cases tokens with hsame | ⟨last, hkind, htokens⟩
  · rwa [← hsame]
  · rw [htokens]
    exact List.forall_mem_append.mpr ⟨h, List.forall_mem_singleton.mpr (Token.brace_eq hkind)⟩

/-- Brackets match in a statement that compiles: round ones were checked, curly ones are missing. -/
theorem isNested_of_compilePiece (h : ctx.symbols.DeclaredFrom ctx.registry) {text : List Char}
    (hok : ctx.compilePiece .statement text = (.ok (), ctx')) :
    IsNested text ∧ ctx'.symbols.DeclaredFrom ctx'.registry := by
  obtain ⟨tokens, htokens, hcases⟩ := compilePiece_statement_cases h hok
  obtain ⟨htokenize, hbalanced⟩ := balancedTokens_eq_ok_iff.mp htokens
  have hspelled := spelled_of_tokenize htokenize
  have hbraces : ∀ token ∈ tokens, token.brace = other := by
    apply brace_of_dropTerminator
    rcases hcases with ⟨hnil, -⟩ | ⟨st, hst, -⟩
    · simp [hnil]
    · exact hst.brace_eq_other
  refine ⟨⟨(isBalanced_parenthesis_iff hspelled).mpr hbalanced,
    (isBalanced_brace_iff hspelled).mpr (depthAfter_of_other hbraces 0)⟩, ?_⟩
  rcases hcases with ⟨-, rfl⟩ | ⟨st, -, hwell, -, rfl⟩
  · exact h
  · exact hwell.declaredFrom h

theorem isNested_of_compilePieces (h : ctx.symbols.DeclaredFrom ctx.registry)
    {pieces : List Piece} (hkinds : ∀ piece ∈ pieces, piece.kind = .statement)
    (hok : ctx.compilePieces pieces = (.ok (), ctx')) :
    ∀ piece ∈ pieces, IsNested piece.text := by
  induction pieces generalizing ctx with
  | nil => simp
  | cons piece pieces ih =>
      obtain ⟨hkind, hrestKinds⟩ := List.forall_mem_cons.mp hkinds
      obtain ⟨middle, hpiece, hrest⟩ := compilePieces_cons_eq_ok hok
      rw [hkind] at hpiece
      obtain ⟨hnested, hdeclared⟩ := isNested_of_compilePiece h hpiece
      exact List.forall_mem_cons.mpr ⟨hnested, ih hdeclared hrestKinds hrest⟩

/-- Brackets that match in every statement match in the script. -/
theorem compile_eq_ok_iff_compilePieces {source text : List Char} {pieces : List Piece}
    (hsegments : Piece.Segments source text pieces)
    (hkinds : ∀ piece ∈ pieces, piece.kind = .statement) {c : Compilation} :
    ctx.compile source = (.ok c, ctx') ↔
      ctx.reset.compilePieces pieces = (.ok (), ctx') ∧ c = ctx'.compilation := by
  rw [compile_eq_ok_iff]
  constructor
  · rintro ⟨text', pieces', hsegments', -, hok⟩
    rwa [(hsegments.unique hsegments').2]
  · rintro ⟨hok, rfl⟩
    have hnested := hsegments.cuts.isNested (isNested_of_compilePieces .empty hkinds hok)
    exact ⟨text, pieces, hsegments, hnested, hok, rfl⟩

/-- A script without functions compiles exactly when its statements that are not blank, fed one by
one to a fresh context, all compile and leave no value. Both ways end in the same context. -/
theorem compile_isOk_iff_feed_allVoid (ctx : Context) {source text : List Char}
    {pieces : List Piece} (hsegments : Piece.Segments source text pieces)
    (hkinds : ∀ piece ∈ pieces, piece.kind = .statement) :
    ((∃ c ctx', ctx.compile source = (.ok c, ctx')) ↔
      AllVoid (feed { registry := ctx.registry } (Piece.nonblankTexts pieces)).1) ∧
    ∀ c ctx', ctx.compile source = (.ok c, ctx') →
      ctx' = (feed { registry := ctx.registry } (Piece.nonblankTexts pieces)).2 ∧
      c = ctx'.compilation ∧ ctx'.functions = [] := by
  have hshapes : ∀ piece ∈ pieces, piece.kind = .statement ∧ Piece.Shape .statement piece.text := by
    intro piece hpiece
    have hshape := hsegments.cuts.shape piece hpiece
    rw [hkinds piece hpiece] at hshape
    exact ⟨hkinds piece hpiece, hshape⟩
  have hiff : ∀ {c ctx'}, ctx.compile source = (.ok c, ctx') ↔
      (AllVoid (feed ctx.reset (Piece.nonblankTexts pieces)).1 ∧
        (feed ctx.reset (Piece.nonblankTexts pieces)).2 = ctx') ∧ c = ctx'.compilation := by
    intro c ctx'
    rw [compile_eq_ok_iff_compilePieces hsegments hkinds, compilePieces_eq_ok_iff_feed hshapes]
  constructor
  · constructor
    · rintro ⟨c, ctx', hok⟩
      exact (hiff.mp hok).1.1
    · intro hvoid
      exact ⟨_, _, hiff.mpr ⟨⟨hvoid, rfl⟩, rfl⟩⟩
  · intro c ctx' hok
    obtain ⟨⟨-, rfl⟩, hc⟩ := hiff.mp hok
    exact ⟨rfl, hc, functions_feed _ _⟩

/-- A context that is not fresh, and a blank statement and a comment in the script. -/
theorem compile_isOk_iff_feed_allVoid_blankBetween :
    ∃ text pieces c ctx', Piece.Segments "int32 a = (1 + 2) * 3; ;/* b */float b = a;".toList
        text pieces ∧
      (∀ piece ∈ pieces, piece.kind = .statement) ∧
      Piece.nonblankTexts pieces = ["int32 a = (1 + 2) * 3;".toList, "float b = a;".toList] ∧
      compile ⟨.builtins, {}, [], [.constInt 7]⟩
        "int32 a = (1 + 2) * 3; ;/* b */float b = a;".toList = (.ok c, ctx') ∧
      AllVoid (feed ⟨.builtins, {}, [], []⟩ (Piece.nonblankTexts pieces)).1 ∧
      ctx' = (feed ⟨.builtins, {}, [], []⟩ (Piece.nonblankTexts pieces)).2 ∧
      c.instrs = [.constInt 1, .constInt 2, .add, .constInt 3, .mul, .store 0, .load 0, .intToFloat,
        .store 1] := by
  have hstripped : Stripped.ofSource "int32 a = (1 + 2) * 3; ;/* b */float b = a;".toList =
      .ok ((Stripped.ofSource
        "int32 a = (1 + 2) * 3; ;/* b */float b = a;".toList).toOption.getD ⟨[], 0⟩) :=
    toOption_eq_some_iff.mp (by decide +kernel)
  have hsegments : Piece.Segments "int32 a = (1 + 2) * 3; ;/* b */float b = a;".toList
      "int32 a = (1 + 2) * 3; ; float b = a;".toList
      [⟨.statement, 0, "int32 a = (1 + 2) * 3;".toList⟩, ⟨.statement, 23, ";".toList⟩,
        ⟨.statement, 25, "float b = a;".toList⟩] :=
    ⟨_, hstripped, by decide +kernel, toOption_eq_some_iff.mp (by decide +kernel)⟩
  have hok : (compile ⟨.builtins, {}, [], [.constInt 7]⟩
      "int32 a = (1 + 2) * 3; ;/* b */float b = a;".toList).1 =
        .ok ((compile ⟨.builtins, {}, [], [.constInt 7]⟩
          "int32 a = (1 + 2) * 3; ;/* b */float b = a;".toList).1.toOption.getD ⟨[], {}, []⟩) :=
    toOption_eq_some_iff.mp (by decide +kernel)
  obtain ⟨hiff, hsame⟩ := compile_isOk_iff_feed_allVoid ⟨.builtins, {}, [], [.constInt 7]⟩
    hsegments (by decide)
  refine ⟨_, _, _, _, hsegments, by decide, by decide, Prod.ext hok rfl,
    hiff.mp ⟨_, _, Prod.ext hok rfl⟩, (hsame _ _ (Prod.ext hok rfl)).1, by decide +kernel⟩

end Context

end StackScript
