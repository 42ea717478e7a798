import StackScript.Context
import StackScript.Proofs.Emission

/-! # Statements that compile

A context compiles a statement exactly when its tokens derive from the grammar and the statement is
well typed over the variables that are there. What is appended is the code of the statement. -/

namespace StackScript

open Delimiter

/-! ## Tokens -/

theorem checkParentheses_eq_ok_iff {tokens : List Token} {u : Unit} :
    checkParentheses tokens = .ok u ↔ IsBalanced Token.parenthesis tokens := by
  rw [← imbalance?_eq_none_iff, checkParentheses]
  cases imbalance? Token.parenthesis tokens <;> simp

theorem balancedTokens_eq_ok_iff {text : List Char} {tokens : List Token} :
    balancedTokens text = .ok tokens ↔
      tokenize text = .ok tokens ∧ IsBalanced Token.parenthesis tokens := by
  simp only [balancedTokens, bind_eq_ok_iff, mapError_eq_ok_iff, checkParentheses_eq_ok_iff, pure,
    Except.pure, Except.ok.injEq]
  constructor
  · rintro ⟨_, htokens, _, hbalanced, rfl⟩
    exact ⟨htokens, hbalanced⟩
  · rintro ⟨htokens, hbalanced⟩
    exact ⟨tokens, htokens, (), hbalanced, rfl⟩

/-- What is dropped at the end of a statement, if anything, is a semicolon. -/
theorem dropTerminator_cases (tokens : List Token) :
    dropTerminator tokens = tokens ∨
      ∃ last : Token, last.kind = .semicolon ∧ tokens = dropTerminator tokens ++ [last] := by
  unfold dropTerminator
  split
  · rename_i hlast
    obtain ⟨last, hget, hkind⟩ := Option.map_eq_some_iff.mp hlast
    obtain ⟨init, rfl⟩ := List.getLast?_eq_some_iff.mp hget
    exact .inr ⟨last, hkind, by rw [List.dropLast_concat]⟩
  · exact .inl rfl

theorem balanced_dropTerminator {tokens : List Token} (h : IsBalanced Token.parenthesis tokens) :
    IsBalanced Token.parenthesis (dropTerminator tokens) := by
  rcases dropTerminator_cases tokens with hsame | ⟨last, hkind, htokens⟩
  · rwa [hsame]
  · have hother : Token.parenthesis last = .other := by
      simp [Token.parenthesis_eq_other, hkind]
    rw [htokens, IsBalanced, depthAfter_append, Option.bind_eq_some_iff] at h
    obtain ⟨depth, hinit, hdepth⟩ := h
    rw [depthAfter_cons_other hother] at hdepth
    cases hdepth
    exact hinit

/-! ## Constants of well-typed statements -/

theorem Term.WellTyped.inRange {registry : Registry} {table : SymbolTable} {a : Term}
    (h : a.WellTyped registry table) : a.InRange := by
  induction a with
  | constant value => exact h.1
  | name x => trivial
  | operation op left right ihl ihr => exact ⟨ihl h.1, ihr h.2.1⟩

theorem Statement.WellTyped.inRange {registry : Registry} {table : SymbolTable} {st : Statement}
    (h : st.WellTyped registry table) : st.InRange := by
  cases st with
  | assignment p a => exact Term.WellTyped.inRange h.2.1
  | declaration ty x => trivial
  | value a => exact Term.WellTyped.inRange h

/-! ## Statements in a context -/

namespace Context

/-- The context behind a statement. -/
def append (ctx : Context) (st : Statement) : Context :=
  { ctx with
    symbols := st.after ctx.registry ctx.symbols
    code := ctx.code ++ st.code ctx.registry ctx.symbols }

variable {ctx ctx' : Context} {v : Value}

theorem emit_ofTokens_eq_ok_iff (h : ctx.symbols.DeclaredFrom ctx.registry) {tokens : List Token}
    (hb : IsBalanced Token.parenthesis tokens) :
    ctx.emit ((Expression.ofTokens tokens).emit ctx.registry) = (.ok v, ctx') ↔
      ∃ st, Statement.Derives tokens st ∧ st.WellTyped ctx.registry ctx.symbols ∧
        v = st.result ctx.registry ctx.symbols ∧ ctx' = ctx.append st := by
  have hrun : ctx.emit ((Expression.ofTokens tokens).emit ctx.registry) = (.ok v, ctx') ↔
      ∃ table code, ((Expression.ofTokens tokens).emit ctx.registry).run ctx.symbols =
        ⟨.ok v, table, code⟩ ∧ ctx' = { ctx with symbols := table, code := ctx.code ++ code } := by
    rw [emit]
    cases ((Expression.ofTokens tokens).emit ctx.registry).run ctx.symbols with
    | mk result table code => simp [and_assoc, eq_comm]
  simp only [hrun, Expression.run_emit_eq_ok_iff h, Expression.statement?_ofTokens_iff hb]
  constructor
  · rintro ⟨table, code, ⟨st, ⟨hderives, -⟩, hwell, rfl, rfl, rfl⟩, rfl⟩
    exact ⟨st, hderives, hwell, rfl, rfl⟩
  · rintro ⟨st, hderives, hwell, rfl, rfl⟩
    exact ⟨_, _, ⟨st, ⟨hderives, hwell.inRange⟩, hwell, rfl, rfl, rfl⟩, rfl⟩

theorem statementTokens_eq_ok_iff {text : List Char} {tokens : List Token} :
    statementTokens text = .ok tokens ↔
      ∃ all, balancedTokens text = .ok all ∧ tokens = dropTerminator all ∧ tokens ≠ [] := by
  simp only [statementTokens, bind_eq_ok_iff, mapError_eq_ok_iff]
  constructor
  · rintro ⟨all, hall, htokens⟩
    split at htokens
    · cases htokens
    · rename_i hne
      cases htokens
      exact ⟨all, hall, rfl, hne⟩
  · rintro ⟨all, hall, rfl, hne⟩
    exact ⟨all, hall, by rw [if_neg hne]⟩

theorem compileStatement_eq_ok_iff_emit {text : List Char} :
    ctx.compileStatement text = (.ok v, ctx') ↔
      ∃ tokens, balancedTokens text = .ok tokens ∧ dropTerminator tokens ≠ [] ∧
        ctx.emit ((Expression.ofTokens (dropTerminator tokens)).emit ctx.registry) =
          (.ok v, ctx') := by
  constructor
  · intro h
    unfold compileStatement at h
    split at h
    · cases h
    · rename_i htokens
      obtain ⟨tokens, hall, rfl, hne⟩ := statementTokens_eq_ok_iff.mp htokens
      split at h
      · rename_i hemit
        cases h
        exact ⟨tokens, hall, hne, hemit⟩
      · cases h
  · rintro ⟨tokens, hall, hne, hemit⟩
    simp only [compileStatement, statementTokens_eq_ok_iff.mpr ⟨tokens, hall, rfl, hne⟩, hemit]

/-- A statement either compiles or leaves the context as it was. -/
theorem compileStatement_cases (ctx : Context) (text : List Char) :
    (∃ v ctx', ctx.compileStatement text = (.ok v, ctx')) ∨
      ∃ d, ctx.compileStatement text = (.error d, ctx) := by
  unfold compileStatement
  split
  · exact .inr ⟨_, rfl⟩
  · split
    · exact .inl ⟨_, _, rfl⟩
    · exact .inr ⟨_, rfl⟩

/-- What a statement that compiles stands for. -/
theorem compileStatement_eq_ok_iff (h : ctx.symbols.DeclaredFrom ctx.registry) {text : List Char} :
    ctx.compileStatement text = (.ok v, ctx') ↔
      ∃ tokens st, balancedTokens text = .ok tokens ∧ Statement.Derives (dropTerminator tokens) st ∧
        st.WellTyped ctx.registry ctx.symbols ∧ v = st.result ctx.registry ctx.symbols ∧
        ctx' = ctx.append st := by
  rw [compileStatement_eq_ok_iff_emit]
  constructor
  · rintro ⟨tokens, htokens, -, hemit⟩
    have hb := balanced_dropTerminator (balancedTokens_eq_ok_iff.mp htokens).2
    obtain ⟨st, hst⟩ := (emit_ofTokens_eq_ok_iff h hb).mp hemit
    exact ⟨tokens, st, htokens, hst⟩
  · rintro ⟨tokens, st, htokens, hst⟩
    have hb := balanced_dropTerminator (balancedTokens_eq_ok_iff.mp htokens).2
    exact ⟨tokens, htokens, hst.1.ne_nil, (emit_ofTokens_eq_ok_iff h hb).mpr ⟨st, hst⟩⟩

/-- Over variables that were declared from the registry, a statement whose brackets match compiles
exactly when it derives from the grammar and is well typed. Its value, its variable and its code
are those of the derived statement, behind what was there. -/
theorem compileStatement_isOk_iff_derives_wellTyped (h : ctx.symbols.DeclaredFrom ctx.registry)
    {text : List Char} {tokens : List Token} (htokens : tokenize text = .ok tokens)
    (hbalanced : IsBalanced Token.parenthesis tokens) :
    ((∃ v ctx', ctx.compileStatement text = (.ok v, ctx')) ↔
      ∃ st, Statement.Derives (dropTerminator tokens) st ∧
        st.WellTyped ctx.registry ctx.symbols) ∧
    ∀ st, Statement.Derives (dropTerminator tokens) st →
      st.WellTyped ctx.registry ctx.symbols →
      ctx.compileStatement text = (.ok (st.result ctx.registry ctx.symbols),
        { ctx with
          symbols := st.after ctx.registry ctx.symbols
          code := ctx.code ++ st.code ctx.registry ctx.symbols }) := by
  have hall := balancedTokens_eq_ok_iff.mpr ⟨htokens, hbalanced⟩
  have hok : ∀ st, Statement.Derives (dropTerminator tokens) st →
      st.WellTyped ctx.registry ctx.symbols →
      ctx.compileStatement text = (.ok (st.result ctx.registry ctx.symbols), ctx.append st) :=
    fun st hst hwell => (compileStatement_eq_ok_iff h).mpr ⟨tokens, st, hall, hst, hwell, rfl, rfl⟩
  refine ⟨⟨?_, ?_⟩, hok⟩
  · rintro ⟨v, ctx', hcompile⟩
    obtain ⟨tokens', st, hall', hst, hwell, -⟩ := (compileStatement_eq_ok_iff h).mp hcompile
    rw [hall, Except.ok.injEq] at hall'
    subst hall'
    exact ⟨st, hst, hwell⟩
  · rintro ⟨st, hst, hwell⟩
    exact ⟨_, _, hok st hst hwell⟩

/-- A place in brackets, declared by the statement that uses it, and converted both ways. -/
theorem compileStatement_declared_in_own_value :
    ∃ tokens st, tokenize "(float x) = (2 + 3) * -4 - x;".toList = .ok tokens ∧
      IsBalanced Token.parenthesis tokens ∧ Statement.Derives (dropTerminator tokens) st ∧
      st.WellTyped .builtins {} ∧
      st.code .builtins {} = [.constInt 2, .constInt 3, .add, .constInt (-4), .mul, .load 0,
        .floatToInt, .sub, .intToFloat, .store 0] := by
  have htokens : tokenize "(float x) = (2 + 3) * -4 - x;".toList =
      .ok ((tokenize "(float x) = (2 + 3) * -4 - x;".toList).toOption.getD []) :=
    toOption_eq_some_iff.mp (by decide +kernel)
  have hbalanced : IsBalanced Token.parenthesis
      ((tokenize "(float x) = (2 + 3) * -4 - x;".toList).toOption.getD []) := by
    unfold IsBalanced
    decide +kernel
  have hok : (compileStatement { registry := .builtins }
      "(float x) = (2 + 3) * -4 - x;".toList).1 = .ok ⟨Ty.void, some 0⟩ :=
    toOption_eq_some_iff.mp (by decide +kernel)
  have hcode : (compileStatement { registry := .builtins }
      "(float x) = (2 + 3) * -4 - x;".toList).2.code = [.constInt 2, .constInt 3, .add,
        .constInt (-4), .mul, .load 0, .floatToInt, .sub, .intToFloat, .store 0] := by
    decide +kernel
  have hiff := @compileStatement_isOk_iff_derives_wellTyped { registry := .builtins } .empty _ _
    htokens hbalanced
  obtain ⟨st, hst, hwell⟩ := hiff.1.mp ⟨_, _, Prod.ext hok rfl⟩
  rw [hiff.2 st hst hwell] at hcode
  exact ⟨_, st, htokens, hbalanced, hst, hwell, hcode⟩

end Context

end StackScript
