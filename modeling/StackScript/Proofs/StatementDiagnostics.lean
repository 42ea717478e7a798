import StackScript.Proofs.Pointing

/-! # Diagnostics of a statement

The tree of a statement keeps tokens, offsets of operators, and diagnostics where the tokens make no
sense. All of these come from the text of the statement, so what goes wrong when the tree is
compiled is reported at a place in that text. -/

namespace StackScript

open Delimiter

/-! ## Expressions -/

section Expressions

variable {text : List Char}

theorem mem_of_mem_stripParentheses {tokens : List Token} {token : Token}
    (h : token ∈ stripParentheses tokens) : token ∈ tokens := by
  fun_induction stripParentheses tokens with
  | case1 tokens _ ih => exact List.mem_of_mem_tail ((List.dropLast_sublist _).subset (ih h))
  | case2 tokens _ => exact h

theorem TokensIn.split? {tokens : List Token} {s : Split} (h : TokensIn text tokens)
    (hsplit : split? (stripParentheses tokens) = some s) :
    Text.WordAt text s.op.symbol.toList s.token.start ∧ TokensIn text s.left ∧
      TokensIn text s.right := by
  have hinner := balanced_stripParentheses.mpr h.balanced
  have hs := (split?_eq_some_iff hinner s).mp hsplit
  have hstand : ∀ token ∈ s.left ++ s.token :: s.right, token.StandsIn text := by
    intro token htoken
    rw [← hs.tokens_eq] at htoken
    exact h.stand token (mem_of_mem_stripParentheses htoken)
  refine ⟨?_, ⟨hs.balanced, ?_⟩, ⟨hs.balanced_right hinner, ?_⟩⟩
  · exact (hstand s.token (by simp)).symbolAt hs.operator
  · exact fun token htoken => hstand token (by simp [htoken])
  · exact fun token htoken => hstand token (by simp [htoken])

def Target.StandsIn (text : List Char) : Target → Prop
  | .name token => token.StandsIn text
  | .declaration tokens => tokens ≠ [] ∧ ∀ token ∈ tokens, token.StandsIn text

/-- What the tree keeps of the tokens stands in the text. -/
def Expression.StandsIn (text : List Char) : Expression → Prop
  | .literal _ _ => True
  | .name token => token.StandsIn text
  | .declaration tokens => tokens ≠ [] ∧ ∀ token ∈ tokens, token.StandsIn text
  | .assignment target value _ => target.StandsIn text ∧ value.StandsIn text
  | .arithmetic op pos left right =>
      Text.WordAt text (Operator.arithmetic op).symbol.toList pos ∧
        left.StandsIn text ∧ right.StandsIn text
  | .malformed error => error.PointsInto text

namespace Expression

theorem standsIn_ofLiteral (negative : Bool) (digits : Token) (pos : Nat) :
    (ofLiteral negative digits pos).StandsIn text := by
  simp only [ofLiteral]
  generalize (if negative = true then -(Literal.value digits.text.toList : Int)
    else Literal.value digits.text.toList) = value
  split
  · trivial
  · exact Cause.pointsInto_unmarked rfl rfl

theorem standsIn_notAnOperand (tokens : List Token) : (notAnOperand tokens).StandsIn text :=
  Cause.pointsInto_unmarked rfl rfl

theorem standsIn_ofOperand {tokens : List Token} (h : ∀ token ∈ tokens, token.StandsIn text) :
    (ofOperand tokens).StandsIn text := by
  unfold ofOperand
  split
  · split
    · exact h _ List.mem_cons_self
    · split
      · exact standsIn_ofLiteral _ _ _
      · exact standsIn_notAnOperand _
  · split
    · exact standsIn_ofLiteral _ _ _
    · split
      · exact ⟨nofun, h⟩
      · exact standsIn_notAnOperand _
  · exact standsIn_notAnOperand _

theorem standsIn_target? {tokens : List Token} {target : Target}
    (h : ∀ token ∈ tokens, token.StandsIn text) (htarget : target? tokens = some target) :
    target.StandsIn text := by
  have hinner : ∀ token ∈ stripParentheses tokens, token.StandsIn text :=
    fun token htoken => h token (mem_of_mem_stripParentheses htoken)
  unfold target? at htarget
  split at htarget
  · rename_i token htokens
    split at htarget
    · cases htarget
      exact hinner token (by simp [htokens])
    · cases htarget
  · rename_i first second rest htokens
    split at htarget
    · cases htarget
      exact ⟨nofun, htokens ▸ hinner⟩
    · cases htarget
  · cases htarget

/-- The tree of tokens that stand in the text. -/
theorem standsIn_ofTokens {tokens : List Token} (h : TokensIn text tokens) :
    (ofTokens tokens).StandsIn text := by
  fun_induction ofTokens tokens with
  | case1 tokens hnil => exact standsIn_notAnOperand tokens
  | case2 tokens hne hsplit =>
      exact standsIn_ofOperand fun token htoken =>
        h.stand token (mem_of_mem_stripParentheses htoken)
  | case3 tokens hne s hsplit _ hleft =>
      exact Cause.pointsInto_marked rfl (h.split? hsplit).1
  | case4 tokens hne s hsplit _ hleft hright => exact Cause.pointsInto_unmarked rfl rfl
  | case5 tokens hne s hsplit _ hleft hright op hop ihl ihr =>
      obtain ⟨hsymbol, htokens, htokens'⟩ := h.split? hsplit
      rw [hop] at hsymbol
      exact ⟨hsymbol, ihl htokens, ihr htokens'⟩
  | case6 tokens hne s hsplit _ hleft hright hop htarget =>
      have hsymbol := (h.split? hsplit).1
      rw [hop] at hsymbol
      exact Cause.pointsInto_marked rfl hsymbol
  | case7 tokens hne s hsplit _ hleft hright hop target htarget ih =>
      obtain ⟨-, htokens, htokens'⟩ := h.split? hsplit
      exact ⟨standsIn_target? htokens.stand htarget, ih htokens'⟩

end Expression

end Expressions

/-! ## Emission -/

section Emission

variable {text : List Char} {α β : Type}

/-- Over any variables, the computation fails only with diagnostics that point into the text. -/
def Emit.Points (text : List Char) (m : Emit α) : Prop :=
  ∀ table, FailsIn text (m.run table).result

namespace Emit

theorem points_pure (a : α) : Points text (pure a) := fun _ => failsIn_ok a

theorem points_fail {d : Diagnostic} (h : d.PointsInto text) : Points text (fail d : Emit α) :=
  fun _ => failsIn_error h

theorem points_instr (i : Instr) : Points text (instr i) := fun _ => failsIn_ok ()

theorem points_symbols : Points text symbols := fun table => failsIn_ok table

theorem Points.bind {m : Emit α} {next : α → Emit β} (h : Points text m)
    (hnext : ∀ a, Points text (next a)) : Points text (m >>= next) := by
  intro table
  have hrun := h table
  rw [run_bind]
  generalize m.run table = e at hrun ⊢
  obtain ⟨d | a, table', code⟩ := e
  · exact failsIn_error (hrun d rfl)
  · exact hnext a table'

/-- A variable is refused because of its name, or because there are too many. -/
theorem points_declare {token : Token} (ty : Ty) (h : token.StandsIn text) :
    Points text (declare token.text ty token.start) := by
  intro table
  simp only [declare]
  cases hdeclare : table.declare token.text ty with
  | ok declared => exact failsIn_ok declared.1
  | error cause =>
      apply failsIn_error
      unfold SymbolTable.declare at hdeclare
      split at hdeclare
      · cases hdeclare
        exact Cause.pointsInto_marked rfl h.wordAt
      · split at hdeclare
        · cases hdeclare
        · split at hdeclare
          · cases hdeclare
          · cases hdeclare
            exact Cause.pointsInto_unmarked rfl rfl

theorem points_cast (source target : Ty) (pos : Nat) : Points text (cast source target pos) := by
  unfold cast
  split
  · exact points_pure ()
  · split
    · exact points_instr _
    · exact points_fail (Cause.pointsInto_unmarked rfl rfl)

end Emit

theorem points_declareVariable (registry : Registry) {tokens : List Token} (hne : tokens ≠ [])
    (h : ∀ token ∈ tokens, token.StandsIn text) :
    Emit.Points text (declareVariable registry tokens) := by
  cases tokens with
  | nil => exact absurd rfl hne
  | cons first rest =>
      have hfirst := h first List.mem_cons_self
      unfold declareVariable
      simp only
      split
      · refine Emit.points_symbols.bind fun table => ?_
        split
        · rename_i second _ _
          exact Emit.points_fail (Cause.pointsInto_marked rfl (h second (by simp)).wordAt)
        · exact Emit.points_fail (Cause.pointsInto_marked rfl hfirst.wordAt)
      · rename_i ty _
        have hcursor : (Cursor.ofTokens (first :: rest)).StandsIn text := h
        cases hread : Declaration.reader.read (Cursor.ofTokens (first :: rest)) with
        | mk result cursor =>
            cases result with
            | error d => exact Emit.points_fail (Declaration.points_reader.of_error hcursor hread)
            | ok decl =>
                have hdecl := (Declaration.points_reader.of_ok hcursor hread).1
                simp only
                split
                · exact Emit.points_fail (Cause.pointsInto_unmarked rfl rfl)
                · exact (Emit.points_declare ty hdecl.name).bind fun _ => Emit.points_pure _

theorem Target.StandsIn.points_resolve (registry : Registry) {target : Target}
    (h : target.StandsIn text) : Emit.Points text (target.resolve registry) := by
  cases target with
  | name token =>
      refine Emit.points_symbols.bind fun table => ?_
      split
      · exact Emit.points_pure _
      · split
        · exact Emit.points_fail (Cause.pointsInto_unmarked rfl rfl)
        · exact Emit.points_fail (Cause.pointsInto_marked rfl (Token.StandsIn.wordAt h))
  | declaration tokens => exact points_declareVariable registry h.1 h.2

theorem points_loadVariable (registry : Registry) (token : Token) :
    Emit.Points text (loadVariable registry token) := by
  refine Emit.points_symbols.bind fun table => ?_
  split
  · exact (Emit.points_instr _).bind fun _ => Emit.points_pure _
  · split
    · exact Emit.points_fail (Cause.pointsInto_unmarked rfl rfl)
    · exact Emit.points_fail (Cause.pointsInto_unmarked rfl rfl)

/-- Literals are the one place where a type is looked up that the text does not name. -/
theorem Expression.StandsIn.points_emit {registry : Registry}
    (hint : registry.isRegistered Ty.int32.name = true) {e : Expression} (h : e.StandsIn text) :
    Emit.Points text (e.emit registry) := by
  induction e with
  | literal value pos =>
      obtain ⟨ty, hty⟩ := Option.isSome_iff_exists.mp hint
      simp only [emit, hty]
      exact (Emit.points_instr _).bind fun _ => Emit.points_pure _
  | name token => exact points_loadVariable registry token
  | declaration tokens =>
      exact (points_declareVariable registry h.1 h.2).bind fun _ => Emit.points_pure _
  | assignment target value pos ih =>
      refine (Target.StandsIn.points_resolve registry h.1).bind fun _ => ?_
      refine (ih h.2).bind fun result => ?_
      split
      · exact Emit.points_fail (Cause.pointsInto_unmarked rfl rfl)
      · exact (Emit.points_cast _ _ _).bind fun _ =>
          (Emit.points_instr _).bind fun _ => Emit.points_pure _
  | arithmetic op pos left right ihl ihr =>
      obtain ⟨hsymbol, hleft, hright⟩ := h
      refine (ihl hleft).bind fun lhs => ?_
      split
      · exact Emit.points_fail (Cause.pointsInto_marked rfl hsymbol)
      · refine (ihr hright).bind fun rhs => ?_
        split
        · exact Emit.points_fail (Cause.pointsInto_marked rfl hsymbol)
        · refine (Emit.points_cast _ _ _).bind fun _ => ?_
          split
          · exact (Emit.points_instr _).bind fun _ => Emit.points_pure _
          · exact Emit.points_fail (Cause.pointsInto_marked rfl hsymbol)
  | malformed error => exact Emit.points_fail h

end Emission

end StackScript
