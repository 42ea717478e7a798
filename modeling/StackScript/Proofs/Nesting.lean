import StackScript.Proofs.Meaning

/-! # Nesting and height

Between brackets, a term has at most three cells on the stack at a time. This is why the depth of
its brackets bounds the room that its code needs. -/

namespace StackScript

open Delimiter

/-- Depth of the innermost brackets of some statements. -/
def greatestDepth (statements : List (List Token)) : Nat :=
  (statements.flatMap (depths Token.parenthesis)).max?.getD 0

theorem le_greatestDepth {statements : List (List Token)} {tokens : List Token}
    (h : tokens ∈ statements) {n : Nat} (hn : n ∈ depths Token.parenthesis tokens) :
    n ≤ greatestDepth statements :=
  List.le_max?_getD_of_mem (List.mem_flatMap.mpr ⟨tokens, h, hn⟩)

theorem depths_le_of_append_cons {left right : List Token} {token : Token} {depth : Nat}
    (hleft : IsBalanced Token.parenthesis left) (htoken : token.parenthesis = other)
    (hd : ∀ n ∈ depths Token.parenthesis (left ++ token :: right), n ≤ depth) :
    (∀ n ∈ depths Token.parenthesis left, n ≤ depth) ∧
      ∀ n ∈ depths Token.parenthesis right, n ≤ depth := by
  rw [depths_append_cons hleft htoken] at hd
  exact ⟨fun n hn => hd n (List.mem_append_left _ hn),
    fun n hn => hd n (List.mem_append_right _ (List.mem_cons_of_mem _ hn))⟩

theorem depths_lt_of_enclosed {first last : Token} {inner : List Token} {depth : Nat}
    (hfirst : first.kind = .leftParen) (hinner : IsBalanced Token.parenthesis inner)
    (hlast : last.kind = .rightParen)
    (hd : ∀ n ∈ depths Token.parenthesis (first :: (inner ++ [last])), n ≤ depth) :
    ∀ n ∈ depths Token.parenthesis inner, n < depth := by
  rw [depths_enclosed (Token.parenthesis_eq_opening.mpr hfirst) hinner
    (Token.parenthesis_eq_closing.mpr hlast)] at hd
  intro n hn
  exact hd _ (List.mem_cons_of_mem _ (List.mem_append_left _ (List.mem_map.mpr ⟨n, hn, rfl⟩)))

/-- Cells that a term of a rank needs outside of brackets. -/
def Rank.cells : Rank → Nat
  | value => 3
  | product => 2
  | factor => 1

theorem Term.Derives.height_le {rank : Rank} {tokens : List Token} {a : Term} {depth : Nat}
    (h : Derives rank tokens a) (hd : ∀ n ∈ depths Token.parenthesis tokens, n ≤ depth) :
    a.height ≤ 2 * depth + rank.cells := by
  induction h generalizing depth with
  | sum hleft hop hright ihl ihr =>
      have hother := Token.parenthesis_of_operator? (operator?_of_additive? hop).1
      obtain ⟨hdl, hdr⟩ := depths_le_of_append_cons hleft.balanced hother hd
      have hl := ihl hdl
      have hr := ihr hdr
      simp only [height, Rank.cells] at hl hr ⊢
      omega
  | product hleft hop hright ihl ihr =>
      have hother := Token.parenthesis_of_operator? (operator?_of_multiplicative? hop).1
      obtain ⟨hdl, hdr⟩ := depths_le_of_append_cons hleft.balanced hother hd
      have hl := ihl hdl
      have hr := ihr hdr
      simp only [height, Rank.cells] at hl hr ⊢
      omega
  | ofProduct _ ih => exact Nat.le_succ_of_le (ih hd)
  | ofFactor _ ih => exact Nat.le_succ_of_le (ih hd)
  | name _ | integer _ | negative _ _ => exact Nat.le_add_left _ _
  | group hfirst hinner hlast ih =>
      have hlt := depths_lt_of_enclosed hfirst hinner.balanced hlast hd
      -- Some token stands between the brackets, so they are not at the greatest depth.
      obtain ⟨n, hn⟩ := List.exists_mem_of_ne_nil _ (mt depths_eq_nil_iff.mp hinner.ne_nil)
      obtain ⟨depth, rfl⟩ := Nat.exists_eq_add_one_of_ne_zero (Nat.ne_zero_of_lt (hlt n hn))
      have hi := ih fun n hn => Nat.le_of_lt_succ (hlt n hn)
      simp only [Rank.cells] at hi ⊢
      omega

theorem Statement.Derives.height_le {tokens : List Token} {st : Statement} {depth : Nat}
    (h : Derives tokens st) (hd : ∀ n ∈ depths Token.parenthesis tokens, n ≤ depth) :
    st.height ≤ 2 * depth + 3 := by
  induction h with
  | assignment hp hequals ha =>
      have hother := Token.parenthesis_of_operator? (operator?_eq_assign_iff.mpr hequals)
      exact ha.height_le (depths_le_of_append_cons hp.balanced_operand.1 hother hd).2
  | declaration _ _ => exact Nat.zero_le _
  | value ha => exact ha.height_le hd
  | group hfirst hinner hlast ih =>
      have hlt := depths_lt_of_enclosed hfirst hinner.balanced hlast hd
      exact ih fun n hn => Nat.le_of_lt (hlt n hn)

/-- The statements of a program need no more room than the depth of their brackets gives them. -/
theorem Program.Derives.height_le {statements : List (List Token)} {program : List Statement}
    (h : Derives statements program) :
    ∀ st ∈ program, st.height ≤ 2 * greatestDepth statements + 3 := by
  suffices hall : ∀ {depth}, (∀ tokens ∈ statements, ∀ n ∈ depths Token.parenthesis tokens,
      n ≤ depth) → ∀ st ∈ program, st.height ≤ 2 * depth + 3 from
    hall fun tokens htokens n hn => le_greatestDepth htokens hn
  intro depth hd
  induction h with
  | nil => simp
  | blank _ ih => exact ih fun tokens htokens => hd tokens (List.mem_cons_of_mem _ htokens)
  | statement hst _ ih =>
      intro st hmem
      rcases List.mem_cons.mp hmem with rfl | hmem
      · exact hst.height_le (hd _ List.mem_cons_self)
      · exact ih (fun tokens htokens => hd tokens (List.mem_cons_of_mem _ htokens)) st hmem

end StackScript
