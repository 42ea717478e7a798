import StackScript.Proofs.SplitPoint

/-! # The grammar of statements

The trees of statements and the rules by which tokens stand for them. The rules know nothing of
split points. What they share with them is said by two facts: the operators of a term bind at
least as tight as the rule that it was derived by, and every term that has only such operators is
derived by that rule. -/

namespace StackScript

open Delimiter

/-! ## Trees -/

/-- A value made of numbers and variables. -/
inductive Term where
  | constant (value : Int)
  | name (text : String)
  | operation (op : Arithmetic) (left right : Term)
  deriving DecidableEq, Repr

/-- What a value is assigned to: a variable that is there, or a new one. -/
inductive Place where
  | name (text : String)
  | declaration (ty name : String)
  deriving DecidableEq, Repr

inductive Statement where
  | assignment (place : Place) (value : Term)
  | declaration (ty name : String)
  | value (term : Term)
  deriving DecidableEq, Repr

/-! ## Rules -/

def additive? : Kind → Option Arithmetic
  | .plus => some .add
  | .minus => some .sub
  | _ => none

def multiplicative? : Kind → Option Arithmetic
  | .star => some .mul
  | .slash => some .div
  | .percent => some .mod
  | _ => none

/-- The kinds of terms, from the loosest to the tightest. -/
inductive Rank where
  | value
  | product
  | factor
  deriving DecidableEq, Repr

/-- Sums of products of factors, all of them grouped to the left. A factor is a variable, a number
with or without a sign, or a value in brackets. -/
inductive Term.Derives : Rank → List Token → Term → Prop where
  | sum {left right : List Token} {token : Token} {op : Arithmetic} {a b : Term} :
      Derives .value left a → additive? token.kind = some op → Derives .product right b →
      Derives .value (left ++ token :: right) (.operation op a b)
  | ofProduct {tokens : List Token} {a : Term} : Derives .product tokens a → Derives .value tokens a
  | product {left right : List Token} {token : Token} {op : Arithmetic} {a b : Term} :
      Derives .product left a → multiplicative? token.kind = some op → Derives .factor right b →
      Derives .product (left ++ token :: right) (.operation op a b)
  | ofFactor {tokens : List Token} {a : Term} :
      Derives .factor tokens a → Derives .product tokens a
  | name {token : Token} :
      token.kind = .identifier → Derives .factor [token] (.name token.text)
  | integer {token : Token} :
      token.kind = .integer → Derives .factor [token] (.constant (Literal.value token.text.toList))
  | negative {sign token : Token} :
      sign.kind = .minus → token.kind = .integer →
      Derives .factor [sign, token] (.constant (-(Literal.value token.text.toList : Int)))
  | group {first last : Token} {inner : List Token} {a : Term} :
      first.kind = .leftParen → Derives .value inner a → last.kind = .rightParen →
      Derives .factor (first :: (inner ++ [last])) a

/-- A name, or a type and a name, in any number of brackets. -/
inductive Place.Derives : List Token → Place → Prop where
  | name {token : Token} :
      token.kind = .identifier → Derives [token] (.name token.text)
  | declaration {ty name : Token} :
      ty.kind = .identifier → name.kind = .identifier →
      Derives [ty, name] (.declaration ty.text name.text)
  | group {first last : Token} {inner : List Token} {p : Place} :
      first.kind = .leftParen → Derives inner p → last.kind = .rightParen →
      Derives (first :: (inner ++ [last])) p

/-- An assignment, a declaration or a value, in any number of brackets. -/
inductive Statement.Derives : List Token → Statement → Prop where
  | assignment {left right : List Token} {token : Token} {p : Place} {a : Term} :
      Place.Derives left p → token.kind = .equals → Term.Derives .value right a →
      Derives (left ++ token :: right) (.assignment p a)
  | declaration {ty name : Token} :
      ty.kind = .identifier → name.kind = .identifier →
      Derives [ty, name] (.declaration ty.text name.text)
  | value {tokens : List Token} {a : Term} :
      Term.Derives .value tokens a → Derives tokens (.value a)
  | group {first last : Token} {inner : List Token} {s : Statement} :
      first.kind = .leftParen → Derives inner s → last.kind = .rightParen →
      Derives (first :: (inner ++ [last])) s

/-! ## Operators of the grammar -/

theorem operator?_of_additive? {kind : Kind} {op : Arithmetic} (h : additive? kind = some op) :
    kind.operator? = some (.arithmetic op) ∧ (Operator.arithmetic op).precedence = 1 := by
  cases kind <;> simp only [additive?, reduceCtorEq, Option.some.injEq] at h
  all_goals
    subst h
    exact ⟨rfl, rfl⟩

theorem operator?_of_multiplicative? {kind : Kind} {op : Arithmetic}
    (h : multiplicative? kind = some op) :
    kind.operator? = some (.arithmetic op) ∧ (Operator.arithmetic op).precedence = 2 := by
  cases kind <;> simp only [multiplicative?, reduceCtorEq, Option.some.injEq] at h
  all_goals
    subst h
    exact ⟨rfl, rfl⟩

/-- An arithmetic operator is either additive or multiplicative, as its precedence says. -/
theorem additive_or_multiplicative {kind : Kind} {op : Arithmetic}
    (h : kind.operator? = some (.arithmetic op)) :
    (additive? kind = some op ∧ (Operator.arithmetic op).precedence = 1) ∨
      (multiplicative? kind = some op ∧ (Operator.arithmetic op).precedence = 2) := by
  cases kind <;>
    simp only [Kind.operator?, reduceCtorEq, Option.some.injEq, Operator.arithmetic.injEq] at h
  all_goals
    subst h
    simp [additive?, multiplicative?, Operator.precedence]

theorem operator?_eq_assign_iff {kind : Kind} :
    kind.operator? = some .assign ↔ kind = .equals := by
  cases kind <;> simp [Kind.operator?]

/-- A minus sign behind an operand is an operation. -/
theorem isSign_eq_false {kind : Kind}
    (h : kind = .identifier ∨ kind = .integer ∨ kind = .rightParen) (next : Kind) :
    isSign (some kind) next = false := by
  rcases h with rfl | rfl | rfl <;> simp [isSign, Kind.operator?]

/-! ## Terms -/

namespace Term.Derives

variable {rank : Rank} {tokens : List Token} {a : Term}

theorem balanced (h : Derives rank tokens a) : IsBalanced Token.parenthesis tokens := by
  induction h with
  | sum _ hop _ ihl ihr =>
      have hother := Token.parenthesis_of_operator? (operator?_of_additive? hop).1
      exact ihl.append ((IsBalanced.cons_other hother).mpr ihr)
  | product _ hop _ ihl ihr =>
      have hother := Token.parenthesis_of_operator? (operator?_of_multiplicative? hop).1
      exact ihl.append ((IsBalanced.cons_other hother).mpr ihr)
  | ofProduct _ ih => exact ih
  | ofFactor _ ih => exact ih
  | name hkind => exact .singleton (Token.parenthesis_eq_other.mpr (by simp [hkind]))
  | integer hkind => exact .singleton (Token.parenthesis_eq_other.mpr (by simp [hkind]))
  | negative hsign hkind =>
      refine (IsBalanced.cons_other (Token.parenthesis_eq_other.mpr (by simp [hsign]))).mpr ?_
      exact .singleton (Token.parenthesis_eq_other.mpr (by simp [hkind]))
  | group hfirst _ hlast ih =>
      exact .enclosed (Token.parenthesis_eq_opening.mpr hfirst)
        (Token.parenthesis_eq_closing.mpr hlast) ih

/-- A term ends with a token behind which a minus sign is an operation. -/
theorem binary (h : Derives rank tokens a) (previous : Option Kind) (next : Kind) :
    isSign (kindBehind previous tokens) next = false := by
  induction h generalizing previous with
  | sum _ _ _ _ ihr | product _ _ _ _ ihr =>
      rw [kindBehind, List.foldl_append]
      exact ihr _
  | ofProduct _ ih => exact ih previous
  | ofFactor _ ih => exact ih previous
  | name hkind => exact isSign_eq_false (.inl hkind) next
  | integer hkind => exact isSign_eq_false (.inr (.inl hkind)) next
  | negative _ hkind => exact isSign_eq_false (.inr (.inl hkind)) next
  | group _ _ hlast _ =>
      rw [kindBehind_cons, kindBehind_append_singleton]
      exact isSign_eq_false (.inr (.inr hlast)) next

theorem ne_nil (h : Derives rank tokens a) : tokens ≠ [] := by
  induction h with
  | sum | product => simp
  | ofProduct _ ih | ofFactor _ ih => exact ih
  | name | integer | negative | group => simp

end Term.Derives

/-! ## The rule behind a term -/

/-- The precedence of the operators that a term of a rank may have outside of brackets. -/
def Rank.precedence : Rank → Nat
  | value => 1
  | product => 2
  | factor => 3

namespace Term.Derives

variable {rank : Rank} {tokens : List Token} {a : Term}

/-- The operators of a sum, a product and the like are those of its operands and its own. -/
theorem topOperators_operation {left right : List Token} {token : Token} {op : Arithmetic}
    (h : Derives rank left a) (hop : token.kind.operator? = some (.arithmetic op)) :
    topOperators (left ++ token :: right) =
      topOperators left ++ .arithmetic op :: topOperators right :=
  topOperators_append_operator h.balanced hop (h.binary none token.kind)

/-- Operators that bind tight enough on both sides of one that does are all tight enough. -/
theorem precedence_le_operation {left right : List Token} {token : Token} {op : Arithmetic}
    {bound : Nat} (h : Derives rank left a) (hop : token.kind.operator? = some (.arithmetic op))
    (hbound : bound ≤ (Operator.arithmetic op).precedence)
    (hleft : ∀ op ∈ topOperators left, bound ≤ op.precedence)
    (hright : ∀ op ∈ topOperators right, bound ≤ op.precedence) :
    ∀ op ∈ topOperators (left ++ token :: right), bound ≤ op.precedence := by
  rw [h.topOperators_operation hop]
  intro op' hmem
  rcases List.mem_append.mp hmem with hmem | hmem
  · exact hleft op' hmem
  · rcases List.mem_cons.mp hmem with rfl | hmem
    · exact hbound
    · exact hright op' hmem

/-- No operator of a term binds weaker than its rank says. -/
theorem precedence_le (h : Derives rank tokens a) :
    ∀ op ∈ topOperators tokens, rank.precedence ≤ op.precedence := by
  induction h with
  | sum hl hop _ ihl ihr =>
      obtain ⟨hkind, hprec⟩ := operator?_of_additive? hop
      apply hl.precedence_le_operation hkind (Nat.le_of_eq hprec.symm) ihl
      exact fun op hmem => Nat.le_of_succ_le (ihr op hmem)
  | product hl hop _ ihl ihr =>
      obtain ⟨hkind, hprec⟩ := operator?_of_multiplicative? hop
      apply hl.precedence_le_operation hkind (Nat.le_of_eq hprec.symm) ihl
      exact fun op hmem => Nat.le_of_succ_le (ihr op hmem)
  | ofProduct _ ih => exact fun op hmem => Nat.le_of_succ_le (ih op hmem)
  | ofFactor _ ih => exact fun op hmem => Nat.le_of_succ_le (ih op hmem)
  | name hkind => simp [topOperators, operatorsFrom, depthsFrom, binaryOperators, hkind,
      Token.parenthesis, between, Kind.operator?]
  | integer hkind => simp [topOperators, operatorsFrom, depthsFrom, binaryOperators, hkind,
      Token.parenthesis, between, Kind.operator?]
  | negative hsign hkind => simp [topOperators, operatorsFrom, depthsFrom, binaryOperators, hsign,
      hkind, Token.parenthesis, between, Kind.operator?, isSign]
  | group hfirst hinner hlast _ =>
      rw [topOperators_enclosed hfirst hlast hinner.balanced]
      simp

theorem product_of_precedence_le (h : Derives .value tokens a)
    (hops : ∀ op ∈ topOperators tokens, Rank.product.precedence ≤ op.precedence) :
    Derives .product tokens a := by
  cases h with
  | ofProduct h => exact h
  | @sum _ _ _ op _ _ hl hop hr =>
      obtain ⟨hkind, hprec⟩ := operator?_of_additive? hop
      have hle := hops (.arithmetic op) (by simp [hl.topOperators_operation hkind])
      rw [hprec] at hle
      exact absurd hle (by decide)

theorem factor_of_precedence_le (h : Derives .product tokens a)
    (hops : ∀ op ∈ topOperators tokens, Rank.factor.precedence ≤ op.precedence) :
    Derives .factor tokens a := by
  cases h with
  | ofFactor h => exact h
  | @product _ _ _ op _ _ hl hop hr =>
      obtain ⟨hkind, hprec⟩ := operator?_of_multiplicative? hop
      have hle := hops (.arithmetic op) (by simp [hl.topOperators_operation hkind])
      rw [hprec] at hle
      exact absurd hle (by decide)

/-- A value is derived by every rule that its operators allow. -/
theorem of_precedence_le (h : Derives .value tokens a)
    (hops : ∀ op ∈ topOperators tokens, rank.precedence ≤ op.precedence) :
    Derives rank tokens a := by
  cases rank with
  | value => exact h
  | product => exact h.product_of_precedence_le hops
  | factor =>
      have hproduct := h.product_of_precedence_le fun op hmem => Nat.le_of_succ_le (hops op hmem)
      exact hproduct.factor_of_precedence_le hops

theorem value (h : Derives rank tokens a) : Derives .value tokens a := by
  cases rank with
  | value => exact h
  | product => exact .ofProduct h
  | factor => exact .ofProduct (.ofFactor h)

/-- What brackets enclose is a value of its own. -/
theorem enclosed_iff {first last : Token} {inner : List Token} (hfirst : first.kind = .leftParen)
    (hlast : last.kind = .rightParen) (hinner : IsBalanced Token.parenthesis inner) :
    Derives .value (first :: (inner ++ [last])) a ↔ Derives .value inner a := by
  constructor
  · intro h
    have hfactor : Derives .factor (first :: (inner ++ [last])) a := by
      apply h.of_precedence_le
      rw [topOperators_enclosed hfirst hlast hinner]
      simp
    generalize htokens : first :: (inner ++ [last]) = tokens at hfactor
    cases hfactor with
    | name | integer => simp at htokens
    | negative hsign =>
        simp only [List.cons.injEq] at htokens
        rw [← htokens.1, hfirst] at hsign
        cases hsign
    | group _ h _ =>
        simp only [List.cons.injEq, List.append_singleton_inj] at htokens
        rw [htokens.2.1]
        exact h
  · intro h
    exact .ofProduct (.ofFactor (.group hfirst h hlast))

end Term.Derives

/-! ## Splits of terms -/

namespace Term.Derives

variable {left right : List Token} {token : Token} {op : Arithmetic} {a b : Term}

/-- An operation is split at its operator, if the right operand binds tighter than the left one. -/
theorem isSplit_operation {rank rank' : Rank} (hl : Derives rank left a)
    (hop : token.kind.operator? = some (.arithmetic op)) (hr : Derives rank' right b)
    (hprec : (Operator.arithmetic op).precedence = rank.precedence)
    (hrank : rank.precedence < rank'.precedence) :
    IsSplit (left ++ token :: right) ⟨left, .arithmetic op, token, right⟩ := by
  refine ⟨rfl, hl.balanced, hop, hl.binary none token.kind, ?_, ?_⟩
  · rw [hprec]
    exact hl.precedence_le
  · rw [hprec]
    intro op' hmem
    exact Nat.lt_of_lt_of_le hrank (hr.precedence_le op' hmem)

theorem isSplit_sum (hl : Derives .value left a) (hop : additive? token.kind = some op)
    (hr : Derives .product right b) :
    IsSplit (left ++ token :: right) ⟨left, .arithmetic op, token, right⟩ := by
  obtain ⟨hkind, hprec⟩ := operator?_of_additive? hop
  exact isSplit_operation hl hkind hr hprec (by decide)

theorem isSplit_product (hl : Derives .product left a) (hop : multiplicative? token.kind = some op)
    (hr : Derives .factor right b) :
    IsSplit (left ++ token :: right) ⟨left, .arithmetic op, token, right⟩ := by
  obtain ⟨hkind, hprec⟩ := operator?_of_multiplicative? hop
  exact isSplit_operation hl hkind hr hprec (by decide)

end Term.Derives

/-- A term that is split has the two sides of the split as its operands. -/
theorem Term.Derives.split {tokens : List Token} {s : Split} {a : Term}
    (h : Derives .value tokens a) (hs : IsSplit tokens s) :
    ∃ op b c, s.op = .arithmetic op ∧ a = .operation op b c ∧ Derives .value s.left b ∧
      Derives .value s.right c := by
  have hb := h.balanced
  cases h with
  | sum hl hop hr =>
      -- The operator of the derivation is a split point as well, and there is only one.
      have heq := hs.unique hb (isSplit_sum hl hop hr)
      subst heq
      exact ⟨_, _, _, rfl, rfl, hl, hr.value⟩
  | ofProduct h =>
      cases h with
      | product hl hop hr =>
          have heq := hs.unique hb (isSplit_product hl hop hr)
          subst heq
          exact ⟨_, _, _, rfl, rfl, hl.value, hr.value⟩
      | ofFactor h =>
          have hle := h.precedence_le s.op hs.mem_topOperators
          exact absurd hle (by simp [Rank.precedence, s.op.precedence_lt])

theorem Term.Derives.sides_ne_nil {tokens : List Token} {s : Split} {a : Term}
    (h : Derives .value tokens a) (hs : IsSplit tokens s) : s.left ≠ [] ∧ s.right ≠ [] := by
  obtain ⟨op, b, c, -, -, hl, hr⟩ := h.split hs
  exact ⟨hl.ne_nil, hr.ne_nil⟩

theorem Term.Derives.op_ne_assign {tokens : List Token} {s : Split} {a : Term}
    (h : Derives .value tokens a) (hs : IsSplit tokens s) : s.op ≠ .assign := by
  obtain ⟨op, b, c, hop, -⟩ := h.split hs
  simp [hop]

/-- The two sides of a split make a term, if each of them does. -/
theorem Term.Derives.operation {tokens : List Token} {s : Split} {op : Arithmetic} {a b : Term}
    (hs : IsSplit tokens s) (hop : s.op = .arithmetic op) (hl : Derives .value s.left a)
    (hr : Derives .value s.right b) : Derives .value tokens (.operation op a b) := by
  have hkind := hs.operator
  have hleft := hs.left
  have hright := hs.right
  rw [hop] at hkind hleft hright
  rw [hs.tokens_eq]
  rcases additive_or_multiplicative hkind with ⟨hadd, hprec⟩ | ⟨hmul, hprec⟩
  · rw [hprec] at hright
    exact .sum hl hadd (hr.of_precedence_le hright)
  · rw [hprec] at hleft hright
    exact .ofProduct (.product (hl.of_precedence_le hleft) hmul (hr.of_precedence_le hright))

/-- A single token is a variable or a number. -/
theorem Term.Derives.factor_singleton {token : Token} {a : Term} (h : Derives .factor [token] a) :
    (token.kind = .identifier ∧ a = .name token.text) ∨
      (token.kind = .integer ∧ a = .constant (Literal.value token.text.toList)) := by
  generalize htokens : [token] = tokens at h
  cases h with
  | name hkind =>
      cases htokens
      exact .inl ⟨hkind, rfl⟩
  | integer hkind =>
      cases htokens
      exact .inr ⟨hkind, rfl⟩
  | negative | group => simp at htokens

/-- Tokens stand for one term only. -/
theorem Term.Derives.unique {rank : Rank} {tokens : List Token} {a b : Term}
    (h : Derives rank tokens a) (h' : Derives .value tokens b) : a = b := by
  induction h generalizing b with
  | sum hl hop hr ihl ihr =>
      obtain ⟨op, c, d, heq, rfl, hc, hd⟩ := h'.split (isSplit_sum hl hop hr)
      cases heq
      rw [ihl hc, ihr hd]
  | product hl hop hr ihl ihr =>
      obtain ⟨op, c, d, heq, rfl, hc, hd⟩ := h'.split (isSplit_product hl hop hr)
      cases heq
      rw [ihl hc, ihr hd]
  | ofProduct _ ih => exact ih h'
  | ofFactor _ ih => exact ih h'
  | name hkind =>
      have hfactor := h'.of_precedence_le (Derives.name hkind).precedence_le
      rcases hfactor.factor_singleton with ⟨-, rfl⟩ | ⟨hkind', -⟩
      · rfl
      · rw [hkind] at hkind'
        cases hkind'
  | integer hkind =>
      have hfactor := h'.of_precedence_le (Derives.integer hkind).precedence_le
      rcases hfactor.factor_singleton with ⟨hkind', -⟩ | ⟨-, rfl⟩
      · rw [hkind] at hkind'
        cases hkind'
      · rfl
  | negative hsign hkind =>
      have hfactor := h'.of_precedence_le (Derives.negative hsign hkind).precedence_le
      generalize htokens : [_, _] = tokens at hfactor
      cases hfactor with
      | name | integer => simp at htokens
      | negative =>
          cases htokens
          rfl
      | group hfirst =>
          simp only [List.cons.injEq] at htokens
          rw [← htokens.1, hsign] at hfirst
          cases hfirst
  | group hfirst hinner hlast ih => exact ih ((enclosed_iff hfirst hlast hinner.balanced).mp h')

end StackScript
