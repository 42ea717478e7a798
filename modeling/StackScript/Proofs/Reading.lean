import StackScript.Proofs.Grammar

/-! # Reading statements

Splitting tokens at their operators reads exactly the statements of the grammar. The trees that are
read keep offsets for diagnostics; without these they are the trees of the grammar, each of which
has one reading. -/

namespace StackScript

open Delimiter

/-! ## Trees without offsets -/

/-- The type and the name that two tokens declare. -/
def declared? : List Token → Option (String × String)
  | [ty, name] =>
      if ty.kind = .identifier ∧ name.kind = .identifier then some (ty.text, name.text) else none
  | _ => none

def Target.place? : Target → Option Place
  | .name token => some (.name token.text)
  | .declaration tokens => (declared? tokens).map fun d => .declaration d.1 d.2

namespace Expression

/-- The value that an expression computes, if it computes one. -/
def term? : Expression → Option Term
  | literal value _ => some (.constant value.toInt)
  | name token => some (.name token.text)
  | arithmetic op _ left right => do
      let a ← left.term?
      let b ← right.term?
      return .operation op a b
  | declaration _ | assignment .. | malformed _ => none

/-- The statement that an expression stands for, if it is a statement. -/
def statement? : Expression → Option Statement
  | assignment target value _ => do
      let p ← target.place?
      let a ← value.term?
      return .assignment p a
  | declaration tokens => (declared? tokens).map fun d => .declaration d.1 d.2
  | e => e.term?.map .value

end Expression

/-- The constants of a term are 32-bit integers. -/
def Term.InRange : Term → Prop
  | constant value => -2147483648 ≤ value ∧ value ≤ 2147483647
  | name _ => True
  | operation _ left right => left.InRange ∧ right.InRange

def Statement.InRange : Statement → Prop
  | assignment _ term => term.InRange
  | declaration .. => True
  | value term => term.InRange

/-! ## Brackets around a statement -/

theorem isWrapped_parenthesis_iff {tokens : List Token} :
    isWrapped Token.parenthesis tokens = true ↔
      ∃ first inner last, tokens = first :: (inner ++ [last]) ∧ first.kind = .leftParen ∧
        last.kind = .rightParen ∧ IsBalanced Token.parenthesis inner := by
  simp only [isWrapped_iff, Token.parenthesis_eq_opening, Token.parenthesis_eq_closing]

/-- What brackets do not change is not changed by taking them off. -/
theorem stripParentheses_iff {P : List Token → Prop}
    (h : ∀ {first last : Token} {inner : List Token}, first.kind = .leftParen →
      last.kind = .rightParen → IsBalanced Token.parenthesis inner →
      (P (first :: (inner ++ [last])) ↔ P inner)) (tokens : List Token) :
    P (stripParentheses tokens) ↔ P tokens := by
  fun_induction stripParentheses tokens with
  | case1 tokens hwrapped ih =>
      obtain ⟨first, inner, last, rfl, hfirst, hlast, hinner⟩ :=
        isWrapped_parenthesis_iff.mp hwrapped
      rw [h hfirst hlast hinner]
      simpa using ih
  | case2 tokens hwrapped => exact Iff.rfl

theorem isWrapped_stripParentheses (tokens : List Token) :
    isWrapped Token.parenthesis (stripParentheses tokens) = false := by
  fun_induction stripParentheses tokens with
  | case1 tokens hwrapped ih => exact ih
  | case2 tokens hwrapped => exact Bool.eq_false_iff.mpr hwrapped

theorem balanced_stripParentheses {tokens : List Token} :
    IsBalanced Token.parenthesis (stripParentheses tokens) ↔
      IsBalanced Token.parenthesis tokens := by
  apply stripParentheses_iff
  intro first last inner hfirst hlast hinner
  exact ⟨fun _ => hinner, fun _ => hinner.enclosed (Token.parenthesis_eq_opening.mpr hfirst)
    (Token.parenthesis_eq_closing.mpr hlast)⟩

theorem Term.derives_stripParentheses {tokens : List Token} {a : Term} :
    Derives .value (stripParentheses tokens) a ↔ Derives .value tokens a :=
  stripParentheses_iff (P := fun tokens => Derives .value tokens a) Derives.enclosed_iff tokens

theorem isWrapped_enclosed {first last : Token} {inner : List Token}
    (hfirst : first.kind = .leftParen) (hlast : last.kind = .rightParen)
    (hinner : IsBalanced Token.parenthesis inner) :
    isWrapped Token.parenthesis (first :: (inner ++ [last])) = true :=
  isWrapped_parenthesis_iff.mpr ⟨first, inner, last, rfl, hfirst, hlast, hinner⟩

/-! ## Terms -/

theorem Expression.term?_ofLiteral_iff {negative : Bool} {digits : Token} {pos : Nat} {a : Term} :
    (ofLiteral negative digits pos).term? = some a ↔
      a = .constant (if negative then -(Literal.value digits.text.toList : Int)
        else Literal.value digits.text.toList) ∧ a.InRange := by
  simp only [ofLiteral]
  generalize (if negative = true then -(Literal.value digits.text.toList : Int)
    else Literal.value digits.text.toList) = value
  split
  · rename_i hrange
    simp only [term?, Option.some.injEq, BitVec.toInt_ofInt]
    rw [Int.bmod_eq_of_le (by omega) (by omega)]
    constructor
    · rintro rfl
      exact ⟨rfl, hrange⟩
    · rintro ⟨rfl, -⟩
      rfl
  · rename_i hrange
    simp only [term?, reduceCtorEq, false_iff, not_and]
    rintro rfl
    exact hrange

/-- Tokens without operators are read as a factor, unless they are in brackets. -/
theorem Expression.term?_ofOperand_iff {tokens : List Token} {a : Term}
    (hops : topOperators tokens = []) (hwrapped : isWrapped Token.parenthesis tokens = false) :
    (ofOperand tokens).term? = some a ↔ Term.Derives .value tokens a ∧ a.InRange := by
  have hfactor : Term.Derives .value tokens a ↔ Term.Derives .factor tokens a :=
    ⟨fun h => h.of_precedence_le (by simp [hops]), Term.Derives.value⟩
  rw [hfactor]
  constructor
  · intro h
    unfold ofOperand at h
    split at h
    · rename_i token
      split at h
      · rename_i hkind
        cases h
        exact ⟨.name hkind, trivial⟩
      · split at h
        · rename_i hkind
          obtain ⟨rfl, hrange⟩ := term?_ofLiteral_iff.mp h
          exact ⟨.integer hkind, hrange⟩
        · cases h
    · split at h
      · rename_i hshape
        obtain ⟨hsign, hkind, rfl⟩ := hshape
        obtain ⟨rfl, hrange⟩ := term?_ofLiteral_iff.mp h
        exact ⟨.negative hsign hkind, hrange⟩
      · split at h
        · cases h
        · cases h
    · cases h
  · rintro ⟨h, hrange⟩
    cases h with
    | name hkind => simp [ofOperand, hkind, term?]
    | integer hkind =>
        simp only [ofOperand, hkind, reduceCtorEq, if_false, if_true]
        exact term?_ofLiteral_iff.mpr ⟨rfl, hrange⟩
    | negative hsign hkind =>
        simp only [ofOperand, hsign, hkind, and_self, if_true]
        exact term?_ofLiteral_iff.mpr ⟨rfl, hrange⟩
    | group hfirst h hlast =>
        rw [isWrapped_enclosed hfirst hlast h.balanced] at hwrapped
        cases hwrapped

/-- An operation is read at a split, if its operands are read on the two sides. -/
theorem Expression.term?_arithmetic_iff {tokens : List Token} {s : Split} {op : Arithmetic}
    {pos : Nat} {left right : Expression} {a : Term} (hs : IsSplit tokens s)
    (hop : s.op = .arithmetic op)
    (hl : ∀ {b}, left.term? = some b ↔ Term.Derives .value s.left b ∧ b.InRange)
    (hr : ∀ {c}, right.term? = some c ↔ Term.Derives .value s.right c ∧ c.InRange) :
    (arithmetic op pos left right).term? = some a ↔
      Term.Derives .value tokens a ∧ a.InRange := by
  constructor
  · intro h
    simp only [term?, Option.bind_eq_bind, Option.bind_eq_some_iff, Option.pure_def,
      Option.some.injEq] at h
    obtain ⟨b, hb, c, hc, rfl⟩ := h
    obtain ⟨hleft, hlrange⟩ := hl.mp hb
    obtain ⟨hright, hrrange⟩ := hr.mp hc
    exact ⟨.operation hs hop hleft hright, hlrange, hrrange⟩
  · rintro ⟨h, hrange⟩
    obtain ⟨op', b, c, hop', rfl, hleft, hright⟩ := h.split hs
    rw [hop] at hop'
    cases hop'
    simp [term?, hl.mpr ⟨hleft, hrange.1⟩, hr.mpr ⟨hright, hrange.2⟩]

/-- The terms that are read are the terms of the grammar whose constants are in range. -/
theorem Expression.term?_ofTokens_iff {tokens : List Token} {a : Term}
    (hb : IsBalanced Token.parenthesis tokens) :
    (ofTokens tokens).term? = some a ↔ Term.Derives .value tokens a ∧ a.InRange := by
  rw [← Term.derives_stripParentheses]
  rw [← balanced_stripParentheses] at hb
  fun_induction ofTokens tokens generalizing a with
  | case1 tokens hnil =>
      rw [hnil]
      apply iff_of_false (by simp [notAnOperand, term?])
      intro h
      exact h.1.ne_nil rfl
  | case2 tokens _ hsplit =>
      exact term?_ofOperand_iff ((split?_eq_none_iff hb).mp hsplit)
        (isWrapped_stripParentheses tokens)
  | case3 tokens _ s hsplit _ hnil =>
      apply iff_of_false (by simp [term?])
      intro h
      exact (h.1.sides_ne_nil ((split?_eq_some_iff hb s).mp hsplit)).1 hnil
  | case4 tokens _ s hsplit _ _ hnil =>
      apply iff_of_false (by simp [term?])
      intro h
      exact (h.1.sides_ne_nil ((split?_eq_some_iff hb s).mp hsplit)).2 hnil
  | case5 tokens _ s hsplit _ _ _ op hop ihl ihr =>
      have hs := (split?_eq_some_iff hb s).mp hsplit
      rw [balanced_stripParentheses] at ihl ihr
      simp only [Term.derives_stripParentheses] at ihl ihr
      exact term?_arithmetic_iff hs hop (ihl hs.balanced) (ihr (hs.balanced_right hb))
  | case6 tokens _ s hsplit _ _ _ hop _ =>
      apply iff_of_false (by simp [term?])
      intro h
      exact h.1.op_ne_assign ((split?_eq_some_iff hb s).mp hsplit) hop
  | case7 tokens _ s hsplit _ _ _ hop target _ _ =>
      apply iff_of_false (by simp [term?])
      intro h
      exact h.1.op_ne_assign ((split?_eq_some_iff hb s).mp hsplit) hop

/-! ## Places -/

/-- Names are neither brackets nor operators. -/
theorem topOperators_identifiers {tokens : List Token}
    (h : ∀ token ∈ tokens, token.kind = .identifier) :
    IsBalanced Token.parenthesis tokens ∧ topOperators tokens = [] := by
  suffices hfrom : ∀ index previous, depthAfter Token.parenthesis 0 tokens = some 0 ∧
      operatorsFrom index 0 previous tokens = [] from
    ⟨(hfrom 0 none).1, by rw [topOperators, (hfrom 0 none).2, List.map_nil]⟩
  induction tokens with
  | nil => simp
  | cons token tokens ih =>
      obtain ⟨hkind, htokens⟩ := List.forall_mem_cons.mp h
      have hother : token.parenthesis = other := Token.parenthesis_eq_other.mpr (by simp [hkind])
      intro index previous
      rw [depthAfter_cons_other hother, operatorsFrom_cons_other hother, operatorHere, hkind]
      simpa [Kind.operator?] using ih htokens (index + 1) (some .identifier)

namespace Place.Derives

variable {tokens : List Token} {p : Place}

/-- A place is balanced and has no operators. -/
theorem balanced_operand (h : Derives tokens p) :
    IsBalanced Token.parenthesis tokens ∧ topOperators tokens = [] := by
  induction h with
  | name hkind => exact topOperators_identifiers (by simp [hkind])
  | declaration hty hname => exact topOperators_identifiers (by simp [hty, hname])
  | group hfirst _ hlast ih =>
      exact ⟨ih.1.enclosed (Token.parenthesis_eq_opening.mpr hfirst)
        (Token.parenthesis_eq_closing.mpr hlast), topOperators_enclosed hfirst hlast ih.1⟩

theorem binary (h : Derives tokens p) (previous : Option Kind) (next : Kind) :
    isSign (kindBehind previous tokens) next = false := by
  cases h with
  | name hkind => exact isSign_eq_false (.inl hkind) next
  | declaration _ hname => exact isSign_eq_false (.inl hname) next
  | group _ _ hlast =>
      rw [kindBehind_cons, kindBehind_append_singleton]
      exact isSign_eq_false (.inr (.inr hlast)) next

theorem ne_nil (h : Derives tokens p) : tokens ≠ [] := by
  cases h <;> simp

theorem enclosed_iff {first last : Token} {inner : List Token} (hfirst : first.kind = .leftParen)
    (hlast : last.kind = .rightParen) :
    Derives (first :: (inner ++ [last])) p ↔ Derives inner p := by
  constructor
  · intro h
    generalize htokens : first :: (inner ++ [last]) = tokens at h
    cases h with
    | name => simp at htokens
    | declaration hty =>
        simp only [List.cons.injEq] at htokens
        rw [← htokens.1, hfirst] at hty
        cases hty
    | group _ h _ =>
        simp only [List.cons.injEq, List.append_singleton_inj] at htokens
        rw [htokens.2.1]
        exact h
  · intro h
    exact .group hfirst h hlast

end Place.Derives

theorem declared?_eq_some_iff {tokens : List Token} {ty ident : String} :
    declared? tokens = some (ty, ident) ↔
      ∃ t n : Token, tokens = [t, n] ∧ t.kind = .identifier ∧ n.kind = .identifier ∧
        t.text = ty ∧ n.text = ident := by
  constructor
  · intro h
    unfold declared? at h
    split at h
    · split at h
      · rename_i t n hkinds
        cases h
        exact ⟨t, n, rfl, hkinds.1, hkinds.2, rfl, rfl⟩
      · cases h
    · cases h
  · rintro ⟨t, n, rfl, ht, hn, rfl, rfl⟩
    simp [declared?, ht, hn]

/-- The targets that are read are the places of the grammar. -/
theorem Expression.place?_target?_iff {tokens : List Token} {p : Place} :
    (target? tokens).bind Target.place? = some p ↔ Place.Derives tokens p := by
  rw [← stripParentheses_iff (P := fun tokens => Place.Derives tokens p)
    (fun hfirst hlast _ => Place.Derives.enclosed_iff hfirst hlast) tokens]
  have hwrapped := isWrapped_stripParentheses tokens
  unfold target?
  generalize stripParentheses tokens = tokens at hwrapped
  constructor
  · intro h
    split at h
    · split at h
      · rename_i hkind
        cases h
        exact .name hkind
      · cases h
    · split at h
      · simp only [Option.bind_some, Target.place?, Option.map_eq_some_iff] at h
        obtain ⟨⟨ty, ident⟩, hdecl, rfl⟩ := h
        obtain ⟨t, n, htokens, ht, hn, rfl, rfl⟩ := declared?_eq_some_iff.mp hdecl
        rw [htokens]
        exact .declaration ht hn
      · cases h
    · cases h
  · intro h
    cases h with
    | name hkind => simp [hkind, Target.place?]
    | declaration hty hname => simp [hty, hname, Target.place?, declared?]
    | group hfirst h hlast =>
        rw [isWrapped_enclosed hfirst hlast h.balanced_operand.1] at hwrapped
        cases hwrapped

/-! ## Statements -/

namespace Statement.Derives

variable {tokens : List Token} {st : Statement}

/-- An assignment is split at its equals sign. -/
theorem isSplit_assignment {left right : List Token} {token : Token} {p : Place} {a : Term}
    (hp : Place.Derives left p) (htoken : token.kind = .equals)
    (ha : Term.Derives .value right a) :
    IsSplit (left ++ token :: right) ⟨left, .assign, token, right⟩ where
  tokens_eq := rfl
  balanced := hp.balanced_operand.1
  operator := operator?_eq_assign_iff.mpr htoken
  binary := hp.binary none token.kind
  left := by simp [hp.balanced_operand.2]
  right := ha.precedence_le

theorem balanced (h : Derives tokens st) : IsBalanced Token.parenthesis tokens := by
  induction h with
  | assignment hp htoken ha =>
      have hother := Token.parenthesis_of_operator? (operator?_eq_assign_iff.mpr htoken)
      exact hp.balanced_operand.1.append ((IsBalanced.cons_other hother).mpr ha.balanced)
  | declaration hty hname => exact (topOperators_identifiers (by simp [hty, hname])).1
  | value ha => exact ha.balanced
  | group hfirst _ hlast ih =>
      exact ih.enclosed (Token.parenthesis_eq_opening.mpr hfirst)
        (Token.parenthesis_eq_closing.mpr hlast)

theorem ne_nil (h : Derives tokens st) : tokens ≠ [] := by
  cases h with
  | assignment | declaration | group => simp
  | value h => exact h.ne_nil

theorem enclosed_iff {first last : Token} {inner : List Token} (hfirst : first.kind = .leftParen)
    (hlast : last.kind = .rightParen) (hinner : IsBalanced Token.parenthesis inner) :
    Derives (first :: (inner ++ [last])) st ↔ Derives inner st := by
  constructor
  · intro h
    have hops := topOperators_enclosed hfirst hlast hinner
    generalize htokens : first :: (inner ++ [last]) = tokens at h hops
    cases h with
    | assignment hp htoken ha =>
        have hmem := (isSplit_assignment hp htoken ha).mem_topOperators
        rw [hops] at hmem
        cases hmem
    | declaration hty =>
        simp only [List.cons.injEq] at htokens
        rw [← htokens.1, hfirst] at hty
        cases hty
    | value h =>
        rw [← htokens, Term.Derives.enclosed_iff hfirst hlast hinner] at h
        exact .value h
    | group _ h _ =>
        simp only [List.cons.injEq, List.append_singleton_inj] at htokens
        rw [htokens.2.1]
        exact h
  · intro h
    exact .group hfirst h hlast

/-- A statement that is split is an assignment between the two sides, or a value. -/
theorem split {s : Split} (h : Derives tokens st)
    (hwrapped : isWrapped Token.parenthesis tokens = false) (hs : IsSplit tokens s) :
    (∃ p a, s.op = .assign ∧ st = .assignment p a ∧ Place.Derives s.left p ∧
      Term.Derives .value s.right a) ∨ ∃ a, st = .value a ∧ Term.Derives .value tokens a := by
  have hb := h.balanced
  cases h with
  | assignment hp htoken ha =>
      have heq := hs.unique hb (isSplit_assignment hp htoken ha)
      subst heq
      exact .inl ⟨_, _, rfl, rfl, hp, ha⟩
  | declaration hty hname =>
      have hmem := hs.mem_topOperators
      rw [(topOperators_identifiers (by simp [hty, hname])).2] at hmem
      cases hmem
  | value h => exact .inr ⟨_, rfl, h⟩
  | group hfirst h hlast =>
      rw [isWrapped_enclosed hfirst hlast h.balanced] at hwrapped
      cases hwrapped

theorem sides_ne_nil {s : Split} (h : Derives tokens st)
    (hwrapped : isWrapped Token.parenthesis tokens = false) (hs : IsSplit tokens s) :
    s.left ≠ [] ∧ s.right ≠ [] := by
  rcases h.split hwrapped hs with ⟨p, a, -, -, hp, ha⟩ | ⟨a, -, ha⟩
  · exact ⟨hp.ne_nil, ha.ne_nil⟩
  · exact ha.sides_ne_nil hs

/-- Tokens that are split at an equals sign assign their right side to their left side. -/
theorem iff_assignment {s : Split} (hwrapped : isWrapped Token.parenthesis tokens = false)
    (hs : IsSplit tokens s) (hop : s.op = .assign) :
    Derives tokens st ↔ ∃ p a, st = .assignment p a ∧ Place.Derives s.left p ∧
      Term.Derives .value s.right a := by
  constructor
  · intro h
    rcases h.split hwrapped hs with ⟨p, a, -, hst, hp, ha⟩ | ⟨a, -, ha⟩
    · exact ⟨p, a, hst, hp, ha⟩
    · exact absurd hop (ha.op_ne_assign hs)
  · rintro ⟨p, a, rfl, hp, ha⟩
    have hkind := hs.operator
    rw [hop, operator?_eq_assign_iff] at hkind
    rw [hs.tokens_eq]
    exact .assignment hp hkind ha

/-- Tokens that are split at any other operator are a value. -/
theorem iff_value {s : Split} {op : Arithmetic}
    (hwrapped : isWrapped Token.parenthesis tokens = false) (hs : IsSplit tokens s)
    (hop : s.op = .arithmetic op) :
    Derives tokens st ↔ ∃ a, st = .value a ∧ Term.Derives .value tokens a := by
  constructor
  · intro h
    rcases h.split hwrapped hs with ⟨p, a, hop', -⟩ | hvalue
    · rw [hop] at hop'
      cases hop'
    · exact hvalue
  · rintro ⟨a, rfl, ha⟩
    exact .value ha

end Statement.Derives

theorem Statement.derives_stripParentheses {tokens : List Token} {st : Statement} :
    Derives (stripParentheses tokens) st ↔ Derives tokens st :=
  stripParentheses_iff (P := fun tokens => Derives tokens st) Derives.enclosed_iff tokens

theorem Place.Derives.unique {tokens : List Token} {p q : Place} (h : Derives tokens p)
    (h' : Derives tokens q) : p = q := by
  rw [← Expression.place?_target?_iff] at h h'
  exact Option.some.inj (h.symm.trans h')

/-- A type and a name are no term. -/
theorem Term.Derives.not_declaration {ty ident : Token} {a : Term} (hty : ty.kind = .identifier)
    (hident : ident.kind = .identifier) : ¬ Derives .value [ty, ident] a := by
  intro h
  have hops := (@topOperators_identifiers [ty, ident] (by simp [hty, hident])).2
  have hfactor : Derives .factor [ty, ident] a := h.of_precedence_le (by simp [hops])
  generalize htokens : [ty, ident] = tokens at hfactor
  cases hfactor with
  | name | integer => simp at htokens
  | negative hsign =>
      cases htokens
      rw [hty] at hsign
      cases hsign
  | group hfirst =>
      simp only [List.cons.injEq] at htokens
      rw [← htokens.1, hty] at hfirst
      cases hfirst

/-- Tokens stand for one statement only. -/
theorem Statement.Derives.unique {tokens : List Token} {st st' : Statement} (h : Derives tokens st)
    (h' : Derives tokens st') : st = st' := by
  rw [← derives_stripParentheses] at h h'
  have hwrapped := isWrapped_stripParentheses tokens
  generalize stripParentheses tokens = tokens at h h' hwrapped
  -- Brackets are off, so each derivation ends with one of the three other rules.
  cases h with
  | assignment hp htoken ha =>
      obtain ⟨q, b, rfl, hq, hb⟩ :=
        (iff_assignment hwrapped (isSplit_assignment hp htoken ha) rfl).mp h'
      rw [hp.unique hq, ha.unique hb]
  | @declaration ty ident hty hident =>
      have hops := (@topOperators_identifiers [ty, ident] (by simp [hty, hident])).2
      generalize htokens : [ty, ident] = tokens at h' hops
      cases h' with
      | assignment hp htoken ha =>
          have hmem := (isSplit_assignment hp htoken ha).mem_topOperators
          rw [hops] at hmem
          cases hmem
      | declaration =>
          cases htokens
          rfl
      | value h' => exact absurd (htokens ▸ h') (Term.Derives.not_declaration hty hident)
      | group hfirst =>
          simp only [List.cons.injEq] at htokens
          rw [← htokens.1, hty] at hfirst
          cases hfirst
  | value h =>
      cases h' with
      | assignment hp htoken ha =>
          exact absurd rfl (h.op_ne_assign (isSplit_assignment hp htoken ha))
      | declaration hty hident => exact absurd h (Term.Derives.not_declaration hty hident)
      | value h' => rw [h.unique h']
      | group hfirst h' hlast =>
          rw [isWrapped_enclosed hfirst hlast h'.balanced] at hwrapped
          cases hwrapped
  | group hfirst h hlast =>
      rw [isWrapped_enclosed hfirst hlast h.balanced] at hwrapped
      cases hwrapped

theorem Expression.statement?_ofLiteral (negative : Bool) (digits : Token) (pos : Nat) :
    (ofLiteral negative digits pos).statement? =
      (ofLiteral negative digits pos).term?.map .value := by
  simp only [ofLiteral]
  generalize (if negative = true then -(Literal.value digits.text.toList : Int)
    else Literal.value digits.text.toList) = value
  split <;> rfl

/-- An operand is a declaration, or what it states is its value. -/
theorem Expression.ofOperand_cases (tokens : List Token) :
    ofOperand tokens = .declaration tokens ∨
      (ofOperand tokens).statement? = (ofOperand tokens).term?.map .value := by
  unfold ofOperand
  split
  · right
    split
    · rfl
    · split
      · exact statement?_ofLiteral _ _ _
      · rfl
  · split
    · exact .inr (statement?_ofLiteral _ _ _)
    · split
      · exact .inl rfl
      · exact .inr rfl
  · exact .inr rfl

/-- Tokens without operators are read as a declaration or a factor, unless they are in brackets. -/
theorem Expression.statement?_ofOperand_iff {tokens : List Token} {st : Statement}
    (hops : topOperators tokens = []) (hwrapped : isWrapped Token.parenthesis tokens = false) :
    (ofOperand tokens).statement? = some st ↔ Statement.Derives tokens st ∧ st.InRange := by
  constructor
  · intro h
    rcases ofOperand_cases tokens with hdecl | hvalue
    · rw [hdecl] at h
      simp only [statement?, Option.map_eq_some_iff] at h
      obtain ⟨⟨ty, ident⟩, hdeclared, rfl⟩ := h
      obtain ⟨t, n, rfl, ht, hn, rfl, rfl⟩ := declared?_eq_some_iff.mp hdeclared
      exact ⟨.declaration ht hn, trivial⟩
    · rw [hvalue, Option.map_eq_some_iff] at h
      obtain ⟨a, ha, rfl⟩ := h
      obtain ⟨hderives, hrange⟩ := (term?_ofOperand_iff hops hwrapped).mp ha
      exact ⟨.value hderives, hrange⟩
  · rintro ⟨h, hrange⟩
    cases h with
    | assignment hp htoken ha =>
        have hmem := (Statement.Derives.isSplit_assignment hp htoken ha).mem_topOperators
        rw [hops] at hmem
        cases hmem
    | declaration hty hname => simp [ofOperand, hty, hname, statement?, declared?]
    | value h =>
        have ha := (term?_ofOperand_iff hops hwrapped).mpr ⟨h, hrange⟩
        rcases ofOperand_cases tokens with hdecl | hvalue
        · rw [hdecl] at ha
          cases ha
        · rw [hvalue, ha, Option.map_some]
    | group hfirst h hlast =>
        rw [isWrapped_enclosed hfirst hlast h.balanced] at hwrapped
        cases hwrapped

/-- The statements that are read are the statements of the grammar whose constants are in range. -/
theorem Expression.statement?_ofTokens_iff {tokens : List Token} {st : Statement}
    (hb : IsBalanced Token.parenthesis tokens) :
    (ofTokens tokens).statement? = some st ↔ Statement.Derives tokens st ∧ st.InRange := by
  rw [← Statement.derives_stripParentheses]
  have hb' := balanced_stripParentheses.mpr hb
  have hwrapped := isWrapped_stripParentheses tokens
  fun_cases ofTokens tokens with
  | case1 hnil =>
      rw [hnil]
      apply iff_of_false (by simp [notAnOperand, statement?, term?])
      intro h
      exact h.1.ne_nil rfl
  | case2 _ hsplit => exact statement?_ofOperand_iff ((split?_eq_none_iff hb').mp hsplit) hwrapped
  | case3 _ s hsplit _ hnil =>
      apply iff_of_false (by simp [statement?, term?])
      intro h
      exact (h.1.sides_ne_nil hwrapped ((split?_eq_some_iff hb' s).mp hsplit)).1 hnil
  | case4 _ s hsplit _ _ hnil =>
      apply iff_of_false (by simp [statement?, term?])
      intro h
      exact (h.1.sides_ne_nil hwrapped ((split?_eq_some_iff hb' s).mp hsplit)).2 hnil
  | case5 _ s hsplit _ _ _ op hop =>
      have hs := (split?_eq_some_iff hb' s).mp hsplit
      have hterm : ∀ {a}, (arithmetic op s.token.start (ofTokens s.left) (ofTokens s.right)).term? =
          some a ↔ Term.Derives .value (stripParentheses tokens) a ∧ a.InRange :=
        term?_arithmetic_iff hs hop (term?_ofTokens_iff hs.balanced)
          (term?_ofTokens_iff (hs.balanced_right hb'))
      rw [Statement.Derives.iff_value hwrapped hs hop]
      constructor
      · intro h
        obtain ⟨a, ha, rfl⟩ := Option.map_eq_some_iff.mp h
        obtain ⟨hderives, hrange⟩ := hterm.mp ha
        exact ⟨⟨a, rfl, hderives⟩, hrange⟩
      · rintro ⟨⟨a, rfl, ha⟩, hrange⟩
        exact Option.map_eq_some_iff.mpr ⟨a, hterm.mpr ⟨ha, hrange⟩, rfl⟩
  | case6 _ s hsplit _ _ _ hop htarget =>
      have hs := (split?_eq_some_iff hb' s).mp hsplit
      apply iff_of_false (by simp [statement?, term?])
      intro h
      obtain ⟨p, a, -, hp, -⟩ := (Statement.Derives.iff_assignment hwrapped hs hop).mp h.1
      rw [← place?_target?_iff, htarget] at hp
      cases hp
  | case7 _ s hsplit _ _ _ hop target htarget =>
      have hs := (split?_eq_some_iff hb' s).mp hsplit
      have hplace : ∀ {p}, target.place? = some p ↔ Place.Derives s.left p := by
        intro p
        rw [← place?_target?_iff, htarget, Option.bind_some]
      have hvalue : ∀ {a}, (ofTokens s.right).term? = some a ↔
          Term.Derives .value s.right a ∧ a.InRange := term?_ofTokens_iff (hs.balanced_right hb')
      rw [Statement.Derives.iff_assignment hwrapped hs hop]
      simp only [statement?, Option.bind_eq_bind, Option.bind_eq_some_iff, Option.pure_def,
        Option.some.injEq, hplace, hvalue]
      constructor
      · rintro ⟨p, hp, a, ⟨ha, hrange⟩, rfl⟩
        exact ⟨⟨p, a, rfl, hp, ha⟩, hrange⟩
      · rintro ⟨⟨p, a, rfl, hp, ha⟩, hrange⟩
        exact ⟨p, hp, a, ⟨ha, hrange⟩, rfl⟩

end StackScript
