import StackScript.Expression
import StackScript.Proofs.Delimiter

/-! # The split point of an expression

Tokens are split at the right-most of the binary operators outside of brackets that bind weakest.
The operators of two parts are the operators of the whole, so what is said here of a split holds
again of its two sides. -/

namespace StackScript

open Delimiter

/-! ## Brackets among tokens -/

theorem Token.parenthesis_eq_opening {token : Token} :
    token.parenthesis = opening ↔ token.kind = .leftParen := by
  simp only [Token.parenthesis, between]
  split
  · simp_all
  · split <;> simp_all

theorem Token.parenthesis_eq_closing {token : Token} :
    token.parenthesis = closing ↔ token.kind = .rightParen := by
  simp only [Token.parenthesis, between]
  split
  · simp_all
  · split <;> simp_all

theorem Token.parenthesis_eq_other {token : Token} :
    token.parenthesis = other ↔ token.kind ≠ .leftParen ∧ token.kind ≠ .rightParen := by
  simp only [Token.parenthesis, between]
  split
  · simp_all
  · split <;> simp_all

/-- Operators are no brackets. -/
theorem Token.parenthesis_of_operator? {token : Token} {op : Operator}
    (h : token.kind.operator? = some op) : token.parenthesis = other := by
  rw [Token.parenthesis_eq_other]
  constructor
  all_goals
    intro hkind
    rw [hkind] at h
    cases h

/-! ## Operators outside of brackets -/

/-- The kind of the token before whatever follows the given tokens. -/
def kindBehind (previous : Option Kind) (tokens : List Token) : Option Kind :=
  tokens.foldl (fun _ token => some token.kind) previous

@[simp] theorem kindBehind_nil (previous : Option Kind) : kindBehind previous [] = previous := rfl

@[simp] theorem kindBehind_cons (previous : Option Kind) (token : Token) (tokens : List Token) :
    kindBehind previous (token :: tokens) = kindBehind (some token.kind) tokens := rfl

theorem kindBehind_append_singleton (previous : Option Kind) (tokens : List Token)
    (token : Token) : kindBehind previous (tokens ++ [token]) = some token.kind := by
  simp [kindBehind]

/-- The operator that a token is when the scan reaches it, with its index. -/
def operatorHere (index depth : Nat) (previous : Option Kind) (token : Token) :
    Option (Nat × Operator) :=
  if depth = 0 ∧ isSign previous token.kind = false then token.kind.operator?.map (index, ·)
  else none

theorem operatorHere_eq_some_iff {index depth i : Nat} {previous : Option Kind} {token : Token}
    {op : Operator} :
    operatorHere index depth previous token = some (i, op) ↔
      depth = 0 ∧ i = index ∧ token.kind.operator? = some op ∧
        isSign previous token.kind = false := by
  by_cases hhere : depth = 0 ∧ isSign previous token.kind = false
  · rw [operatorHere, if_pos hhere, Option.map_eq_some_iff]
    constructor
    · rintro ⟨op', hop, heq⟩
      cases heq
      exact ⟨hhere.1, rfl, hop, hhere.2⟩
    · rintro ⟨-, rfl, hop, -⟩
      exact ⟨op, hop, rfl⟩
  · rw [operatorHere, if_neg hhere]
    constructor
    · intro h
      cases h
    · rintro ⟨hdepth, -, -, hsign⟩
      exact absurd ⟨hdepth, hsign⟩ hhere

theorem binaryOperators_cons (index depth : Nat) (previous : Option Kind) (token : Token)
    (rest : List (Token × Nat)) :
    binaryOperators index previous ((token, depth) :: rest) =
      (operatorHere index depth previous token).toList ++
        binaryOperators (index + 1) (some token.kind) rest := by
  simp only [binaryOperators, operatorHere, Bool.not_eq_true']
  split
  · cases token.kind.operator? <;> rfl
  · rfl

/-- The binary operators of tokens that start at an index and a depth. -/
def operatorsFrom (index depth : Nat) (previous : Option Kind) (tokens : List Token) :
    List (Nat × Operator) :=
  binaryOperators index previous (tokens.zip (depthsFrom Token.parenthesis depth tokens))

/-- The operators of an expression between which it can be split. -/
def topOperators (tokens : List Token) : List Operator :=
  (operatorsFrom 0 0 none tokens).map Prod.snd

@[simp] theorem operatorsFrom_nil (index depth : Nat) (previous : Option Kind) :
    operatorsFrom index depth previous [] = [] := rfl

theorem operatorsFrom_cons_opening {token : Token} (h : token.parenthesis = opening)
    (index depth : Nat) (previous : Option Kind) (tokens : List Token) :
    operatorsFrom index depth previous (token :: tokens) =
      operatorsFrom (index + 1) (depth + 1) (some token.kind) tokens := by
  have hkind := Token.parenthesis_eq_opening.mp h
  simp [operatorsFrom, depthsFrom, binaryOperators, h, hkind, Kind.operator?]

theorem operatorsFrom_cons_closing {token : Token} (h : token.parenthesis = closing)
    (index depth : Nat) (previous : Option Kind) (tokens : List Token) :
    operatorsFrom index depth previous (token :: tokens) =
      operatorsFrom (index + 1) (depth - 1) (some token.kind) tokens := by
  have hkind := Token.parenthesis_eq_closing.mp h
  simp [operatorsFrom, depthsFrom, binaryOperators, h, hkind, Kind.operator?]

theorem operatorsFrom_cons_other {token : Token} (h : token.parenthesis = other)
    (index depth : Nat) (previous : Option Kind) (tokens : List Token) :
    operatorsFrom index depth previous (token :: tokens) =
      (operatorHere index depth previous token).toList ++
        operatorsFrom (index + 1) depth (some token.kind) tokens := by
  simp only [operatorsFrom, depthsFrom, h, List.zip_cons_cons, binaryOperators_cons]

/-- What the first of some tokens does to the depth, and the operator that it may be. -/
theorem operatorsFrom_cons {depth last : Nat} {x : Token} {xs : List Token}
    (h : depthAfter Token.parenthesis depth (x :: xs) = some last) (index : Nat)
    (previous : Option Kind) :
    ∃ depth' here, depthAfter Token.parenthesis depth' xs = some last ∧
      (∀ ys, depthAfter Token.parenthesis depth (x :: ys) =
        depthAfter Token.parenthesis depth' ys) ∧
      (∀ ys, operatorsFrom index depth previous (x :: ys) =
        here ++ operatorsFrom (index + 1) depth' (some x.kind) ys) ∧
      (here = [] ∨ ∃ op, here = [(index, op)] ∧ depth = 0 ∧ x.kind.operator? = some op ∧
        isSign previous x.kind = false) := by
  obtain ⟨hx, hxs⟩ | ⟨hx, hxs⟩ | ⟨hx, d, rfl, hxs⟩ := depthAfter_cons_eq_some h
  · exact ⟨depth + 1, [], hxs, depthAfter_cons_opening hx depth,
      operatorsFrom_cons_opening hx index depth previous, .inl rfl⟩
  · refine ⟨depth, _, hxs, depthAfter_cons_other hx depth,
      operatorsFrom_cons_other hx index depth previous, ?_⟩
    cases hhere : operatorHere index depth previous x with
    | none => exact .inl rfl
    | some found =>
        obtain ⟨hdepth, hindex, hop, hsign⟩ := operatorHere_eq_some_iff.mp hhere
        exact .inr ⟨found.2, by simp [← hindex], hdepth, hop, hsign⟩
  · exact ⟨d, [], hxs, depthAfter_cons_closing_succ hx d,
      operatorsFrom_cons_closing hx index (d + 1) previous, .inl rfl⟩

theorem operatorsFrom_append {depth last : Nat} {xs : List Token}
    (h : depthAfter Token.parenthesis depth xs = some last) (index : Nat)
    (previous : Option Kind) (ys : List Token) :
    operatorsFrom index depth previous (xs ++ ys) =
      operatorsFrom index depth previous xs ++
        operatorsFrom (index + xs.length) last (kindBehind previous xs) ys := by
  induction xs generalizing index depth previous with
  | nil =>
      cases h
      rfl
  | cons x xs ih =>
      obtain ⟨depth', here, hxs, -, hcons, -⟩ := operatorsFrom_cons h index previous
      rw [List.cons_append, hcons, hcons, ih hxs, List.append_assoc, kindBehind_cons,
        List.length_cons, Nat.add_comm xs.length 1, ← Nat.add_assoc]

/-- Inside of brackets there is nothing to split at. -/
theorem operatorsFrom_succ {depth last : Nat} {tokens : List Token}
    (h : depthAfter Token.parenthesis depth tokens = some last) (index : Nat)
    (previous : Option Kind) : operatorsFrom index (depth + 1) previous tokens = [] := by
  induction tokens generalizing index depth previous with
  | nil => rfl
  | cons x xs ih =>
      obtain ⟨hx, hxs⟩ | ⟨hx, hxs⟩ | ⟨hx, d, rfl, hxs⟩ := depthAfter_cons_eq_some h
      · rw [operatorsFrom_cons_opening hx, ih hxs]
      · rw [operatorsFrom_cons_other hx, ih hxs, operatorHere, if_neg (by simp)]
        rfl
      · rw [operatorsFrom_cons_closing hx]
        exact ih hxs (index + 1) (some x.kind)

theorem map_snd_operatorsFrom (index depth : Nat) (previous : Option Kind)
    (tokens : List Token) :
    (operatorsFrom index depth previous tokens).map Prod.snd =
      (operatorsFrom 0 depth previous tokens).map Prod.snd := by
  suffices h : ∀ index' : Nat, (operatorsFrom index depth previous tokens).map Prod.snd =
      (operatorsFrom index' depth previous tokens).map Prod.snd from h 0
  induction tokens generalizing index depth previous with
  | nil => simp
  | cons x xs ih =>
      intro index'
      cases hx : x.parenthesis with
      | opening =>
          rw [operatorsFrom_cons_opening hx, operatorsFrom_cons_opening hx]
          exact ih _ _ _ _
      | closing =>
          rw [operatorsFrom_cons_closing hx, operatorsFrom_cons_closing hx]
          exact ih _ _ _ _
      | other =>
          rw [operatorsFrom_cons_other hx, operatorsFrom_cons_other hx, List.map_append,
            List.map_append, ih _ _ _ (index' + 1), operatorHere, operatorHere]
          congr 1
          split
          · cases x.kind.operator? <;> rfl
          · rfl

/-- A sign is a sign at the start of the tokens and behind an operator or an opening bracket
alike. -/
theorem operatorsFrom_behind {kind : Kind}
    (h : kind = .leftParen ∨ kind.operator?.isSome = true) (index depth : Nat)
    (tokens : List Token) :
    operatorsFrom index depth (some kind) tokens = operatorsFrom index depth none tokens := by
  have hsign : ∀ k, isSign (some kind) k = isSign none k := by
    intro k
    rcases h with h | h <;> simp [isSign, h]
  cases tokens with
  | nil => rfl
  | cons x xs =>
      cases hx : x.parenthesis with
      | opening => rw [operatorsFrom_cons_opening hx, operatorsFrom_cons_opening hx]
      | closing => rw [operatorsFrom_cons_closing hx, operatorsFrom_cons_closing hx]
      | other =>
          rw [operatorsFrom_cons_other hx, operatorsFrom_cons_other hx, operatorHere, operatorHere,
            hsign]

theorem topOperators_append_operator {left right : List Token} {token : Token} {op : Operator}
    (hleft : IsBalanced Token.parenthesis left) (hop : token.kind.operator? = some op)
    (hsign : isSign (kindBehind none left) token.kind = false) :
    topOperators (left ++ token :: right) = topOperators left ++ op :: topOperators right := by
  have hbehind := @operatorsFrom_behind token.kind (.inr (by simp [hop]))
  simp only [topOperators]
  rw [operatorsFrom_append hleft, operatorsFrom_cons_other (Token.parenthesis_of_operator? hop),
    operatorHere_eq_some_iff.mpr ⟨rfl, rfl, hop, hsign⟩, hbehind]
  simp only [Option.toList_some, List.map_append, List.map_cons, List.map_nil]
  rw [map_snd_operatorsFrom (0 + left.length + 1)]
  rfl

/-- A bracketed expression has no operators of its own. -/
theorem topOperators_enclosed {first last : Token} {inner : List Token}
    (hfirst : first.kind = .leftParen) (hlast : last.kind = .rightParen)
    (hinner : IsBalanced Token.parenthesis inner) :
    topOperators (first :: (inner ++ [last])) = [] := by
  simp only [topOperators, List.map_eq_nil_iff]
  rw [operatorsFrom_cons_opening (Token.parenthesis_eq_opening.mpr hfirst),
    operatorsFrom_append (depthAfter_add 1 hinner), operatorsFrom_succ hinner,
    operatorsFrom_cons_closing (Token.parenthesis_eq_closing.mpr hlast)]
  rfl

/-- Where an operator stands among the operators of balanced tokens, there it stands among the
tokens, with the operators before it on its left and those behind it on its right. -/
theorem exists_of_operatorsFrom_eq {index depth last place : Nat} {previous : Option Kind}
    {tokens : List Token} {op : Operator} {before after : List (Nat × Operator)}
    (hdepth : depthAfter Token.parenthesis depth tokens = some last)
    (h : operatorsFrom index depth previous tokens = before ++ (place, op) :: after) :
    ∃ left token right, tokens = left ++ token :: right ∧ place = index + left.length ∧
      depthAfter Token.parenthesis depth left = some 0 ∧ token.kind.operator? = some op ∧
      isSign (kindBehind previous left) token.kind = false ∧
      before = operatorsFrom index depth previous left ∧
      after = operatorsFrom (place + 1) 0 (some token.kind) right := by
  induction tokens generalizing index depth previous before with
  | nil => simp at h
  | cons x xs ih =>
      obtain ⟨depth', here, hxs, hdepths, hcons, hhere⟩ :=
        operatorsFrom_cons hdepth index previous
      -- Either the operator is the first token, or it stands among the others.
      have hcases : (before = [] ∧ here = [(place, op)]) ∨ ∃ before', before = here ++ before' ∧
          operatorsFrom (index + 1) depth' (some x.kind) xs = before' ++ (place, op) :: after := by
        rw [hcons] at h
        rcases hhere with rfl | ⟨op', rfl, -⟩
        · exact .inr ⟨before, rfl, h⟩
        · cases before with
          | nil =>
              rw [List.singleton_append, List.nil_append, List.cons.injEq] at h
              exact .inl ⟨rfl, by rw [h.1]⟩
          | cons b before =>
              rw [List.singleton_append, List.cons_append, List.cons.injEq] at h
              exact .inr ⟨before, by rw [h.1, List.singleton_append], h.2⟩
      rcases hcases with ⟨rfl, rfl⟩ | ⟨before', rfl, hrest⟩
      · rcases hhere with hnil | ⟨op', hop', rfl, hop, hsign⟩
        · cases hnil
        · cases hop'
          rw [hcons, List.nil_append, List.singleton_append, List.cons.injEq] at h
          have hx := depthAfter_cons_other (Token.parenthesis_of_operator? hop) 0 []
          have hdepth' : depth' = 0 := by simpa [hdepths] using hx
          rw [hdepth'] at h
          exact ⟨[], x, xs, rfl, rfl, rfl, hop, hsign, rfl, h.2.symm⟩
      · obtain ⟨left, token, right, rfl, hplace, hleft, hop, hsign, rfl, hafter⟩ := ih hxs hrest
        refine ⟨x :: left, token, right, rfl, ?_, (hdepths left).trans hleft, hop, hsign,
          (hcons left).symm, hafter⟩
        rw [hplace, List.length_cons]
        omega

/-! ## The right-most of the weakest operators -/

theorem Operator.precedence_lt (op : Operator) : op.precedence < 3 := by
  rcases op with _ | op
  · decide
  · cases op <;> decide

/-- What stays in hand is the operator from before, if it binds weaker, or else the new one. -/
theorem weaker_cases (best : Option (Nat × Operator)) (c : Nat × Operator) :
    (∃ b, best = some b ∧ weaker best c = some b ∧ b.2.precedence < c.2.precedence) ∨
      (weaker best c = some c ∧ ∀ b ∈ best, c.2.precedence ≤ b.2.precedence) := by
  cases best with
  | none => exact .inr ⟨rfl, by simp⟩
  | some b =>
      by_cases h : b.2.precedence < c.2.precedence
      · exact .inl ⟨b, rfl, if_pos h, h⟩
      · refine .inr ⟨if_neg h, ?_⟩
        intro d hd
        cases hd
        exact Nat.le_of_not_lt h

/-- Nothing before the chosen operator binds weaker, and all behind it bind tighter. The operator
in hand at the start counts as one before all others. -/
theorem foldl_weaker_eq_some_iff (ops : List (Nat × Operator)) (best : Option (Nat × Operator))
    (b : Nat × Operator) :
    ops.foldl weaker best = some b ↔
      (best = some b ∧ ∀ c ∈ ops, b.2.precedence < c.2.precedence) ∨
      ∃ before after, ops = before ++ b :: after ∧
        (∀ c ∈ best, b.2.precedence ≤ c.2.precedence) ∧
        (∀ c ∈ before, b.2.precedence ≤ c.2.precedence) ∧
        ∀ c ∈ after, b.2.precedence < c.2.precedence := by
  induction ops generalizing best with
  | nil => simp
  | cons c ops ih =>
      rw [List.foldl_cons, ih]
      constructor
      · rintro (⟨hb, hops⟩ | ⟨before, after, rfl, hbest, hbefore, hafter⟩)
        · rcases weaker_cases best c with ⟨d, rfl, hd, hlt⟩ | ⟨hc, hle⟩
          · rw [hd] at hb
            cases hb
            exact .inl ⟨rfl, List.forall_mem_cons.mpr ⟨hlt, hops⟩⟩
          · rw [hc] at hb
            cases hb
            exact .inr ⟨[], ops, rfl, hle, by simp, hops⟩
        · refine .inr ⟨c :: before, after, rfl, ?_, ?_, hafter⟩
          · rcases weaker_cases best c with ⟨d, rfl, hd, hlt⟩ | ⟨hc, hle⟩
            · exact hd ▸ hbest
            · intro d hd
              exact Nat.le_trans (hbest c hc) (hle d hd)
          · rcases weaker_cases best c with ⟨d, rfl, hd, hlt⟩ | ⟨hc, hle⟩
            · exact List.forall_mem_cons.mpr
                ⟨Nat.le_trans (hbest d hd) (Nat.le_of_lt hlt), hbefore⟩
            · exact List.forall_mem_cons.mpr ⟨hbest c hc, hbefore⟩
      · rintro (⟨rfl, hops⟩ | ⟨before, after, hops, hbest, hbefore, hafter⟩)
        · obtain ⟨hlt, hops⟩ := List.forall_mem_cons.mp hops
          exact .inl ⟨if_pos hlt, hops⟩
        · cases before with
          | nil =>
              rw [List.nil_append, List.cons.injEq] at hops
              obtain ⟨rfl, rfl⟩ := hops
              rcases weaker_cases best c with ⟨d, rfl, hd, hlt⟩ | ⟨hc, -⟩
              · exact absurd hlt (Nat.not_lt.mpr (hbest d rfl))
              · exact .inl ⟨hc, hafter⟩
          | cons e before =>
              rw [List.cons_append, List.cons.injEq] at hops
              obtain ⟨rfl, rfl⟩ := hops
              obtain ⟨hle, hbefore⟩ := List.forall_mem_cons.mp hbefore
              refine .inr ⟨before, after, rfl, ?_, hbefore, hafter⟩
              rcases weaker_cases best c with ⟨d, rfl, hd, -⟩ | ⟨hc, -⟩
              · rw [hd]
                exact hbest
              · intro d hd
                rw [hc] at hd
                cases hd
                exact hle

/-! ## Splitting -/

/-- The two sides of a split and the operator between them, as the grammar sees them. -/
structure IsSplit (tokens : List Token) (s : Split) : Prop where
  tokens_eq : tokens = s.left ++ s.token :: s.right
  balanced : IsBalanced Token.parenthesis s.left
  operator : s.token.kind.operator? = some s.op
  binary : isSign (kindBehind none s.left) s.token.kind = false
  left : ∀ op ∈ topOperators s.left, s.op.precedence ≤ op.precedence
  right : ∀ op ∈ topOperators s.right, s.op.precedence < op.precedence

theorem splitPoint?_eq (tokens : List Token) :
    splitPoint? tokens = (operatorsFrom 0 0 none tokens).foldl weaker none := rfl

/-- The cut at an operator between two given sides. -/
theorem take_drop_operator (left right : List Token) (token : Token) :
    (left ++ token :: right).take left.length = left ∧
      (left ++ token :: right).drop left.length = token :: right :=
  ⟨List.take_left' rfl, List.drop_left' rfl⟩

theorem isSplit_of_splitPoint? {tokens : List Token} (h : IsBalanced Token.parenthesis tokens)
    {place : Nat} {op : Operator} (hpoint : splitPoint? tokens = some (place, op)) :
    ∃ left token right, place = left.length ∧ IsSplit tokens ⟨left, op, token, right⟩ := by
  rw [splitPoint?_eq] at hpoint
  obtain ⟨hnone, -⟩ | ⟨before, after, hops, -, hbefore, hafter⟩ :=
    (foldl_weaker_eq_some_iff _ none (place, op)).mp hpoint
  · cases hnone
  · obtain ⟨left, token, right, htokens, rfl, hleft, hop, hsign, rfl, rfl⟩ :=
      exists_of_operatorsFrom_eq h hops
    have hbehind := @operatorsFrom_behind token.kind (.inr (by simp [hop]))
    refine ⟨left, token, right, Nat.zero_add _, htokens, hleft, hop, hsign, ?_, ?_⟩
    · intro op' hmem
      obtain ⟨c, hc, rfl⟩ := List.mem_map.mp hmem
      exact hbefore c hc
    · intro op' hmem
      rw [topOperators, ← map_snd_operatorsFrom (0 + left.length + 1), ← hbehind] at hmem
      obtain ⟨c, hc, rfl⟩ := List.mem_map.mp hmem
      exact hafter c hc

theorem IsSplit.splitPoint? {tokens : List Token} {s : Split} (h : IsSplit tokens s) :
    splitPoint? tokens = some (s.left.length, s.op) := by
  obtain ⟨rfl, hleft, hop, hsign, hbefore, hafter⟩ := h
  have hbehind := @operatorsFrom_behind s.token.kind (.inr (by simp [hop]))
  rw [splitPoint?_eq]
  refine (foldl_weaker_eq_some_iff _ none _).mpr (.inr ?_)
  refine ⟨operatorsFrom 0 0 none s.left,
    operatorsFrom (s.left.length + 1) 0 (some s.token.kind) s.right, ?_, by simp, ?_, ?_⟩
  · rw [operatorsFrom_append hleft,
      operatorsFrom_cons_other (Token.parenthesis_of_operator? hop),
      operatorHere_eq_some_iff.mpr ⟨rfl, rfl, hop, hsign⟩, Nat.zero_add]
    rfl
  · intro c hc
    exact hbefore c.2 (List.mem_map_of_mem hc)
  · intro c hc
    rw [hbehind] at hc
    apply hafter c.2
    rw [topOperators, ← map_snd_operatorsFrom (s.left.length + 1)]
    exact List.mem_map_of_mem hc

/-- Tokens are split at an operator of theirs outside of brackets, to the left of which no operator
binds weaker, and to the right of which all bind tighter. -/
theorem split?_eq_some_iff {tokens : List Token} (h : IsBalanced Token.parenthesis tokens)
    (s : Split) : split? tokens = some s ↔ IsSplit tokens s := by
  constructor
  · intro hs
    simp only [split?] at hs
    split at hs
    · cases hs
    · rename_i place op hpoint
      obtain ⟨left, token, right, rfl, hsplit⟩ := isSplit_of_splitPoint? h hpoint
      obtain ⟨htake, hdrop⟩ := take_drop_operator left right token
      rw [hsplit.tokens_eq] at hs ⊢
      rw [htake, hdrop] at hs
      cases hs
      exact hsplit.tokens_eq ▸ hsplit
  · intro hsplit
    obtain ⟨htake, hdrop⟩ := take_drop_operator s.left s.right s.token
    simp only [split?, hsplit.splitPoint?]
    rw [hsplit.tokens_eq, htake, hdrop]

theorem IsSplit.unique {tokens : List Token} {s s' : Split} (hs : IsSplit tokens s)
    (h : IsBalanced Token.parenthesis tokens) (hs' : IsSplit tokens s') : s = s' := by
  have heq := (split?_eq_some_iff h s).mpr hs
  rw [(split?_eq_some_iff h s').mpr hs', Option.some.injEq] at heq
  exact heq.symm

theorem IsSplit.mem_topOperators {tokens : List Token} {s : Split} (hs : IsSplit tokens s) :
    s.op ∈ topOperators tokens := by
  rw [hs.tokens_eq, topOperators_append_operator hs.balanced hs.operator hs.binary]
  simp

/-- Both sides of a split are balanced. -/
theorem IsSplit.balanced_right {tokens : List Token} {s : Split} (hs : IsSplit tokens s)
    (h : IsBalanced Token.parenthesis tokens) : IsBalanced Token.parenthesis s.right := by
  rw [hs.tokens_eq] at h
  have hother := Token.parenthesis_of_operator? hs.operator
  exact (IsBalanced.cons_other hother).mp (hs.balanced.of_append h)

theorem foldl_weaker_some (ops : List (Nat × Operator)) (b : Nat × Operator) :
    ops.foldl weaker (some b) ≠ none := by
  induction ops generalizing b with
  | nil => simp
  | cons c ops ih =>
      rw [List.foldl_cons]
      rcases weaker_cases (some b) c with ⟨d, -, hd, -⟩ | ⟨hc, -⟩
      · rw [hd]
        exact ih d
      · rw [hc]
        exact ih c

theorem foldl_weaker_eq_none_iff {ops : List (Nat × Operator)} :
    ops.foldl weaker none = none ↔ ops = [] := by
  constructor
  · intro h
    cases ops with
    | nil => rfl
    | cons c ops => exact absurd h (foldl_weaker_some ops c)
  · rintro rfl
    rfl

/-- Tokens without an operator outside of brackets are not split. -/
theorem split?_eq_none_iff {tokens : List Token} (h : IsBalanced Token.parenthesis tokens) :
    split? tokens = none ↔ topOperators tokens = [] := by
  constructor
  · intro hs
    cases hpoint : splitPoint? tokens with
    | none =>
        rw [splitPoint?_eq, foldl_weaker_eq_none_iff] at hpoint
        rw [topOperators, hpoint, List.map_nil]
    | some point =>
        obtain ⟨left, token, right, -, hsplit⟩ := isSplit_of_splitPoint? h hpoint
        rw [(split?_eq_some_iff h _).mpr hsplit] at hs
        cases hs
  · intro hops
    rw [topOperators, List.map_eq_nil_iff] at hops
    simp only [split?, splitPoint?_eq, hops, List.foldl_nil]

end StackScript
