import StackScript.Proofs.Matching
import StackScript.Proofs.Reading

/-! # Brackets around everything

The search for an enclosing pair counts from the first item to its partner. In the depths the same
pair is seen from outside: it stands at depth zero, and everything between its two items is further
in. Brackets around an expression are taken off one pair at a time, until there is no such pair. -/

namespace StackScript

open Delimiter

/-! ## Enclosing pairs by depth -/

namespace Delimiter

variable {α : Type} {classify : α → Delimiter}

/-- The first item opens, the last one closes at depth zero, and all between them are further in. -/
structure IsEnclosed (classify : α → Delimiter) (items : List α) : Prop where
  two_le_length : 2 ≤ items.length
  opening_first : IsAt classify items opening 0
  closing_last : IsAt classify items closing (items.length - 1)
  depth_last : (depths classify items)[items.length - 1]? = some 0
  depth_inner : ∀ i, 0 < i → i < items.length - 1 →
    ∃ d, (depths classify items)[i]? = some d ∧ 1 ≤ d

theorem take_depthsFrom (depth n : Nat) (items : List α) :
    (depthsFrom classify depth items).take n = depthsFrom classify depth (items.take n) := by
  induction items generalizing depth n with
  | nil => simp [depthsFrom]
  | cons item items ih =>
      cases n with
      | zero => rfl
      | succ n => cases h : classify item <;> simp [depthsFrom, h, ih]

/-- Seen from one further in, a list that would close the group around it reaches depth zero. The
depths stop at zero, so this is the only trace that such an item leaves in them. -/
theorem exists_depthAfter_iff {depth : Nat} {xs : List α} :
    (∃ last, depthAfter classify depth xs = some last) ↔
      ∀ d ∈ depthsFrom classify (depth + 1) xs, 1 ≤ d := by
  constructor
  · rintro ⟨last, hlast⟩ d hd
    exact le_of_mem_depthsFrom hlast hd
  · intro h
    induction xs generalizing depth with
    | nil => exact ⟨depth, rfl⟩
    | cons x xs ih =>
        cases hx : classify x with
        | opening =>
            simp only [depthsFrom, hx, List.forall_mem_cons] at h
            rw [depthAfter_cons_opening hx]
            exact ih h.2
        | other =>
            simp only [depthsFrom, hx, List.forall_mem_cons] at h
            rw [depthAfter_cons_other hx]
            exact ih h.2
        | closing =>
            simp only [depthsFrom, hx, List.forall_mem_cons, Nat.add_sub_cancel] at h
            obtain ⟨depth, rfl⟩ := Nat.exists_eq_add_one_of_ne_zero (Nat.ne_zero_of_lt h.1)
            rw [depthAfter_cons_closing_succ hx]
            exact ih h.2

theorem isEnclosed_of_balanced {first last : α} {inner : List α} (hfirst : classify first = opening)
    (hlast : classify last = closing) (hinner : IsBalanced classify inner) :
    IsEnclosed classify (first :: (inner ++ [last])) := by
  have hdepths := depths_enclosed hfirst hinner hlast
  have hlength : (depths classify inner).length = inner.length := length_depthsFrom 0 inner
  refine ⟨by simp, by simp [IsAt, hfirst], by simp [IsAt, hlast], ?_, ?_⟩
  · rw [hdepths]
    simp [hlength]
  · intro i hpos hi
    obtain ⟨i, rfl⟩ := Nat.exists_eq_add_one_of_ne_zero (Nat.ne_zero_of_lt hpos)
    have hi' : i < (depths classify inner).length := by
      simp only [List.length_cons, List.length_append, List.length_nil] at hi
      omega
    refine ⟨(depths classify inner)[i] + 1, ?_, Nat.le_add_left _ _⟩
    rw [hdepths, List.getElem?_cons_succ, List.getElem?_append_left (by simpa using hi')]
    simp [hi']

/-- What follows a list does not change its depths. -/
theorem getElem?_depthsFrom_append {depth i : Nat} {xs : List α} (hi : i < xs.length)
    (ys : List α) :
    (depthsFrom classify depth (xs ++ ys))[i]? = (depthsFrom classify depth xs)[i]? := by
  rw [← List.getElem?_take_of_lt hi, take_depthsFrom, List.take_left]

theorem IsEnclosed.exists_balanced {items : List α} (h : IsEnclosed classify items) :
    ∃ first inner last, items = first :: (inner ++ [last]) ∧ classify first = opening ∧
      classify last = closing ∧ IsBalanced classify inner := by
  obtain ⟨hlength, hfirst, hlast, hdepth, hinner⟩ := h
  obtain ⟨first, rest, rfl⟩ := List.exists_cons_of_length_pos (Nat.lt_of_succ_lt hlength)
  have hrest : rest ≠ [] := by
    rintro rfl
    simp at hlength
  obtain ⟨inner, last, rfl⟩ : ∃ inner last, rest = inner ++ [last] :=
    ⟨_, _, (List.dropLast_concat_getLast hrest).symm⟩
  replace hfirst : classify first = opening := by simpa [IsAt] using hfirst
  replace hlast : classify last = closing := by simpa [IsAt] using hlast
  have hdepths : depths classify (first :: (inner ++ [last])) =
      0 :: depthsFrom classify 1 (inner ++ [last]) := by
    simp only [depths, depthsFrom, hfirst]
  rw [hdepths] at hdepth hinner
  have hclear : ∀ d ∈ depthsFrom classify 1 inner, 1 ≤ d := by
    intro d hd
    obtain ⟨i, hi⟩ := List.mem_iff_getElem?.mp hd
    obtain ⟨hlt, -⟩ := List.getElem?_eq_some_iff.mp hi
    rw [length_depthsFrom] at hlt
    obtain ⟨d', hd', hle⟩ := hinner (i + 1) i.succ_pos (by simpa using hlt)
    rw [List.getElem?_cons_succ, getElem?_depthsFrom_append hlt, hi, Option.some.injEq] at hd'
    exact hd' ▸ hle
  -- The last item is at depth zero, so the items before it led back to where they started.
  obtain ⟨n, hn⟩ := exists_depthAfter_iff.mpr hclear
  rw [depthsFrom_append (depthAfter_add 1 hn)] at hdepth
  obtain rfl : n = 0 := by simpa [depthsFrom, hlast] using hdepth
  exact ⟨first, inner, last, rfl, hfirst, hlast, hn⟩

/-- A list is wrapped when its depths show a pair around everything else. -/
theorem isWrapped_iff_isEnclosed {items : List α} :
    isWrapped classify items = true ↔ IsEnclosed classify items := by
  rw [isWrapped_iff]
  constructor
  · rintro ⟨first, inner, last, rfl, hfirst, hlast, hinner⟩
    exact isEnclosed_of_balanced hfirst hlast hinner
  · exact IsEnclosed.exists_balanced

end Delimiter

/-! ## Taking brackets off -/

/-- Around the inner tokens stand `n` opening and `n` closing brackets. -/
def HasLayers (n : Nat) (tokens inner : List Token) : Prop :=
  ∃ front back, tokens = front ++ (inner ++ back) ∧
    front.map Token.kind = List.replicate n .leftParen ∧
    back.map Token.kind = List.replicate n .rightParen

theorem HasLayers.zero (tokens : List Token) : HasLayers 0 tokens tokens :=
  ⟨[], [], by simp, rfl, rfl⟩

theorem HasLayers.enclosed {n : Nat} {tokens inner : List Token} {first last : Token}
    (h : HasLayers n tokens inner) (hfirst : first.kind = .leftParen)
    (hlast : last.kind = .rightParen) :
    HasLayers (n + 1) (first :: (tokens ++ [last])) inner := by
  obtain ⟨front, back, rfl, hfront, hback⟩ := h
  refine ⟨first :: front, back ++ [last], by simp, ?_, ?_⟩
  · rw [List.map_cons, hfirst, hfront, List.replicate_succ]
  · rw [List.map_append, hback, List.replicate_succ', List.map_singleton, hlast]

/-- Only one list is left when a number of layers is taken off. -/
theorem HasLayers.unique {n : Nat} {tokens inner inner' : List Token}
    (h : HasLayers n tokens inner) (h' : HasLayers n tokens inner') : inner = inner' := by
  obtain ⟨front, back, rfl, hfront, hback⟩ := h
  obtain ⟨front', back', htokens, hfront', hback'⟩ := h'
  have hlength : front.length = front'.length := by
    simpa using congrArg List.length (hfront.trans hfront'.symm)
  have hlength' : back.length = back'.length := by
    simpa using congrArg List.length (hback.trans hback'.symm)
  exact (List.append_inj' (List.append_inj htokens hlength).2 hlength').1

/-- Rounds of taking brackets off. A wrapped list loses its first and its last token, and any other
list is left as it is. -/
inductive Strips : Nat → List Token → List Token → Prop where
  | done {tokens : List Token} (h : isWrapped Token.parenthesis tokens = false) :
      Strips 0 tokens tokens
  | round {n : Nat} {tokens result : List Token}
      (h : isWrapped Token.parenthesis tokens = true) :
      Strips n tokens.tail.dropLast result → Strips (n + 1) tokens result

theorem exists_strips (tokens : List Token) : ∃ n, Strips n tokens (stripParentheses tokens) := by
  fun_induction stripParentheses tokens with
  | case1 tokens hwrapped ih =>
      obtain ⟨n, hn⟩ := ih
      exact ⟨n + 1, .round hwrapped hn⟩
  | case2 tokens hwrapped => exact ⟨0, .done (Bool.eq_false_iff.mpr hwrapped)⟩

namespace Strips

variable {n n' : Nat} {tokens result result' : List Token}

theorem unique (h : Strips n tokens result) (h' : Strips n' tokens result') :
    n = n' ∧ result = result' := by
  induction h generalizing n' with
  | done hwrapped =>
      cases h' with
      | done => exact ⟨rfl, rfl⟩
      | round hwrapped' => exact absurd hwrapped' (Bool.eq_false_iff.mp hwrapped)
  | round hwrapped _ ih =>
      cases h' with
      | done hwrapped' => exact absurd hwrapped (Bool.eq_false_iff.mp hwrapped')
      | round _ hrest =>
          obtain ⟨rfl, rfl⟩ := ih hrest
          exact ⟨rfl, rfl⟩

theorem hasLayers (h : Strips n tokens result) : HasLayers n tokens result := by
  induction h with
  | done => exact .zero _
  | round hwrapped _ ih =>
      obtain ⟨first, inner, last, rfl, hfirst, hlast, -⟩ := isWrapped_parenthesis_iff.mp hwrapped
      rw [List.tail_cons, List.dropLast_concat] at ih
      exact ih.enclosed hfirst hlast

/-- Each round takes off a pair that encloses what the rounds before it have left. -/
theorem exists_isWrapped (h : Strips n tokens result) {j : Nat} (hj : j < n) :
    ∃ inner, HasLayers j tokens inner ∧ isWrapped Token.parenthesis inner = true := by
  induction h generalizing j with
  | done => cases hj
  | @round n tokens _ hwrapped _ ih =>
      cases j with
      | zero => exact ⟨tokens, .zero tokens, hwrapped⟩
      | succ j =>
          obtain ⟨inner, hinner, hwrapped'⟩ := ih (Nat.lt_of_succ_lt_succ hj)
          obtain ⟨first, middle, last, rfl, hfirst, hlast, -⟩ :=
            isWrapped_parenthesis_iff.mp hwrapped
          rw [List.tail_cons, List.dropLast_concat] at hinner
          exact ⟨inner, hinner.enclosed hfirst hlast, hwrapped'⟩

theorem isWrapped_result (h : Strips n tokens result) :
    isWrapped Token.parenthesis result = false := by
  obtain ⟨_, hstrips⟩ := exists_strips tokens
  rw [(h.unique hstrips).2]
  exact isWrapped_stripParentheses tokens

/-- There are as many rounds as there are enclosing pairs inside of each other. -/
theorem isGreatest (h : Strips n tokens result) :
    IsGreatest {k | ∀ j < k, ∃ inner, HasLayers j tokens inner ∧
      isWrapped Token.parenthesis inner = true} n := by
  constructor
  · intro j hj
    exact h.exists_isWrapped hj
  · intro k hk
    by_contra hlt
    obtain ⟨inner, hinner, hwrapped⟩ := hk n (by omega)
    rw [hinner.unique h.hasLayers, h.isWrapped_result] at hwrapped
    cases hwrapped

end Strips

theorem stripParentheses_idem (tokens : List Token) :
    stripParentheses (stripParentheses tokens) = stripParentheses tokens := by
  have hwrapped := isWrapped_stripParentheses tokens
  rw [stripParentheses, if_neg (Bool.eq_false_iff.mp hwrapped)]

/-- A list is wrapped exactly if its depths show a pair around everything else. Taking brackets off
an expression ends after `k` rounds and with one result. This `k` is the greatest number of pairs of
which each encloses everything that those before it leave, and the result is the expression without
these brackets, `k` on each side. Nothing more is taken off the result, and its brackets match
exactly if those of the expression do. -/
theorem stripParentheses_enclosing_pairs {α : Type} (classify : α → Delimiter) (items : List α)
    (tokens : List Token) :
    (isWrapped classify items = true ↔ IsEnclosed classify items) ∧
    (∃ k, (∀ n result, Strips n tokens result ↔ n = k ∧ result = stripParentheses tokens) ∧
      IsGreatest {k | ∀ j < k, ∃ inner, HasLayers j tokens inner ∧
        isWrapped Token.parenthesis inner = true} k ∧
      HasLayers k tokens (stripParentheses tokens)) ∧
    stripParentheses (stripParentheses tokens) = stripParentheses tokens ∧
    (imbalance? Token.parenthesis (stripParentheses tokens) = none ↔
      imbalance? Token.parenthesis tokens = none) := by
  refine ⟨isWrapped_iff_isEnclosed, ?_, stripParentheses_idem tokens, ?_⟩
  · obtain ⟨k, hk⟩ := exists_strips tokens
    refine ⟨k, ?_, hk.isGreatest, hk.hasLayers⟩
    intro n result
    constructor
    · intro h
      exact h.unique hk
    · rintro ⟨rfl, rfl⟩
      exact hk
  · rw [imbalance?_eq_none_iff, imbalance?_eq_none_iff]
    exact balanced_stripParentheses

end StackScript
