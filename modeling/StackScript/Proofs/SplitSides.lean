import StackScript.Proofs.Matching
import StackScript.Proofs.SplitPoint
import StackScript.Token.Lexer

/-! # The sides of a split

The split point is found in one pass that keeps the best operator so far and the token before. Here
it is described by indices, and a token is seen to play the same part on its side of a split as it
does in the whole expression. This is why each side can be split again by itself. -/

namespace StackScript

open Delimiter

/-! ## Signs and binary operators by index -/

/-- The kind of the token at an index. -/
def kindAt? (tokens : List Token) (i : Nat) : Option Kind := tokens[i]?.map Token.kind

/-- An operand can begin at the first token, and directly behind an operator or an opening
bracket. -/
def BeginsOperand (tokens : List Token) (i : Nat) : Prop :=
  i = 0 ∨ ∃ kind ∈ kindAt? tokens (i - 1), kind = .leftParen ∨ kind.operator?.isSome = true

/-- A minus where an operand can begin. -/
def IsSignAt (tokens : List Token) (i : Nat) : Prop :=
  kindAt? tokens i = some .minus ∧ BeginsOperand tokens i

/-- An operator outside of all brackets that is not a sign. -/
structure IsBinaryAt (tokens : List Token) (i : Nat) (op : Operator) : Prop where
  operator : (kindAt? tokens i).bind Kind.operator? = some op
  depth : (depths Token.parenthesis tokens)[i]? = some 0
  not_sign : ¬ IsSignAt tokens i

/-- A binary operator that binds no tighter than any other. -/
def IsWeakestAt (tokens : List Token) (i : Nat) : Prop :=
  ∃ op, IsBinaryAt tokens i op ∧
    ∀ j op', IsBinaryAt tokens j op' → op.precedence ≤ op'.precedence

theorem BeginsOperand.zero (tokens : List Token) : BeginsOperand tokens 0 := .inl rfl

theorem beginsOperand_succ {tokens : List Token} {i : Nat} :
    BeginsOperand tokens (i + 1) ↔
      ∃ kind ∈ kindAt? tokens i, kind = .leftParen ∨ kind.operator?.isSome = true := by
  simp [BeginsOperand]

/-! ## What the scan finds -/

theorem kindBehind_take_succ {tokens : List Token} {i : Nat} (hi : i < tokens.length) :
    kindBehind none (tokens.take (i + 1)) = kindAt? tokens i := by
  rw [List.take_succ_eq_append_getElem hi, kindBehind_append_singleton, kindAt?,
    List.getElem?_eq_getElem hi, Option.map_some]

/-- The scan takes for signs what are signs by their index. -/
theorem isSign_take_iff {tokens : List Token} {i : Nat} {token : Token}
    (h : tokens[i]? = some token) :
    isSign (kindBehind none (tokens.take i)) token.kind = true ↔ IsSignAt tokens i := by
  cases i with
  | zero => simp [isSign, IsSignAt, BeginsOperand, kindAt?, h]
  | succ i =>
      obtain ⟨hlt, -⟩ := List.getElem?_eq_some_iff.mp h
      have hbefore : i < tokens.length := Nat.lt_of_succ_lt hlt
      rw [kindBehind_take_succ hbefore]
      simp [isSign, IsSignAt, BeginsOperand, kindAt?, h, hbefore]

theorem mem_binaryOperators_iff {index i : Nat} {previous : Option Kind}
    {scanned : List (Token × Nat)} {op : Operator} :
    (i, op) ∈ binaryOperators index previous scanned ↔
      ∃ j token, scanned[j]? = some (token, 0) ∧ i = index + j ∧ token.kind.operator? = some op ∧
        isSign (kindBehind previous ((scanned.take j).map Prod.fst)) token.kind = false := by
  induction scanned generalizing index previous with
  | nil => simp [binaryOperators]
  | cons item rest ih =>
      obtain ⟨first, depth⟩ := item
      rw [binaryOperators_cons, List.mem_append, ← Nat.or_exists_add_one, ih, Option.mem_toList,
        operatorHere_eq_some_iff]
      apply or_congr
      · simp [and_assoc]
      · simp only [List.getElem?_cons_succ, List.take_succ_cons, List.map_cons, kindBehind_cons,
          Nat.add_assoc, Nat.add_comm 1]

/-- The scan finds all binary operators, and nothing else. -/
theorem mem_operatorsFrom_iff {tokens : List Token} {i : Nat} {op : Operator} :
    (i, op) ∈ operatorsFrom 0 0 none tokens ↔ IsBinaryAt tokens i op := by
  have hfst : (tokens.zip (depths Token.parenthesis tokens)).map Prod.fst = tokens :=
    List.map_fst_zip (by simp [depths])
  rw [depths] at hfst
  simp only [operatorsFrom, mem_binaryOperators_iff, List.map_take, hfst,
    List.getElem?_zip_eq_some, Nat.zero_add]
  constructor
  · rintro ⟨j, token, ⟨htoken, hdepth⟩, rfl, hop, hsign⟩
    refine ⟨by simp [kindAt?, htoken, hop], hdepth, ?_⟩
    rw [← isSign_take_iff htoken, hsign]
    exact Bool.false_ne_true
  · rintro ⟨hop, hdepth, hsign⟩
    obtain ⟨kind, hkind, hop⟩ := Option.bind_eq_some_iff.mp hop
    obtain ⟨token, htoken, rfl⟩ := Option.map_eq_some_iff.mp hkind
    rw [← isSign_take_iff htoken] at hsign
    exact ⟨i, token, ⟨htoken, hdepth⟩, rfl, hop, Bool.eq_false_iff.mpr hsign⟩

/-- The operators are found from left to right. -/
theorem pairwise_binaryOperators (index : Nat) (previous : Option Kind)
    (scanned : List (Token × Nat)) :
    (binaryOperators index previous scanned).Pairwise fun a b => a.1 < b.1 := by
  induction scanned generalizing index previous with
  | nil => exact .nil
  | cons item rest ih =>
      obtain ⟨token, depth⟩ := item
      rw [binaryOperators_cons, List.pairwise_append]
      refine ⟨?_, ih _ _, ?_⟩
      · cases operatorHere index depth previous token <;> simp
      · intro a ha b hb
        obtain ⟨-, hindex, -⟩ := operatorHere_eq_some_iff.mp (Option.mem_toList.mp ha)
        obtain ⟨j, -, -, hj, -⟩ := mem_binaryOperators_iff.mp hb
        omega

/-! ## The right-most of the weakest -/

theorem splitPoint?_eq_none_iff {tokens : List Token} :
    splitPoint? tokens = none ↔ ∀ i op, ¬ IsBinaryAt tokens i op := by
  rw [splitPoint?_eq, foldl_weaker_eq_none_iff, List.eq_nil_iff_forall_not_mem]
  constructor
  · intro h i op hbinary
    exact h (i, op) (mem_operatorsFrom_iff.mpr hbinary)
  · intro h c hc
    exact h c.1 c.2 (mem_operatorsFrom_iff.mp hc)

theorem isGreatest_of_splitPoint? {tokens : List Token} {i : Nat} {op : Operator}
    (h : splitPoint? tokens = some (i, op)) :
    IsBinaryAt tokens i op ∧ IsGreatest {j | IsWeakestAt tokens j} i := by
  rw [splitPoint?_eq, foldl_weaker_eq_some_iff] at h
  obtain ⟨hnone, -⟩ | ⟨before, after, hops, -, hbefore, hafter⟩ := h
  · cases hnone
  · have hcases : ∀ {j op'}, IsBinaryAt tokens j op' →
        (j, op') ∈ before ∨ (j, op') = (i, op) ∨ (j, op') ∈ after := by
      intro j op' hbinary
      rw [← mem_operatorsFrom_iff, hops] at hbinary
      simpa using hbinary
    have hbinary : IsBinaryAt tokens i op := by
      rw [← mem_operatorsFrom_iff, hops]
      simp
    have hsorted : (before ++ (i, op) :: after).Pairwise fun a b => a.1 < b.1 :=
      hops ▸ pairwise_binaryOperators 0 none _
    refine ⟨hbinary, ⟨op, hbinary, ?_⟩, ?_⟩
    · intro j op' hj
      rcases hcases hj with hj | heq | hj
      · exact hbefore _ hj
      · cases heq
        exact Nat.le_refl _
      · exact Nat.le_of_lt (hafter _ hj)
    · intro j ⟨op', hj, hweakest⟩
      rcases hcases hj with hj | heq | hj
      · exact Nat.le_of_lt ((List.pairwise_append.mp hsorted).2.2 _ hj _ List.mem_cons_self)
      · cases heq
        exact Nat.le_refl _
      · -- What stands behind the split point binds tighter, so it is not among the weakest.
        exact absurd (hafter _ hj) (Nat.not_lt.mpr (hweakest i op hbinary))

theorem IsBinaryAt.unique {tokens : List Token} {i : Nat} {op op' : Operator}
    (h : IsBinaryAt tokens i op) (h' : IsBinaryAt tokens i op') : op = op' :=
  Option.some.inj (h.operator.symm.trans h'.operator)

theorem splitPoint?_eq_some_iff {tokens : List Token} {i : Nat} {op : Operator} :
    splitPoint? tokens = some (i, op) ↔
      IsBinaryAt tokens i op ∧ IsGreatest {j | IsWeakestAt tokens j} i := by
  constructor
  · exact isGreatest_of_splitPoint?
  · rintro ⟨hbinary, hgreatest⟩
    cases hpoint : splitPoint? tokens with
    | none => exact absurd hbinary (splitPoint?_eq_none_iff.mp hpoint i op)
    | some point =>
        obtain ⟨hbinary', hgreatest'⟩ := isGreatest_of_splitPoint? hpoint
        obtain rfl := hgreatest.unique hgreatest'
        rw [hbinary.unique hbinary']

/-! ## Each side by itself -/

/-- A part of some tokens that starts at an offset, read by itself, has the depths, the signs and
the binary operators that it has in the whole. -/
structure ScansAlike (tokens part : List Token) (offset : Nat) : Prop where
  depth : ∀ i < part.length,
    (depths Token.parenthesis part)[i]? = (depths Token.parenthesis tokens)[offset + i]?
  sign : ∀ i < part.length, IsSignAt part i ↔ IsSignAt tokens (offset + i)
  binary : ∀ i < part.length, ∀ op, IsBinaryAt part i op ↔ IsBinaryAt tokens (offset + i) op

/-- The depths, the kinds and the place where it begins decide how a part is scanned. -/
theorem ScansAlike.of_kinds {tokens part : List Token} {offset : Nat}
    (hdepth : ∀ i < part.length,
      (depths Token.parenthesis part)[i]? = (depths Token.parenthesis tokens)[offset + i]?)
    (hkind : ∀ i < part.length, kindAt? part i = kindAt? tokens (offset + i))
    (hbegins : BeginsOperand tokens offset) : ScansAlike tokens part offset := by
  have hsign : ∀ i < part.length, (IsSignAt part i ↔ IsSignAt tokens (offset + i)) := by
    intro i hi
    rw [IsSignAt, IsSignAt, hkind i hi]
    cases i with
    | zero => simp only [BeginsOperand.zero, Nat.add_zero, hbegins]
    | succ i =>
        rw [← Nat.add_assoc, beginsOperand_succ, beginsOperand_succ, hkind i (Nat.lt_of_succ_lt hi)]
  refine ⟨hdepth, hsign, ?_⟩
  intro i hi op
  constructor
  · rintro ⟨hop, hzero, hnot⟩
    exact ⟨hkind i hi ▸ hop, hdepth i hi ▸ hzero, mt (hsign i hi).mpr hnot⟩
  · rintro ⟨hop, hzero, hnot⟩
    exact ⟨hkind i hi ▸ hop, hdepth i hi ▸ hzero, mt (hsign i hi).mp hnot⟩

/-- Both sides of a split are balanced, and each is scanned by itself as it is in the whole. -/
structure SplitsSafely (tokens : List Token) (s : Split) : Prop where
  tokens_eq : tokens = s.left ++ s.token :: s.right
  balanced_left : imbalance? Token.parenthesis s.left = none
  balanced_right : imbalance? Token.parenthesis s.right = none
  left : ScansAlike tokens s.left 0
  right : ScansAlike tokens s.right (s.left.length + 1)

theorem IsSplit.splitsSafely {tokens : List Token} {s : Split} (hs : IsSplit tokens s)
    (h : IsBalanced Token.parenthesis tokens) : SplitsSafely tokens s := by
  have hright := hs.balanced_right h
  have hdepths := @depths_append_cons _ _ s.left s.right s.token hs.balanced
    (Token.parenthesis_of_operator? hs.operator)
  have hlength : (depths Token.parenthesis s.left).length = s.left.length :=
    length_depthsFrom 0 s.left
  have hindex : ∀ i, s.left.length + 1 + i = s.left.length + (i + 1) := by
    intro i
    omega
  refine ⟨hs.tokens_eq, (imbalance?_eq_none_iff _).mpr hs.balanced,
    (imbalance?_eq_none_iff _).mpr hright, .of_kinds ?_ ?_ ?_, .of_kinds ?_ ?_ ?_⟩
  all_goals rw [hs.tokens_eq]
  · intro i hi
    rw [hdepths, Nat.zero_add, List.getElem?_append_left (hlength ▸ hi)]
  · intro i hi
    rw [kindAt?, kindAt?, Nat.zero_add, List.getElem?_append_left hi]
  · exact .zero _
  · intro i _
    rw [hdepths, hindex, ← hlength, List.getElem?_append_right (Nat.le_add_right _ _)]
    simp
  · intro i _
    rw [kindAt?, kindAt?, hindex, List.getElem?_append_right (Nat.le_add_right _ _)]
    simp
  · rw [beginsOperand_succ]
    exact ⟨s.token.kind, by simp [kindAt?], .inr (by simp [hs.operator])⟩

/-- A split point is an index of the tokens, so there is a cut for it. -/
theorem map_split? (tokens : List Token) :
    ((split? tokens).map fun s => (s.left.length, s.op)) = splitPoint? tokens := by
  cases hpoint : splitPoint? tokens with
  | none => simp only [split?, hpoint, Option.map_none]
  | some point =>
      obtain ⟨hbinary, -⟩ := isGreatest_of_splitPoint? hpoint
      obtain ⟨hlt, -⟩ := List.getElem?_eq_some_iff.mp hbinary.depth
      rw [depths, length_depthsFrom] at hlt
      simp only [split?, hpoint, List.drop_eq_getElem_cons hlt, Option.map_some,
        List.length_take_of_le (Nat.le_of_lt hlt)]

/-- An expression is split at the right-most of the binary operators that bind weakest, if it has
any. If its brackets match, then those on each side of the split do, and every token of a side has
the depth there that it has in the whole, and is a sign or a binary operator as it is in the
whole. -/
theorem split_at_rightmost_weakest (tokens : List Token) :
    (splitPoint? tokens = none ↔ ∀ i op, ¬ IsBinaryAt tokens i op) ∧
    (∀ i op, splitPoint? tokens = some (i, op) ↔
      IsBinaryAt tokens i op ∧ IsGreatest {j | IsWeakestAt tokens j} i) ∧
    ((split? tokens).map fun s => (s.left.length, s.op)) = splitPoint? tokens ∧
    (∀ s, split? tokens = some s → imbalance? Token.parenthesis tokens = none →
      SplitsSafely tokens s) := by
  refine ⟨splitPoint?_eq_none_iff, fun i op => splitPoint?_eq_some_iff, map_split? tokens, ?_⟩
  intro s hs hbalanced
  rw [imbalance?_eq_none_iff] at hbalanced
  exact ((split?_eq_some_iff hbalanced s).mp hs).splitsSafely hbalanced

/-- The sign behind the split operator is a sign at the start of the right side too. -/
theorem split_at_rightmost_weakest_signed :
    ∃ tokens s, tokenize "(a) - -3 * b".toList = .ok tokens ∧
      imbalance? Token.parenthesis tokens = none ∧ split? tokens = some s ∧ s.left.length = 3 ∧
      SplitsSafely tokens s ∧ IsSignAt tokens 4 ∧ IsSignAt s.right 0 := by
  obtain ⟨tokens, htokens, hbalanced, hpoint, hlength, hminus, hminus'⟩ :
      ∃ tokens, tokenize "(a) - -3 * b".toList = .ok tokens ∧
        imbalance? Token.parenthesis tokens = none ∧
        splitPoint? tokens = some (3, .arithmetic .sub) ∧ tokens.length = 8 ∧
        kindAt? tokens 3 = some .minus ∧ kindAt? tokens 4 = some .minus :=
    ⟨(tokenize "(a) - -3 * b".toList).toOption.getD [], by decide +kernel⟩
  obtain ⟨-, -, hmap, hsafe⟩ := split_at_rightmost_weakest tokens
  obtain ⟨s, hs, heq⟩ := Option.map_eq_some_iff.mp (hmap.trans hpoint)
  replace hsafe := hsafe s hs hbalanced
  have hleft : s.left.length = 3 := congrArg Prod.fst heq
  have hright : 0 < s.right.length := by
    have htotal := congrArg List.length hsafe.tokens_eq
    simp only [List.length_append, List.length_cons] at htotal
    omega
  have hsign : IsSignAt tokens 4 := ⟨hminus', .inr ⟨.minus, hminus, .inr rfl⟩⟩
  refine ⟨tokens, s, htokens, hbalanced, hs, hleft, hsafe, hsign, ?_⟩
  rw [hsafe.right.sign 0 hright, hleft]
  exact hsign

end StackScript
