import Mathlib.Data.Set.Function
import Mathlib.Order.Bounds.Basic
import Mathlib.Order.Nat
import StackScript.Proofs.Delimiter

/-! # One matching for all scans

The check for balance keeps the indices of what is open, the search for a partner counts from one
opening item on, and the depths are counted from the start. All of them follow the depth behind the
items that were read, and so they find the same pairs. -/

namespace StackScript.Delimiter

variable {α : Type} {classify : α → Delimiter}

/-! ## Counting -/

/-- How many items of a list are of a class. -/
def occurrences (classify : α → Delimiter) (d : Delimiter) (items : List α) : Nat :=
  items.countP fun item => classify item = d

theorem occurrences_cons (d : Delimiter) (item : α) (items : List α) :
    occurrences classify d (item :: items) =
      occurrences classify d items + if classify item = d then 1 else 0 := by
  simp [occurrences, List.countP_cons]

theorem occurrences_append (d : Delimiter) (xs ys : List α) :
    occurrences classify d (xs ++ ys) = occurrences classify d xs + occurrences classify d ys :=
  List.countP_append

/-- The depth is what was opened and not closed, as long as no more is closed than was opened. -/
theorem depthAfter_eq_some_iff (depth last : Nat) (items : List α) :
    depthAfter classify depth items = some last ↔
      (∀ n, occurrences classify closing (items.take n) ≤
        depth + occurrences classify opening (items.take n)) ∧
      depth + occurrences classify opening items = occurrences classify closing items + last := by
  induction items generalizing depth with
  | nil => simp [occurrences]
  | cons item items ih =>
      -- A prefix is empty, or it is the first item and a prefix of the others.
      have hprefixes : ∀ p : List α → Prop, (∀ n, p ((item :: items).take n)) ↔
          p [] ∧ ∀ n, p (item :: items.take n) := by
        intro p
        constructor
        · intro h
          exact ⟨h 0, fun n => h (n + 1)⟩
        · intro h n
          cases n with
          | zero => exact h.1
          | succ n => exact h.2 n
      rw [hprefixes fun xs =>
        occurrences classify closing xs ≤ depth + occurrences classify opening xs]
      simp only [occurrences_cons]
      cases h : classify item with
      | opening =>
          rw [depthAfter_cons_opening h, ih]
          simp [occurrences, Nat.add_assoc, Nat.add_comm 1]
      | other =>
          rw [depthAfter_cons_other h, ih]
          simp [occurrences]
      | closing =>
          cases depth with
          | zero =>
              rw [depthAfter_cons_closing_zero h]
              simp only [reduceCtorEq, if_true, if_false, false_iff]
              intro ⟨⟨_, hle⟩, _⟩
              have hfirst := hle 0
              simp [occurrences] at hfirst
          | succ depth =>
              rw [depthAfter_cons_closing_succ h, ih]
              simp only [reduceCtorEq, if_true, if_false, Nat.add_zero]
              constructor
              · intro ⟨hle, hlast⟩
                refine ⟨⟨by simp [occurrences], ?_⟩, by omega⟩
                intro n
                have := hle n
                omega
              · intro ⟨⟨_, hle⟩, hlast⟩
                refine ⟨?_, by omega⟩
                intro n
                have := hle n
                omega

/-- Up to an index, and with the item there, more is closed than was opened. -/
def Exceeds (classify : α → Delimiter) (items : List α) (index : Nat) : Prop :=
  index < items.length ∧
    occurrences classify opening (items.take (index + 1)) <
      occurrences classify closing (items.take (index + 1))

/-- Nothing closes a group from outside where the depth never falls below the start. -/
theorem findCloseFrom_eq_none_iff (depth : Nat) (items : List α) :
    findCloseFrom classify depth items = none ↔
      ∃ last, depthAfter classify depth items = some last := by
  induction items generalizing depth with
  | nil => simp [findCloseFrom]
  | cons item items ih =>
      cases h : classify item with
      | opening => simp only [findCloseFrom, depthAfter, h, Option.map_eq_none_iff, ih]
      | other => simp only [findCloseFrom, depthAfter, h, Option.map_eq_none_iff, ih]
      | closing =>
          cases depth with
          | zero => simp [findCloseFrom, depthAfter, h]
          | succ depth => simp only [findCloseFrom, depthAfter, h, Option.map_eq_none_iff, ih]

theorem not_exceeds_of_depthAfter {items : List α} {last : Nat}
    (h : depthAfter classify 0 items = some last) (index : Nat) :
    ¬ Exceeds classify items index := by
  intro ⟨_, hlt⟩
  have hle := ((depthAfter_eq_some_iff 0 last items).mp h).1 (index + 1)
  omega

/-- What would close a group around the whole list is the first item that exceeds. -/
theorem isLeast_exceeds_of_findClose {items : List α} {index : Nat}
    (h : findClose classify items = some index) :
    IsLeast {i | Exceeds classify items i} index := by
  obtain ⟨inner, last, rest, rfl, rfl, hlast, hinner⟩ := (findCloseFrom_eq_some_iff 0 _ _).mp h
  have hcount := (depthAfter_eq_some_iff 0 0 inner).mp hinner
  constructor
  · constructor
    · simp
    · have hsplit : inner ++ last :: rest = (inner ++ [last]) ++ rest := by simp
      rw [hsplit, List.take_left' (by simp), occurrences_append, occurrences_append]
      simp only [occurrences, List.countP_singleton, hlast] at hcount ⊢
      simp only [reduceCtorEq, decide_true, decide_false, if_true, Bool.false_eq_true, if_false]
      omega
  · intro j hj
    by_contra hlt
    have hshort : j + 1 ≤ inner.length := by omega
    have hle := hcount.1 (j + 1)
    have hexceeds := hj.2
    rw [List.take_append_of_le_length hshort] at hexceeds
    omega

theorem findClose_eq_some_iff_isLeast {items : List α} {index : Nat} :
    findClose classify items = some index ↔ IsLeast {i | Exceeds classify items i} index := by
  constructor
  · exact isLeast_exceeds_of_findClose
  · intro h
    cases hclose : findClose classify items with
    | none =>
        obtain ⟨last, hlast⟩ := (findCloseFrom_eq_none_iff 0 items).mp hclose
        exact absurd h.1 (not_exceeds_of_depthAfter hlast index)
    | some k => rw [h.unique (isLeast_exceeds_of_findClose hclose)]

/-! ## Pairs -/

/-- The item at an index is of a class. -/
def IsAt (classify : α → Delimiter) (items : List α) (d : Delimiter) (index : Nat) : Prop :=
  items[index]?.map classify = some d

theorem isAt_iff {items : List α} {d : Delimiter} {index : Nat} :
    IsAt classify items d index ↔
      ∃ before item rest, items = before ++ item :: rest ∧ before.length = index ∧
        classify item = d := by
  constructor
  · intro h
    obtain ⟨item, hitem, hclass⟩ := Option.map_eq_some_iff.mp h
    obtain ⟨hlt, rfl⟩ := List.getElem?_eq_some_iff.mp hitem
    refine ⟨items.take index, items[index], items.drop (index + 1), ?_, ?_, hclass⟩
    · rw [List.getElem_cons_drop, List.take_append_drop]
    · exact List.length_take_of_le (Nat.le_of_lt hlt)
  · rintro ⟨before, item, rest, rfl, rfl, hclass⟩
    simp [IsAt, hclass]

/-- The list is split around a pair of delimiters, between which everything is balanced. -/
structure IsPair (classify : α → Delimiter) (items before inner rest : List α) (first last : α) :
    Prop where
  items_eq : items = before ++ first :: (inner ++ last :: rest)
  opening_first : classify first = opening
  balanced_inner : IsBalanced classify inner
  closing_last : classify last = closing

theorem findPair_eq_some_iff {items : List α} {i j : Nat} :
    findPair classify items i = some j ↔
      ∃ before inner rest first last, IsPair classify items before inner rest first last ∧
        before.length = i ∧ i + 1 + inner.length = j := by
  constructor
  · intro h
    unfold findPair at h
    split at h
    · cases h
    · rename_i first rest hdrop
      split at h
      · rename_i hfirst
        obtain ⟨k, hk, rfl⟩ := Option.map_eq_some_iff.mp h
        obtain ⟨inner, last, rest, rfl, rfl, hlast, hinner⟩ :=
          (findCloseFrom_eq_some_iff 0 k rest).mp hk
        refine ⟨items.take i, inner, rest, first, last, ⟨?_, hfirst, hinner, hlast⟩, ?_, rfl⟩
        · rw [← hdrop, List.take_append_drop]
        · have hlength := congrArg List.length hdrop
          simp only [List.length_drop, List.length_cons] at hlength
          exact List.length_take_of_le (by omega)
      · cases h
  · rintro ⟨before, inner, rest, first, last, ⟨rfl, hfirst, hinner, hlast⟩, rfl, rfl⟩
    have hclose : findClose classify (inner ++ last :: rest) = some inner.length :=
      (findCloseFrom_eq_some_iff 0 _ _).mpr ⟨inner, last, rest, rfl, rfl, hlast, hinner⟩
    simp [findPair, hfirst, hclose]

theorem findPair_eq_none_of_append {before after : List α} {first : α} {last : Nat}
    (hafter : depthAfter classify 0 after = some last) :
    findPair classify (before ++ first :: after) before.length = none := by
  have hclose : findClose classify after = none :=
    (findCloseFrom_eq_none_iff 0 after).mpr ⟨last, hafter⟩
  simp [findPair, hclose]

/-- A pair is found in every longer list. -/
theorem findPair_append {items : List α} {i j : Nat} (h : findPair classify items i = some j)
    (more : List α) : findPair classify (items ++ more) i = some j := by
  obtain ⟨before, inner, rest, first, last, ⟨rfl, hfirst, hinner, hlast⟩, hi, hj⟩ :=
    findPair_eq_some_iff.mp h
  exact findPair_eq_some_iff.mpr
    ⟨before, inner, rest ++ more, first, last, ⟨by simp, hfirst, hinner, hlast⟩, hi, hj⟩

/-- Two splittings of one list, the second further on. -/
theorem exists_of_append_cons_eq {xs ys xs' ys' : List α} {x y : α}
    (h : xs ++ x :: ys = xs' ++ y :: ys') (hlt : xs.length < xs'.length) :
    ∃ middle, xs' = xs ++ x :: middle ∧ ys = middle ++ y :: ys' := by
  rcases List.append_eq_append_iff.mp h with ⟨as, rfl, has⟩ | ⟨cs, rfl, _⟩
  · cases as with
    | nil => simp at hlt
    | cons a middle =>
        rw [List.cons_append, List.cons.injEq] at has
        obtain ⟨rfl, rfl⟩ := has
        exact ⟨middle, rfl, rfl⟩
  · simp only [List.length_append] at hlt
    omega

/-- What is opened inside a balanced list leads back to the depth before it no later than at its
end. -/
theorem IsBalanced.not_depthAfter {middle behind : List α} {first : α} {last : Nat}
    (hfirst : classify first = opening) (h : IsBalanced classify (middle ++ first :: behind)) :
    depthAfter classify 0 behind ≠ some last := by
  intro hbehind
  rw [IsBalanced, depthAfter_append] at h
  cases hmiddle : depthAfter classify 0 middle with
  | none =>
      rw [hmiddle] at h
      cases h
  | some depth =>
      rw [hmiddle, Option.bind_some, depthAfter_cons_opening hfirst] at h
      have hfurther := depthAfter_add (depth + 1) hbehind
      rw [Nat.zero_add, h] at hfurther
      simp at hfurther

theorem nested_or_disjoint {items : List α} {i j i' j' : Nat}
    (h : findPair classify items i = some j) (h' : findPair classify items i' = some j')
    (hlt : i < i') : j < i' ∨ j' < j := by
  obtain ⟨before, inner, rest, first, last, ⟨hitems, _, hinner, hlast⟩, rfl, rfl⟩ :=
    findPair_eq_some_iff.mp h
  obtain ⟨before', inner', rest', first', last', ⟨hitems', hfirst', hinner', _⟩, rfl, rfl⟩ :=
    findPair_eq_some_iff.mp h'
  obtain ⟨middle, rfl, hmiddle⟩ := exists_of_append_cons_eq (hitems.symm.trans hitems') hlt
  simp only [List.length_append, List.length_cons]
  rcases Nat.lt_trichotomy inner.length middle.length with hbehind | hsame | hinside
  · omega
  · -- The second opening item would be the one that closes the first.
    obtain ⟨-, hcons⟩ := List.append_inj hmiddle hsame
    rw [(List.cons.inj hcons).1, hfirst'] at hlast
    cases hlast
  · obtain ⟨behind, rfl, hrest⟩ := exists_of_append_cons_eq hmiddle.symm hinside
    by_cases hshort : inner'.length < behind.length
    · simp only [List.length_append, List.length_cons]
      omega
    · -- Otherwise the inner group would go on behind the end of the outer one.
      rcases List.append_eq_append_iff.mp hrest with ⟨as, rfl, _⟩ | ⟨cs, rfl, _⟩
      · have has : as = [] := List.eq_nil_of_length_eq_zero (by
          simp only [List.length_append] at hshort
          omega)
        subst has
        rw [List.append_nil] at hinner
        exact absurd hinner' (hinner.not_depthAfter hfirst')
      · rw [IsBalanced, depthAfter_append] at hinner'
        obtain ⟨depth, hdepth, _⟩ := Option.bind_eq_some_iff.mp hinner'
        exact absurd hdepth (hinner.not_depthAfter hfirst')

/-! ## Pairs of balanced lists -/

/-- The innermost of the groups that are open behind a list was opened at a depth, and everything
in it is closed. -/
def OpensInnermost (classify : α → Delimiter) (depth last : Nat) (items : List α) : Prop :=
  ∃ before first inner, items = before ++ first :: inner ∧ classify first = opening ∧
    depthAfter classify depth before = some last ∧ IsBalanced classify inner

theorem OpensInnermost.cons {depth depth' last : Nat} {item : α} {items : List α}
    (h : OpensInnermost classify depth' last items)
    (hdepth : ∀ xs, depthAfter classify depth (item :: xs) = depthAfter classify depth' xs) :
    OpensInnermost classify depth last (item :: items) := by
  obtain ⟨before, first, inner, rfl, hfirst, hbefore, hinner⟩ := h
  exact ⟨item :: before, first, inner, rfl, hfirst, (hdepth before).trans hbefore, hinner⟩

/-- Where the depth has risen, some item opened the innermost group. If the depth was never lower,
then the list leads down to where it ends. -/
theorem opensInnermost_or {depth last : Nat} {items : List α}
    (h : depthAfter classify depth items = some (last + 1)) :
    OpensInnermost classify depth last items ∨
      ∃ excess, depth = excess + (last + 1) ∧ depthAfter classify excess items = some 0 := by
  induction items generalizing depth with
  | nil =>
      rw [depthAfter_nil, Option.some.injEq] at h
      exact .inr ⟨0, by omega, rfl⟩
  | cons item items ih =>
      obtain ⟨hitem, hitems⟩ | ⟨hitem, hitems⟩ | ⟨hitem, d, rfl, hitems⟩ :=
        depthAfter_cons_eq_some h
      · rcases ih hitems with hinnermost | ⟨excess, hdepth, hexcess⟩
        · exact .inl (hinnermost.cons (depthAfter_cons_opening hitem depth))
        · cases excess with
          | zero =>
              obtain rfl : depth = last := by omega
              exact .inl ⟨[], item, items, rfl, hitem, rfl, hexcess⟩
          | succ excess =>
              refine .inr ⟨excess, by omega, ?_⟩
              rw [depthAfter_cons_opening hitem, hexcess]
      · rcases ih hitems with hinnermost | ⟨excess, hdepth, hexcess⟩
        · exact .inl (hinnermost.cons (depthAfter_cons_other hitem depth))
        · refine .inr ⟨excess, hdepth, ?_⟩
          rw [depthAfter_cons_other hitem, hexcess]
      · rcases ih hitems with hinnermost | ⟨excess, hdepth, hexcess⟩
        · exact .inl (hinnermost.cons (depthAfter_cons_closing_succ hitem d))
        · refine .inr ⟨excess + 1, by omega, ?_⟩
          rw [depthAfter_cons_closing_succ hitem, hexcess]

theorem opensInnermost_of_depthAfter {last : Nat} {items : List α}
    (h : depthAfter classify 0 items = some (last + 1)) :
    OpensInnermost classify 0 last items := by
  rcases opensInnermost_or h with hinnermost | ⟨excess, hdepth, _⟩
  · exact hinnermost
  · omega

theorem exists_outermost {last : Nat} {items : List α}
    (h : depthAfter classify 0 items = some (last + 1)) :
    ∃ before first after, items = before ++ first :: after ∧ classify first = opening ∧
      IsBalanced classify before ∧ depthAfter classify 0 after = some last := by
  induction last generalizing items with
  | zero => exact opensInnermost_of_depthAfter h
  | succ last ih =>
      obtain ⟨before, inmost, inner, rfl, hinmost, hbefore, hinner⟩ :=
        opensInnermost_of_depthAfter h
      obtain ⟨outer, first, after, rfl, hfirst, houter, hafter⟩ := ih hbefore
      refine ⟨outer, first, after ++ inmost :: inner, by simp, hfirst, houter, ?_⟩
      have hinside := depthAfter_add (last + 1) hinner
      rw [Nat.zero_add] at hinside
      rw [depthAfter_append, hafter, Option.bind_some, depthAfter_cons_opening hinmost, hinside]

theorem IsBalanced.exists_closing {items : List α} (h : IsBalanced classify items) {i : Nat}
    (hi : IsAt classify items opening i) :
    ∃ j, findPair classify items i = some j ∧ IsAt classify items closing j := by
  obtain ⟨before, first, after, rfl, rfl, hfirst⟩ := isAt_iff.mp hi
  cases hclose : findClose classify after with
  | none =>
      obtain ⟨last, hlast⟩ := (findCloseFrom_eq_none_iff 0 after).mp hclose
      exact absurd hlast (h.not_depthAfter hfirst)
  | some k =>
      obtain ⟨inner, last, rest, rfl, rfl, hlast, hinner⟩ :=
        (findCloseFrom_eq_some_iff 0 k after).mp hclose
      refine ⟨before.length + 1 + inner.length, findPair_eq_some_iff.mpr ⟨before, inner, rest,
        first, last, ⟨rfl, hfirst, hinner, hlast⟩, rfl, rfl⟩, isAt_iff.mpr
        ⟨before ++ first :: inner, last, rest, by simp, ?_, hlast⟩⟩
      simp only [List.length_append, List.length_cons]
      omega

theorem IsBalanced.exists_opening {items : List α} (h : IsBalanced classify items) {j : Nat}
    (hj : IsAt classify items closing j) :
    ∃ i, findPair classify items i = some j ∧ IsAt classify items opening i := by
  obtain ⟨front, last, rest, rfl, rfl, hlast⟩ := isAt_iff.mp hj
  rw [IsBalanced, depthAfter_append] at h
  obtain ⟨depth, hfront, hrest⟩ := Option.bind_eq_some_iff.mp h
  cases depth with
  | zero =>
      rw [depthAfter_cons_closing_zero hlast] at hrest
      cases hrest
  | succ depth =>
      obtain ⟨before, first, inner, rfl, hfirst, _, hinner⟩ := opensInnermost_of_depthAfter hfront
      refine ⟨before.length, findPair_eq_some_iff.mpr ⟨before, inner, rest, first, last,
        ⟨by simp, hfirst, hinner, hlast⟩, rfl, ?_⟩, isAt_iff.mpr
        ⟨before, first, inner ++ last :: rest, by simp, rfl, hfirst⟩⟩
      simp only [List.length_append, List.length_cons]
      omega

/-! ## What the check blames -/

theorem imbalanceFrom_eq_unmatchedClose_iff (index : Nat) (pending : List Nat) (items : List α)
    (k : Nat) :
    imbalanceFrom classify index pending items = some (.unmatchedClose k) ↔
      (findCloseFrom classify pending.length items).map (index + ·) = some k := by
  -- Behind the first item everything is one further on.
  have hshift : ∀ index, (fun i => index + (i + 1)) = fun i => index + 1 + i := by
    intro index
    funext i
    omega
  induction items generalizing index pending with
  | nil => cases hlast : pending.getLast? <;> simp [imbalanceFrom, findCloseFrom, hlast]
  | cons item items ih =>
      cases h : classify item with
      | opening =>
          simp only [imbalanceFrom, findCloseFrom, h, Option.map_map, Function.comp_def, hshift]
          exact ih (index + 1) (index :: pending)
      | other =>
          simp only [imbalanceFrom, findCloseFrom, h, Option.map_map, Function.comp_def, hshift]
          exact ih (index + 1) pending
      | closing =>
          cases pending with
          | nil => simp [imbalanceFrom, findCloseFrom, h]
          | cons p pending =>
              simp only [imbalanceFrom, findCloseFrom, h, List.length_cons, Option.map_map,
                Function.comp_def, hshift]
              exact ih (index + 1) pending

/-- One item changes only what is open further in, unless it leads out of that. -/
theorem exists_imbalanceFrom_cons {item : α} {items : List α} {inner : List Nat} {last : Nat}
    (h : depthAfter classify inner.length (item :: items) = some last) (index : Nat) :
    ∃ inner', depthAfter classify (List.length inner') items = some last ∧
      ∀ pending rest, imbalanceFrom classify index (inner ++ pending) (item :: rest) =
        imbalanceFrom classify (index + 1) (inner' ++ pending) rest := by
  obtain ⟨hitem, hitems⟩ | ⟨hitem, hitems⟩ | ⟨hitem, d, hlength, hitems⟩ :=
    depthAfter_cons_eq_some h
  · refine ⟨index :: inner, hitems, ?_⟩
    intro pending rest
    simp only [imbalanceFrom, hitem, List.cons_append]
  · refine ⟨inner, hitems, ?_⟩
    intro pending rest
    simp only [imbalanceFrom, hitem]
  · cases inner with
    | nil => cases hlength
    | cons p inner =>
        rw [List.length_cons, Nat.add_right_cancel_iff] at hlength
        refine ⟨inner, hlength ▸ hitems, ?_⟩
        intro pending rest
        simp only [imbalanceFrom, hitem, List.cons_append]

/-- A list that closes what is open in front of it leaves the check as it was before that. -/
theorem imbalanceFrom_append {before : List α} {inner : List Nat}
    (h : depthAfter classify inner.length before = some 0) (index : Nat) (pending : List Nat)
    (rest : List α) :
    imbalanceFrom classify index (inner ++ pending) (before ++ rest) =
      imbalanceFrom classify (index + before.length) pending rest := by
  induction before generalizing index inner with
  | nil =>
      rw [depthAfter_nil, Option.some.injEq] at h
      rw [List.eq_nil_of_length_eq_zero h]
      rfl
  | cons item before ih =>
      obtain ⟨inner', hbefore, hstep⟩ := exists_imbalanceFrom_cons h index
      rw [List.cons_append, hstep, ih hbefore, List.length_cons, Nat.add_comm before.length,
        Nat.add_assoc]

/-- What is never closed is blamed in the end, whatever is open inside of it. -/
theorem imbalanceFrom_unclosed {items : List α} {inner : List Nat} {last : Nat}
    (h : depthAfter classify inner.length items = some last) (index outermost : Nat) :
    imbalanceFrom classify index (inner ++ [outermost]) items = some (.unclosed outermost) := by
  induction items generalizing index inner with
  | nil => simp [imbalanceFrom]
  | cons item items ih =>
      obtain ⟨inner', hitems, hstep⟩ := exists_imbalanceFrom_cons h index
      rw [hstep, ih hitems]

theorem imbalance?_eq_unmatchedClose_iff {items : List α} {index : Nat} :
    imbalance? classify items = some (.unmatchedClose index) ↔
      IsLeast {i | Exceeds classify items i} index := by
  rw [← findClose_eq_some_iff_isLeast, imbalance?, imbalanceFrom_eq_unmatchedClose_iff]
  simp [findClose]

theorem imbalance?_of_unclosed {before after : List α} {first : α} {last : Nat}
    (hfirst : classify first = opening) (hbefore : IsBalanced classify before)
    (hafter : depthAfter classify 0 after = some last) :
    imbalance? classify (before ++ first :: after) = some (.unclosed before.length) := by
  have hscan := @imbalanceFrom_append _ _ before [] hbefore 0 [] (first :: after)
  rw [imbalance?, ← List.nil_append ([] : List Nat), hscan, Nat.zero_add]
  simp only [imbalanceFrom, hfirst]
  exact @imbalanceFrom_unclosed _ _ after [] last hafter _ _

/-- The check blames an opening item if everything before it is balanced and nothing behind it
closes it. -/
theorem imbalance?_eq_unclosed_iff {items : List α} {index : Nat} :
    imbalance? classify items = some (.unclosed index) ↔
      ∃ before first after last, items = before ++ first :: after ∧ before.length = index ∧
        classify first = opening ∧ IsBalanced classify before ∧
        depthAfter classify 0 after = some last := by
  constructor
  · intro h
    cases hclose : findClose classify items with
    | some k =>
        have hleast := isLeast_exceeds_of_findClose hclose
        rw [imbalance?_eq_unmatchedClose_iff.mpr hleast] at h
        cases h
    | none =>
        obtain ⟨depth, hdepth⟩ := (findCloseFrom_eq_none_iff 0 items).mp hclose
        cases depth with
        | zero =>
            rw [(imbalance?_eq_none_iff items).mpr hdepth] at h
            cases h
        | succ last =>
            obtain ⟨before, first, after, rfl, hfirst, hbefore, hafter⟩ := exists_outermost hdepth
            rw [imbalance?_of_unclosed hfirst hbefore hafter] at h
            cases h
            exact ⟨before, first, after, last, rfl, rfl, hfirst, hbefore, hafter⟩
  · rintro ⟨before, first, after, last, rfl, rfl, hfirst, hbefore, hafter⟩
    exact imbalance?_of_unclosed hfirst hbefore hafter

/-- The opening items without a partner. -/
def unpaired (classify : α → Delimiter) (items : List α) : Set Nat :=
  {i | IsAt classify items opening i ∧ findPair classify items i = none}

theorem IsBalanced.notMem_unpaired {items : List α} (h : IsBalanced classify items) (i : Nat) :
    i ∉ unpaired classify items := by
  intro ⟨hi, hnone⟩
  obtain ⟨j, hj, _⟩ := h.exists_closing hi
  rw [hnone] at hj
  cases hj

theorem isLeast_unpaired {before after : List α} {first : α} {last : Nat}
    (hfirst : classify first = opening) (hbefore : IsBalanced classify before)
    (hafter : depthAfter classify 0 after = some last) :
    IsLeast (unpaired classify (before ++ first :: after)) before.length := by
  constructor
  · exact ⟨isAt_iff.mpr ⟨before, first, after, rfl, rfl, hfirst⟩, findPair_eq_none_of_append hafter⟩
  · intro i ⟨hi, hnone⟩
    by_contra hlt
    have hshort : i < before.length := by omega
    have hi' : IsAt classify before opening i := by
      rwa [IsAt, List.getElem?_append_left hshort] at hi
    obtain ⟨j, hj, _⟩ := hbefore.exists_closing hi'
    rw [findPair_append hj] at hnone
    cases hnone

/-- An opening item is blamed where nothing exceeds, and it is the first that has no partner. -/
theorem imbalance?_eq_unclosed_iff_isLeast {items : List α} {index : Nat} :
    imbalance? classify items = some (.unclosed index) ↔
      (∀ i, ¬ Exceeds classify items i) ∧ IsLeast (unpaired classify items) index := by
  have hblamed : ∀ {k}, imbalance? classify items = some (.unclosed k) →
      (∀ i, ¬ Exceeds classify items i) ∧ IsLeast (unpaired classify items) k := by
    intro k hk
    obtain ⟨before, first, after, last, rfl, rfl, hfirst, hbefore, hafter⟩ :=
      imbalance?_eq_unclosed_iff.mp hk
    have hdepth : depthAfter classify 0 (before ++ first :: after) = some (last + 1) := by
      rw [depthAfter_append, hbefore, Option.bind_some, depthAfter_cons_opening hfirst]
      exact depthAfter_add 1 hafter
    exact ⟨not_exceeds_of_depthAfter hdepth, isLeast_unpaired hfirst hbefore hafter⟩
  constructor
  · exact hblamed
  · intro ⟨hexceeds, hleast⟩
    cases himbalance : imbalance? classify items with
    | none =>
        have hbalanced := (imbalance?_eq_none_iff items).mp himbalance
        exact absurd hleast.1 (hbalanced.notMem_unpaired index)
    | some fault =>
        cases fault with
        | unmatchedClose k =>
            exact absurd (imbalance?_eq_unmatchedClose_iff.mp himbalance).1 (hexceeds k)
        | unclosed k => rw [hleast.unique (hblamed himbalance).2]

/-! ## Depths of pairs -/

@[simp] theorem length_depthsFrom (depth : Nat) (items : List α) :
    (depthsFrom classify depth items).length = items.length := by
  induction items generalizing depth with
  | nil => rfl
  | cons item items ih => cases h : classify item <;> simp [depthsFrom, h, ih]

/-- Seen from further in, nothing of a list that does not fall below its start is further out. -/
theorem le_of_mem_depthsFrom {depth last k d : Nat} {xs : List α}
    (h : depthAfter classify depth xs = some last) (hd : d ∈ depthsFrom classify (depth + k) xs) :
    k ≤ d := by
  induction xs generalizing depth with
  | nil => cases hd
  | cons x xs ih =>
      obtain ⟨hx, hxs⟩ | ⟨hx, hxs⟩ | ⟨hx, depth, rfl, hxs⟩ := depthAfter_cons_eq_some h
      · simp only [depthsFrom, hx, List.mem_cons] at hd
        rcases hd with rfl | hd
        · omega
        · rw [Nat.add_right_comm] at hd
          exact ih hxs hd
      · simp only [depthsFrom, hx, List.mem_cons] at hd
        rcases hd with rfl | hd
        · omega
        · exact ih hxs hd
      · rw [Nat.add_right_comm] at hd
        simp only [depthsFrom, hx, List.mem_cons, Nat.add_sub_cancel] at hd
        rcases hd with rfl | hd
        · omega
        · exact ih hxs hd

theorem IsPair.depths_eq {items before inner rest : List α} {first last : α} {d : Nat}
    (h : IsPair classify items before inner rest first last)
    (hbefore : depthAfter classify 0 before = some d) :
    depths classify items = depthsFrom classify 0 before ++
      d :: (depthsFrom classify (d + 1) inner ++ d :: depthsFrom classify d rest) := by
  have hinner := depthAfter_add (d + 1) h.balanced_inner
  rw [Nat.zero_add] at hinner
  rw [h.items_eq, depths, depthsFrom_append hbefore]
  simp only [depthsFrom, h.opening_first]
  rw [depthsFrom_append hinner]
  simp only [depthsFrom, h.closing_last, Nat.add_sub_cancel]

/-- Both of a pair are at one depth, and everything between them is further in. -/
theorem depths_of_findPair {items : List α} (h : IsBalanced classify items) {i j : Nat}
    (hfind : findPair classify items i = some j) :
    ∃ d, (depths classify items)[i]? = some d ∧ (depths classify items)[j]? = some d ∧
      ∀ k, i < k → k < j → ∃ d', (depths classify items)[k]? = some d' ∧ d + 1 ≤ d' := by
  obtain ⟨before, inner, rest, first, last, hpair, rfl, rfl⟩ := findPair_eq_some_iff.mp hfind
  rw [IsBalanced, hpair.items_eq, depthAfter_append] at h
  obtain ⟨d, hbefore, _⟩ := Option.bind_eq_some_iff.mp h
  rw [hpair.depths_eq hbefore]
  refine ⟨d, ?_, ?_, ?_⟩
  · simp
  · rw [List.getElem?_append_right (by simp only [length_depthsFrom]; omega)]
    simp [Nat.add_assoc, Nat.add_comm 1]
  · intro k hlow hhigh
    have hk : k - before.length - 1 < (depthsFrom classify (d + 1) inner).length := by
      rw [length_depthsFrom]
      omega
    refine ⟨(depthsFrom classify (d + 1) inner)[k - before.length - 1], ?_, ?_⟩
    · rw [List.getElem?_append_right (by simp only [length_depthsFrom]; omega), length_depthsFrom,
        List.getElem?_cons, if_neg (by omega), List.getElem?_append_left hk,
        List.getElem?_eq_getElem hk]
    · apply le_of_mem_depthsFrom hpair.balanced_inner
      rw [Nat.zero_add]
      exact List.getElem_mem hk

/-! ## Agreement -/

/-- What the search for partners and the depths say of a list in which everything matches. -/
structure IsMatched (classify : α → Delimiter) (items : List α) : Prop where
  bijOn : Set.BijOn (findPair classify items) {i | IsAt classify items opening i}
    (Set.image some {j | IsAt classify items closing j})
  nested_or_disjoint : ∀ {i j i' j' : Nat}, findPair classify items i = some j →
    findPair classify items i' = some j' → i < i' → j < i' ∨ j' < j
  depth : ∀ {i j : Nat}, findPair classify items i = some j →
    ∃ d, (depths classify items)[i]? = some d ∧ (depths classify items)[j]? = some d ∧
      ∀ k, i < k → k < j → ∃ d', (depths classify items)[k]? = some d' ∧ d + 1 ≤ d'

theorem lt_of_findPair {items : List α} {i j : Nat} (h : findPair classify items i = some j) :
    i < j := by
  obtain ⟨_, _, _, _, _, _, _, rfl⟩ := findPair_eq_some_iff.mp h
  omega

theorem injOn_findPair {items : List α} (h : IsBalanced classify items) :
    Set.InjOn (findPair classify items) {i | IsAt classify items opening i} := by
  intro i hi i' hi' heq
  obtain ⟨j, hj, _⟩ := h.exists_closing hi
  have hj' : findPair classify items i' = some j := heq.symm.trans hj
  by_contra hne
  rcases Nat.lt_or_gt_of_ne hne with hlt | hlt
  · have hdisjoint := Delimiter.nested_or_disjoint hj hj' hlt
    have hright := lt_of_findPair hj'
    omega
  · have hdisjoint := Delimiter.nested_or_disjoint hj' hj hlt
    have hright := lt_of_findPair hj
    omega

theorem IsBalanced.isMatched {items : List α} (h : IsBalanced classify items) :
    IsMatched classify items := by
  refine ⟨⟨?_, injOn_findPair h, ?_⟩, Delimiter.nested_or_disjoint, depths_of_findPair h⟩
  · intro i hi
    obtain ⟨j, hj, hclosing⟩ := h.exists_closing hi
    exact ⟨j, hclosing, hj.symm⟩
  · rintro _ ⟨j, hj, rfl⟩
    obtain ⟨i, hi, hopening⟩ := h.exists_opening hj
    exact ⟨i, hopening, hi⟩

/-- The check passes if no prefix closes more than it opens and as much is closed as is opened. It
blames the first closing item that exceeds, or else the first opening item without a partner. Where
it passes, partners match the opening items with all the closing ones, pairs are nested or disjoint,
and the depth is the same at both ends of a pair and greater in between. -/
theorem scans_agree (classify : α → Delimiter) (items : List α) :
    (imbalance? classify items = none ↔
      (∀ n, occurrences classify closing (items.take n) ≤
        occurrences classify opening (items.take n)) ∧
      occurrences classify opening items = occurrences classify closing items) ∧
    (∀ index, imbalance? classify items = some (.unmatchedClose index) ↔
      IsLeast {i | Exceeds classify items i} index) ∧
    (∀ index, imbalance? classify items = some (.unclosed index) ↔
      (∀ i, ¬ Exceeds classify items i) ∧ IsLeast (unpaired classify items) index) ∧
    (imbalance? classify items = none → IsMatched classify items) := by
  refine ⟨?_, fun index => imbalance?_eq_unmatchedClose_iff,
    fun index => imbalance?_eq_unclosed_iff_isLeast,
    fun h => ((imbalance?_eq_none_iff items).mp h).isMatched⟩
  rw [imbalance?_eq_none_iff, IsBalanced, depthAfter_eq_some_iff]
  simp only [Nat.zero_add, Nat.add_zero]

/-- One pair inside of another. With the last bracket gone, the outer one is blamed, though it is
not the one that was opened last. -/
theorem scans_agree_nested :
    imbalance? parenthesis ['x', '(', '(', 'a', ')', ')'] = none ∧
      IsMatched parenthesis ['x', '(', '(', 'a', ')', ')'] ∧
      findPair parenthesis ['x', '(', '(', 'a', ')', ')'] 1 = some 5 ∧
      imbalance? parenthesis ['x', '(', '(', 'a', ')'] = some (.unclosed 1) ∧
      IsLeast (unpaired parenthesis ['x', '(', '(', 'a', ')']) 1 := by
  have hmatched : imbalance? parenthesis ['x', '(', '(', 'a', ')', ')'] = none := by decide
  have hunclosed : imbalance? parenthesis ['x', '(', '(', 'a', ')'] = some (.unclosed 1) := by
    decide
  refine ⟨hmatched, (scans_agree parenthesis _).2.2.2 hmatched, by decide, hunclosed, ?_⟩
  exact (((scans_agree parenthesis _).2.2.1 1).mp hunclosed).2

end StackScript.Delimiter
