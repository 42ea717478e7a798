import StackScript.Delimiter

/-! # Balanced lists

A list is balanced when its depth never falls below the start and comes back to it. All the scans
over delimiters are described by the depth behind the items that were read. -/

namespace StackScript.Delimiter

variable {α : Type} {classify : α → Delimiter}

/-- Items with a property that neither delimiter has are other ones. -/
theorem between_eq_other_of [DecidableEq α] {p : α → Bool} {first last item : α}
    (hfirst : p first = false) (hlast : p last = false) (hitem : p item = true) :
    between first last item = other := by
  have hne : ∀ d, p d = false → item ≠ d := by
    rintro d hd rfl
    rw [hd] at hitem
    cases hitem
  rw [between, if_neg (hne first hfirst), if_neg (hne last hlast)]

/-! ## The depth behind a list -/

/-- Depth behind a list that starts at `depth`; none if an item closes what was never opened. -/
def depthAfter (classify : α → Delimiter) : (depth : Nat) → List α → Option Nat
  | depth, [] => some depth
  | depth, item :: items =>
      match classify item, depth with
      | opening, depth => depthAfter classify (depth + 1) items
      | closing, 0 => none
      | closing, depth + 1 => depthAfter classify depth items
      | other, depth => depthAfter classify depth items

@[simp] theorem depthAfter_nil (depth : Nat) : depthAfter classify depth [] = some depth := rfl

theorem depthAfter_cons_opening {item : α} (h : classify item = opening) (depth : Nat)
    (items : List α) :
    depthAfter classify depth (item :: items) = depthAfter classify (depth + 1) items := by
  simp only [depthAfter, h]

theorem depthAfter_cons_closing_zero {item : α} (h : classify item = closing) (items : List α) :
    depthAfter classify 0 (item :: items) = none := by
  simp only [depthAfter, h]

theorem depthAfter_cons_closing_succ {item : α} (h : classify item = closing) (depth : Nat)
    (items : List α) :
    depthAfter classify (depth + 1) (item :: items) = depthAfter classify depth items := by
  simp only [depthAfter, h]

theorem depthAfter_cons_other {item : α} (h : classify item = other) (depth : Nat)
    (items : List α) :
    depthAfter classify depth (item :: items) = depthAfter classify depth items := by
  simp only [depthAfter, h]

theorem depthAfter_of_other {items : List α} (h : ∀ item ∈ items, classify item = other)
    (depth : Nat) : depthAfter classify depth items = some depth := by
  induction items with
  | nil => rfl
  | cons item items ih =>
      obtain ⟨hitem, hitems⟩ := List.forall_mem_cons.mp h
      rw [depthAfter_cons_other hitem, ih hitems]

theorem depthAfter_append (depth : Nat) (xs ys : List α) :
    depthAfter classify depth (xs ++ ys) =
      (depthAfter classify depth xs).bind fun d => depthAfter classify d ys := by
  induction xs generalizing depth with
  | nil => rfl
  | cons x xs ih =>
      rw [List.cons_append]
      cases h : classify x with
      | opening => rw [depthAfter_cons_opening h, depthAfter_cons_opening h, ih]
      | other => rw [depthAfter_cons_other h, depthAfter_cons_other h, ih]
      | closing =>
          cases depth with
          | zero => rw [depthAfter_cons_closing_zero h, depthAfter_cons_closing_zero h]; rfl
          | succ depth => rw [depthAfter_cons_closing_succ h, depthAfter_cons_closing_succ h, ih]

/-- What the first item does where the depth never falls below the start. -/
theorem depthAfter_cons_eq_some {depth last : Nat} {item : α} {items : List α}
    (h : depthAfter classify depth (item :: items) = some last) :
    (classify item = opening ∧ depthAfter classify (depth + 1) items = some last) ∨
    (classify item = other ∧ depthAfter classify depth items = some last) ∨
    (classify item = closing ∧ ∃ d, depth = d + 1 ∧ depthAfter classify d items = some last) := by
  cases hitem : classify item with
  | opening => exact .inl ⟨rfl, (depthAfter_cons_opening hitem depth items).symm.trans h⟩
  | other => exact .inr (.inl ⟨rfl, (depthAfter_cons_other hitem depth items).symm.trans h⟩)
  | closing =>
      cases depth with
      | zero =>
          rw [depthAfter_cons_closing_zero hitem] at h
          cases h
      | succ d =>
          rw [depthAfter_cons_closing_succ hitem] at h
          exact .inr (.inr ⟨rfl, d, rfl, h⟩)

/-- A list that does not fall below its start does the same further in. -/
theorem depthAfter_add {depth last : Nat} {xs : List α} (k : Nat)
    (h : depthAfter classify depth xs = some last) :
    depthAfter classify (depth + k) xs = some (last + k) := by
  induction xs generalizing depth with
  | nil =>
      cases h
      rfl
  | cons x xs ih =>
      obtain ⟨hx, hxs⟩ | ⟨hx, hxs⟩ | ⟨hx, d, rfl, hxs⟩ := depthAfter_cons_eq_some h
      · rw [depthAfter_cons_opening hx, Nat.add_right_comm]
        exact ih hxs
      · rw [depthAfter_cons_other hx]
        exact ih hxs
      · rw [Nat.add_right_comm, depthAfter_cons_closing_succ hx]
        exact ih hxs

/-! ## Balanced lists -/

/-- Every delimiter of the list has its partner in the list. -/
def IsBalanced (classify : α → Delimiter) (items : List α) : Prop :=
  depthAfter classify 0 items = some 0

theorem IsBalanced.nil : IsBalanced classify [] := rfl

theorem IsBalanced.singleton {item : α} (h : classify item = other) :
    IsBalanced classify [item] := by
  rw [IsBalanced, depthAfter_cons_other h, depthAfter_nil]

theorem IsBalanced.append {xs ys : List α} (hx : IsBalanced classify xs)
    (hy : IsBalanced classify ys) : IsBalanced classify (xs ++ ys) := by
  rw [IsBalanced, depthAfter_append, hx]
  exact hy

/-- What follows a balanced start of a balanced list is balanced. -/
theorem IsBalanced.of_append {xs ys : List α} (hx : IsBalanced classify xs)
    (h : IsBalanced classify (xs ++ ys)) : IsBalanced classify ys := by
  rw [IsBalanced, depthAfter_append, hx] at h
  exact h

theorem IsBalanced.cons_other {item : α} {items : List α} (h : classify item = other) :
    IsBalanced classify (item :: items) ↔ IsBalanced classify items := by
  rw [IsBalanced, depthAfter_cons_other h, IsBalanced]

theorem IsBalanced.enclosed {first last : α} {inner : List α} (hfirst : classify first = opening)
    (hlast : classify last = closing) (hinner : IsBalanced classify inner) :
    IsBalanced classify (first :: (inner ++ [last])) := by
  rw [IsBalanced, depthAfter_cons_opening hfirst, depthAfter_append, depthAfter_add 1 hinner]
  exact depthAfter_cons_closing_succ hlast 0 []

/-- A balanced part has no say in whether the whole is balanced. -/
theorem IsBalanced.append_middle_iff {xs ys zs : List α} (hy : IsBalanced classify ys) :
    IsBalanced classify (xs ++ (ys ++ zs)) ↔ IsBalanced classify (xs ++ zs) := by
  have hdepth : ∀ depth, depthAfter classify depth ys = some depth := by
    intro depth
    simpa using depthAfter_add depth hy
  simp only [IsBalanced, depthAfter_append, hdepth, Option.bind_some]

/-- Items may be exchanged for others of the same class. -/
theorem depthAfter_map {f : α → α} (h : ∀ item, classify (f item) = classify item) (depth : Nat)
    (items : List α) :
    depthAfter classify depth (items.map f) = depthAfter classify depth items := by
  induction items generalizing depth with
  | nil => rfl
  | cons item items ih =>
      simp only [List.map_cons, depthAfter, h, ih]

theorem imbalanceFrom_eq_none_iff (index : Nat) (pending : List Nat) (items : List α) :
    imbalanceFrom classify index pending items = none ↔
      depthAfter classify pending.length items = some 0 := by
  induction items generalizing index pending with
  | nil =>
      cases pending with
      | nil => simp [imbalanceFrom]
      | cons i pending => simp [imbalanceFrom]
  | cons item items ih =>
      cases h : classify item with
      | opening =>
          rw [depthAfter_cons_opening h]
          simp only [imbalanceFrom, h]
          exact ih (index + 1) (index :: pending)
      | other =>
          rw [depthAfter_cons_other h]
          simpa only [imbalanceFrom, h] using ih (index + 1) pending
      | closing =>
          cases pending with
          | nil =>
              rw [List.length_nil, depthAfter_cons_closing_zero h]
              simp [imbalanceFrom, h]
          | cons i pending =>
              rw [List.length_cons, depthAfter_cons_closing_succ h]
              simpa only [imbalanceFrom, h] using ih (index + 1) pending

/-- The check for matching delimiters passes exactly the balanced lists. -/
theorem imbalance?_eq_none_iff (items : List α) :
    imbalance? classify items = none ↔ IsBalanced classify items :=
  imbalanceFrom_eq_none_iff 0 [] items

/-! ## Enclosing pairs -/

/-- The item at an index closes a group: the items before it lead back to the depth of the group. -/
def ClosesAt (classify : α → Delimiter) (depth : Nat) (items : List α) (index : Nat) : Prop :=
  ∃ inner last rest, items = inner ++ last :: rest ∧ inner.length = index ∧
    classify last = closing ∧ depthAfter classify depth inner = some 0

/-- A closing item closes the group that it stands in. -/
theorem closesAt_cons_closing {item : α} {items : List α} {index : Nat}
    (h : classify item = closing) : ClosesAt classify 0 (item :: items) index ↔ index = 0 := by
  constructor
  · rintro ⟨inner, last, rest, hitems, rfl, -, hinner⟩
    cases inner with
    | nil => rfl
    | cons x inner =>
        rw [List.cons_append, List.cons.injEq] at hitems
        rw [← hitems.1, depthAfter_cons_closing_zero h] at hinner
        cases hinner
  · rintro rfl
    exact ⟨[], item, items, rfl, rfl, h, rfl⟩

/-- A group that is not closed by the first item is closed by an item of the rest, seen from the
depth behind the first. -/
theorem closesAt_cons {depth depth' index : Nat} {item : α} {items : List α}
    (hdepth : ∀ inner, depthAfter classify depth (item :: inner) =
      depthAfter classify depth' inner)
    (hopen : classify item = closing → depth ≠ 0) :
    ClosesAt classify depth (item :: items) index ↔
      ∃ i, ClosesAt classify depth' items i ∧ i + 1 = index := by
  constructor
  · rintro ⟨inner, last, rest, hitems, rfl, hlast, hinner⟩
    cases inner with
    | nil =>
        rw [List.nil_append, List.cons.injEq] at hitems
        rw [← hitems.1] at hlast
        exact absurd (Option.some.inj hinner) (hopen hlast)
    | cons x inner =>
        rw [List.cons_append, List.cons.injEq] at hitems
        obtain ⟨rfl, rfl⟩ := hitems
        exact ⟨inner.length, ⟨inner, last, rest, rfl, rfl, hlast, hdepth inner ▸ hinner⟩, rfl⟩
  · rintro ⟨_, ⟨inner, last, rest, rfl, rfl, hlast, hinner⟩, rfl⟩
    exact ⟨item :: inner, last, rest, rfl, rfl, hlast, (hdepth inner).trans hinner⟩

theorem findCloseFrom_eq_some_iff (depth index : Nat) (items : List α) :
    findCloseFrom classify depth items = some index ↔ ClosesAt classify depth items index := by
  induction items generalizing depth index with
  | nil => simp [findCloseFrom, ClosesAt]
  | cons item items ih =>
      cases h : classify item with
      | opening =>
          rw [closesAt_cons (depthAfter_cons_opening h depth) (by simp [h])]
          simp only [findCloseFrom, h, Option.map_eq_some_iff, ih]
      | other =>
          rw [closesAt_cons (depthAfter_cons_other h depth) (by simp [h])]
          simp only [findCloseFrom, h, Option.map_eq_some_iff, ih]
      | closing =>
          cases depth with
          | zero =>
              rw [closesAt_cons_closing h]
              simp only [findCloseFrom, h, Option.some.injEq, eq_comm]
          | succ depth =>
              rw [closesAt_cons (depthAfter_cons_closing_succ h depth) (by simp)]
              simp only [findCloseFrom, h, Option.map_eq_some_iff, ih]

/-- A list is wrapped when it is a balanced list between a pair of delimiters. -/
theorem isWrapped_iff (items : List α) :
    isWrapped classify items = true ↔
      ∃ first inner last, items = first :: (inner ++ [last]) ∧ classify first = opening ∧
        classify last = closing ∧ IsBalanced classify inner := by
  simp only [isWrapped, Bool.and_eq_true, decide_eq_true_eq, beq_iff_eq]
  constructor
  · rintro ⟨hlen, hpair⟩
    cases items with
    | nil => simp at hlen
    | cons first items =>
        simp only [findPair, List.drop_zero] at hpair
        split at hpair
        · rename_i hfirst
          obtain ⟨i, hi, hindex⟩ := Option.map_eq_some_iff.mp hpair
          obtain ⟨inner, last, rest, rfl, rfl, hlast, hinner⟩ :=
            (findCloseFrom_eq_some_iff 0 i items).mp hi
          have hrest : rest = [] := by
            apply List.eq_nil_of_length_eq_zero
            simp only [List.length_cons, List.length_append] at hindex
            omega
          subst hrest
          exact ⟨first, inner, last, rfl, hfirst, hlast, hinner⟩
        · cases hpair
  · rintro ⟨first, inner, last, rfl, hfirst, hlast, hinner⟩
    refine ⟨by simp, ?_⟩
    have hclose : findClose classify (inner ++ [last]) = some inner.length :=
      (findCloseFrom_eq_some_iff 0 inner.length _).mpr
        ⟨inner, last, [], rfl, rfl, hlast, hinner⟩
    simp only [findPair, List.drop_zero, hfirst, if_true, hclose, Option.map_some]
    simp only [List.length_cons, List.length_append, List.length_nil]
    congr 1
    omega

/-! ## Depths of the items -/

theorem depthsFrom_append {depth last : Nat} {xs : List α}
    (h : depthAfter classify depth xs = some last) (ys : List α) :
    depthsFrom classify depth (xs ++ ys) =
      depthsFrom classify depth xs ++ depthsFrom classify last ys := by
  induction xs generalizing depth with
  | nil =>
      cases h
      rfl
  | cons x xs ih =>
      obtain ⟨hx, hxs⟩ | ⟨hx, hxs⟩ | ⟨hx, d, rfl, hxs⟩ := depthAfter_cons_eq_some h
      all_goals simp only [List.cons_append, depthsFrom, hx, Nat.add_sub_cancel, ih hxs]

theorem depthsFrom_succ {depth last : Nat} {xs : List α}
    (h : depthAfter classify depth xs = some last) :
    depthsFrom classify (depth + 1) xs = (depthsFrom classify depth xs).map (· + 1) := by
  induction xs generalizing depth with
  | nil => rfl
  | cons x xs ih =>
      obtain ⟨hx, hxs⟩ | ⟨hx, hxs⟩ | ⟨hx, d, rfl, hxs⟩ := depthAfter_cons_eq_some h
      all_goals simp only [depthsFrom, hx, Nat.add_sub_cancel, ih hxs, List.map_cons]

theorem depths_eq_nil_iff {items : List α} : depths classify items = [] ↔ items = [] := by
  cases items with
  | nil => simp [depths, depthsFrom]
  | cons item items => cases h : classify item <;> simp [depths, depthsFrom, h]

theorem depths_append_cons {xs ys : List α} {item : α} (h : IsBalanced classify xs)
    (hitem : classify item = other) :
    depths classify (xs ++ item :: ys) = depths classify xs ++ 0 :: depths classify ys := by
  rw [depths, depthsFrom_append h]
  simp only [depths, depthsFrom, hitem]

theorem depths_enclosed {first last : α} {inner : List α} (hfirst : classify first = opening)
    (hinner : IsBalanced classify inner) (hlast : classify last = closing) :
    depths classify (first :: (inner ++ [last])) =
      0 :: ((depths classify inner).map (· + 1) ++ [0]) := by
  have hdepth := depthAfter_add 1 hinner
  simp only [depths, depthsFrom, hfirst, depthsFrom_append hdepth, depthsFrom_succ hinner, hlast]

end StackScript.Delimiter
