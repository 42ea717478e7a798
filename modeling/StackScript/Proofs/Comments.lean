import Mathlib.Data.Nat.Find
import StackScript.Proofs.Bodies
import StackScript.Proofs.ByteStripping

/-! # Comments and origins

What a comment is, said of the offsets of the source. Line comments come first: a mark of a block
comment counts only outside of them. Stripping leaves exactly the bytes that lie in no comment, and
for each block comment the place where it was opened. -/

namespace StackScript

open Ascii

/-! ## Line comments -/

/-- Two slashes start at an offset. -/
def SlashesAt (source : Bytes) (k : Nat) : Prop :=
  source[k]? = some slash ∧ source[k + 1]? = some slash

/-- Two slashes start at the offset or before it, and no newline stands between them and the
offset. -/
def InLineComment (source : Bytes) (k : Nat) : Prop :=
  ∃ i ≤ k, SlashesAt source i ∧ ∀ j ≤ k, i ≤ j → source[j]? ≠ some newline

instance (source : Bytes) (k : Nat) : Decidable (SlashesAt source k) :=
  inferInstanceAs (Decidable (_ ∧ _))

instance (source : Bytes) (k : Nat) : Decidable (InLineComment source k) :=
  inferInstanceAs (Decidable (∃ i ≤ k, SlashesAt source i ∧
    ∀ j ≤ k, i ≤ j → source[j]? ≠ some newline))

section Lines

variable {source : Bytes} {k : Nat}

/-- A line comment starts at two slashes and goes on up to a newline. -/
theorem inLineComment_iff :
    InLineComment source k ↔ SlashesAt source k ∨
      (∃ j, k = j + 1 ∧ InLineComment source j) ∧ source[k]? ≠ some newline := by
  constructor
  · rintro ⟨i, hi, hslashes, hline⟩
    rcases Nat.eq_or_lt_of_le hi with rfl | hlt
    · exact .inl hslashes
    · obtain ⟨j, rfl⟩ := Nat.exists_eq_succ_of_ne_zero (Nat.ne_zero_of_lt hlt)
      refine .inr ⟨⟨j, rfl, i, Nat.le_of_lt_succ hlt, hslashes, ?_⟩, hline _ (Nat.le_refl _) hi⟩
      exact fun m hm => hline m (Nat.le_succ_of_le hm)
  · rintro (hslashes | ⟨⟨j, rfl, i, hi, hslashes, hline⟩, hnewline⟩)
    · refine ⟨k, Nat.le_refl k, hslashes, fun j hj hkj => ?_⟩
      rw [Nat.le_antisymm hj hkj, hslashes.1]
      decide
    · refine ⟨i, Nat.le_succ_of_le hi, hslashes, fun m hm him => ?_⟩
      rcases Nat.eq_or_lt_of_le hm with rfl | hlt
      · exact hnewline
      · exact hline m (Nat.le_of_lt_succ hlt) him

theorem InLineComment.succ (h : InLineComment source k) (hnext : source[k + 1]? ≠ some newline) :
    InLineComment source (k + 1) :=
  inLineComment_iff.mpr (.inr ⟨⟨k, rfl, h⟩, hnext⟩)

/-- The bytes from an offset on that lie in no line comment. -/
def outsideLines (source : Bytes) (k : Nat) : List PlacedByte :=
  ((source.drop k).zipIdx k).filter fun p => ¬ InLineComment source p.2

theorem outsideLines_of_length_le (h : source.length ≤ k) : outsideLines source k = [] := by
  rw [outsideLines, List.drop_eq_nil_of_le h]
  rfl

theorem outsideLines_of_inLineComment (h : InLineComment source k) :
    outsideLines source k = outsideLines source (k + 1) := by
  by_cases hk : k < source.length
  · rw [outsideLines, List.drop_eq_getElem_cons hk, List.zipIdx_cons,
      List.filter_cons_of_neg (by simpa using h), outsideLines]
  · rw [outsideLines_of_length_le (by omega), outsideLines_of_length_le (by omega)]

theorem outsideLines_eq_cons {b : UInt8} (hk : source[k]? = some b)
    (h : ¬ InLineComment source k) :
    outsideLines source k = (b, k) :: outsideLines source (k + 1) := by
  obtain ⟨hlt, rfl⟩ := List.getElem?_eq_some_iff.mp hk
  rw [outsideLines, List.drop_eq_getElem_cons hlt, List.zipIdx_cons,
    List.filter_cons_of_pos (by simpa using h), outsideLines]

/-- Dropping line comments leaves the bytes that lie in none. Whether the scan is inside of one is
told by the byte before. -/
theorem dropLineComments_eq_outsideLines (source : Bytes) (k : Nat) (inside : Bool)
    (hinside : inside = true ↔ ∃ j, k = j + 1 ∧ InLineComment source j) :
    PlacedByte.dropLineComments inside ((source.drop k).zipIdx k) = outsideLines source k := by
  induction hn : source.length - k generalizing k inside with
  | zero =>
      rw [outsideLines_of_length_le (by omega), List.drop_eq_nil_of_le (by omega)]
      cases inside <;> rfl
  | succ n ih =>
      have hlt : k < source.length := by omega
      have hk : source[k]? = some source[k] := List.getElem?_eq_getElem hlt
      have hnext : ∀ inside', (inside' = true ↔ InLineComment source k) →
          PlacedByte.dropLineComments inside' ((source.drop (k + 1)).zipIdx (k + 1)) =
            outsideLines source (k + 1) := by
        intro inside' hinside'
        refine ih (k + 1) inside' (hinside'.trans ⟨fun h => ⟨k, rfl, h⟩, ?_⟩) (by omega)
        rintro ⟨j, hj, h⟩
        exact Nat.succ_inj.mp hj ▸ h
      have hline : InLineComment source k ↔ _ := inLineComment_iff
      rw [← hinside, hk] at hline
      rw [List.drop_eq_getElem_cons hlt, List.zipIdx_cons]
      cases inside with
      | true =>
          by_cases hnewline : source[k] = newline
          · have hout : ¬ InLineComment source k := by
              rw [hline, SlashesAt, hk, hnewline]
              simp [newline, slash]
            rw [PlacedByte.dropLineComments, if_pos hnewline, hnext false (by simpa using hout),
              outsideLines_eq_cons hk hout]
          · have hin : InLineComment source k := hline.mpr (.inr ⟨rfl, by simpa using hnewline⟩)
            rw [PlacedByte.dropLineComments, if_neg hnewline, hnext true (by simpa using hin),
              outsideLines_of_inLineComment hin]
      | false =>
          have hhead : ((source.drop (k + 1)).zipIdx (k + 1)).head?.map Prod.fst =
              source[k + 1]? := by
            rw [← List.head?_map, List.zipIdx_map_fst, List.head?_drop]
          have hslashes : SlashesAt source k ↔
              source[k] = slash ∧ source[k + 1]? = some slash := by
            rw [SlashesAt, hk, Option.some.injEq]
          rw [PlacedByte.dropLineComments, hhead]
          by_cases hmark : source[k] = slash ∧ source[k + 1]? = some slash
          · have hin : InLineComment source k := hline.mpr (.inl (hslashes.mpr hmark))
            rw [if_pos hmark, hnext true (by simpa using hin), outsideLines_of_inLineComment hin]
          · have hout : ¬ InLineComment source k := by
              rw [hline, hslashes]
              simpa using hmark
            rw [if_neg hmark, hnext false (by simpa using hout), outsideLines_eq_cons hk hout]

/-- Behind a line comment there is a newline, so any other byte comes first only in its place. -/
theorem head?_outsideLines {b : UInt8} (hb : b ≠ newline) :
    (outsideLines source k).head?.map Prod.fst = some b ↔
      source[k]? = some b ∧ ¬ InLineComment source k := by
  induction hn : source.length - k generalizing k with
  | zero =>
      rw [outsideLines_of_length_le (by omega), List.getElem?_eq_none (by omega)]
      simp
  | succ n ih =>
      by_cases hin : InLineComment source k
      · rw [outsideLines_of_inLineComment hin, ih (by omega)]
        refine iff_of_false ?_ fun h => h.2 hin
        rintro ⟨hnext, hout⟩
        refine hout (hin.succ ?_)
        rw [hnext]
        exact fun heq => hb (Option.some.inj heq)
      · have hk : source[k]? = some source[k] := List.getElem?_eq_getElem (by omega)
        rw [outsideLines_eq_cons hk hin, hk]
        simp [hin]

end Lines

/-! ## Block comments -/

/-- Two bytes outside of line comments, one behind the other. -/
def MarkAt (source : Bytes) (first second : UInt8) (k : Nat) : Prop :=
  (source[k]? = some first ∧ ¬ InLineComment source k) ∧
    source[k + 1]? = some second ∧ ¬ InLineComment source (k + 1)

/-- From the mark that opens a comment to the first one behind it that closes the comment. -/
structure Encloses (source : Bytes) (opening closing : Nat) : Prop where
  opens : MarkAt source slash star opening
  closes : MarkAt source star slash closing
  le : opening + 2 ≤ closing
  first : ∀ k, opening + 2 ≤ k → k < closing → ¬ MarkAt source star slash k

/-- The offset is reached from the start of the source when block comments are jumped over. -/
inductive OutsideBlocks (source : Bytes) : Nat → Prop where
  | start : OutsideBlocks source 0
  | next {k : Nat} : OutsideBlocks source k → k < source.length →
      ¬ MarkAt source slash star k → OutsideBlocks source (k + 1)
  | behind {opening closing : Nat} : OutsideBlocks source opening →
      Encloses source opening closing → OutsideBlocks source (closing + 2)

/-- A block comment, given by the offsets of the two marks at its ends. -/
structure BlockComment (source : Bytes) (opening closing : Nat) : Prop where
  outside : OutsideBlocks source opening
  encloses : Encloses source opening closing

section Blocks

variable {source : Bytes} {k : Nat}

theorem MarkAt.outsideLines_eq {first second : UInt8} (h : MarkAt source first second k) :
    outsideLines source k = (first, k) :: (second, k + 1) :: outsideLines source (k + 2) := by
  rw [outsideLines_eq_cons h.1.1 h.1.2, outsideLines_eq_cons h.2.1 h.2.2]

/-- A mark is seen by the scan exactly where it stands. -/
theorem markAt_iff {first second : UInt8} (hsecond : second ≠ newline)
    (hout : ¬ InLineComment source k) :
    MarkAt source first second k ↔ source[k]? = some first ∧
      (outsideLines source (k + 1)).head?.map Prod.fst = some second := by
  rw [head?_outsideLines hsecond, MarkAt]
  simp [hout]

/-- A byte that opens no comment is kept, or becomes a space. -/
theorem blankBlockComments_outsideLines {b : UInt8} (hk : source[k]? = some b)
    (hout : ¬ InLineComment source k) (hmark : ¬ MarkAt source slash star k) :
    PlacedByte.blankBlockComments none (outsideLines source k) =
      (PlacedByte.blankBlockComments none (outsideLines source (k + 1))).map
        (PlacedByte.unbroken (b, k) :: ·) := by
  rw [markAt_iff (by decide) hout, hk, Option.some.injEq] at hmark
  rw [outsideLines_eq_cons hk hout, PlacedByte.blankBlockComments_none_cons, if_neg hmark]

/-- Inside of a comment, the scan goes on as long as there is no closing mark. -/
theorem blankBlockComments_some_outsideLines {start : Nat} (hk : k < source.length)
    (hmark : ¬ MarkAt source star slash k) :
    PlacedByte.blankBlockComments (some start) (outsideLines source k) =
      PlacedByte.blankBlockComments (some start) (outsideLines source (k + 1)) := by
  by_cases hin : InLineComment source k
  · rw [outsideLines_of_inLineComment hin]
  · have hget : source[k]? = some source[k] := List.getElem?_eq_getElem hk
    rw [markAt_iff (by decide) hin, hget, Option.some.injEq] at hmark
    rw [outsideLines_eq_cons hget hin, PlacedByte.blankBlockComments_some_cons, if_neg hmark]

/-- The first closing mark ends the comment. -/
theorem blankBlockComments_some_eq {start closing : Nat} (hle : k ≤ closing)
    (hcloses : MarkAt source star slash closing)
    (hfirst : ∀ j, k ≤ j → j < closing → ¬ MarkAt source star slash j) :
    PlacedByte.blankBlockComments (some start) (outsideLines source k) =
      PlacedByte.blankBlockComments none (outsideLines source (closing + 2)) := by
  induction hn : closing - k generalizing k with
  | zero =>
      obtain rfl : k = closing := by omega
      rw [hcloses.outsideLines_eq, PlacedByte.blankBlockComments]
      exact if_pos ⟨rfl, rfl⟩
  | succ n ih =>
      have hlt : closing < source.length := (List.getElem?_eq_some_iff.mp hcloses.1.1).1
      rw [blankBlockComments_some_outsideLines (by omega) (hfirst k (Nat.le_refl k) (by omega))]
      exact ih (by omega) (fun j hj => hfirst j (by omega)) (by omega)

/-- Without a closing mark the comment is never closed. -/
theorem blankBlockComments_some_error {start : Nat}
    (hnone : ∀ j, k ≤ j → ¬ MarkAt source star slash j) :
    PlacedByte.blankBlockComments (some start) (outsideLines source k) = .error start := by
  induction hn : source.length - k generalizing k with
  | zero =>
      rw [outsideLines_of_length_le (by omega)]
      rfl
  | succ n ih =>
      rw [blankBlockComments_some_outsideLines (by omega) (hnone k (Nat.le_refl k))]
      exact ih (fun j hj => hnone j (by omega)) (by omega)

theorem Encloses.blankBlockComments_eq {opening closing : Nat}
    (h : Encloses source opening closing) :
    PlacedByte.blankBlockComments none (outsideLines source opening) =
      (PlacedByte.blankBlockComments none (outsideLines source (closing + 2))).map
        ((space, opening) :: ·) := by
  rw [h.opens.outsideLines_eq, PlacedByte.blankBlockComments, if_pos ⟨rfl, rfl⟩,
    blankBlockComments_some_eq h.le h.closes h.first]

theorem Encloses.lt_length {opening closing : Nat} (h : Encloses source opening closing) :
    closing + 1 < source.length :=
  (List.getElem?_eq_some_iff.mp h.closes.2.1).1

/-- A comment that is opened ends at the first closing mark, if there is any. -/
theorem MarkAt.encloses_or {opening : Nat} (h : MarkAt source slash star opening) :
    (∃ closing, Encloses source opening closing) ∨
      ∀ j, opening + 2 ≤ j → ¬ MarkAt source star slash j := by
  classical
  by_cases hmarks : ∃ j, opening + 2 ≤ j ∧ MarkAt source star slash j
  · obtain ⟨hle, hcloses⟩ := Nat.find_spec hmarks
    refine .inl ⟨Nat.find hmarks, h, hcloses, hle, ?_⟩
    exact fun j hj hlt hmark => Nat.find_min hmarks hlt ⟨hj, hmark⟩
  · exact .inr fun j hj hmark => hmarks ⟨j, hj, hmark⟩

end Blocks

/-! ## Scanning a source -/

/-- The offset lies in a block comment, behind the slash that opens it. -/
def InsideBlock (source : Bytes) (k : Nat) : Prop :=
  ∃ opening closing, BlockComment source opening closing ∧ opening < k ∧ k < closing + 2

/-- Every block comment that is opened is closed. -/
def BlocksClosed (source : Bytes) : Prop :=
  ∀ k, OutsideBlocks source k → MarkAt source slash star k → ∃ closing, Encloses source k closing

/-- A block comment is opened that no mark behind it closes. -/
structure UnclosedAt (source : Bytes) (opening : Nat) : Prop where
  outside : OutsideBlocks source opening
  opens : MarkAt source slash star opening
  never : ∀ j, opening + 2 ≤ j → ¬ MarkAt source star slash j

section Scanning

variable {source : Bytes} {k : Nat}

theorem stripBytes_eq (source : Bytes) :
    stripBytes source = PlacedByte.blankBlockComments none (outsideLines source 0) := by
  rw [stripBytes, ← dropLineComments_eq_outsideLines source 0 false (by simp)]
  rfl

/-- By the time it gets to an offset outside of block comments, the scan has left some bytes from
before the offset. -/
theorem OutsideBlocks.exists_stripBytes_eq (h : OutsideBlocks source k) :
    ∃ before : List PlacedByte, (∀ p ∈ before, p.2 < k) ∧ stripBytes source =
      (PlacedByte.blankBlockComments none (outsideLines source k)).map (before ++ ·) := by
  have hmap : ∀ (x : Except Nat (List PlacedByte)) (before : List PlacedByte) (p : PlacedByte),
      (x.map (p :: ·)).map (before ++ ·) = x.map (before ++ [p] ++ ·) := by
    intro x before p
    cases x <;> simp [Except.map]
  induction h with
  | start =>
      refine ⟨[], by simp, ?_⟩
      rw [stripBytes_eq]
      cases PlacedByte.blankBlockComments none (outsideLines source 0) <;> rfl
  | @next k _ hk hmark ih =>
      obtain ⟨before, hbefore, hstrip⟩ := ih
      by_cases hin : InLineComment source k
      · rw [outsideLines_of_inLineComment hin] at hstrip
        exact ⟨before, fun p hp => Nat.lt_succ_of_lt (hbefore p hp), hstrip⟩
      · rw [blankBlockComments_outsideLines (List.getElem?_eq_getElem hk) hin hmark, hmap] at hstrip
        refine ⟨_, ?_, hstrip⟩
        intro p hp
        rcases List.mem_append.mp hp with hp | hp
        · exact Nat.lt_succ_of_lt (hbefore p hp)
        · rw [List.mem_singleton.mp hp, PlacedByte.unbroken]
          split <;> exact Nat.lt_succ_self k
  | @behind opening closing _ hencloses ih =>
      obtain ⟨before, hbefore, hstrip⟩ := ih
      have hle := hencloses.le
      rw [hencloses.blankBlockComments_eq, hmap] at hstrip
      refine ⟨_, ?_, hstrip⟩
      intro p hp
      rcases List.mem_append.mp hp with hp | hp
      · have hlt := hbefore p hp
        omega
      · rw [List.mem_singleton.mp hp]
        show opening < closing + 2
        omega

/-- Where all comments are closed, every offset is outside of block comments or inside of one. -/
theorem BlocksClosed.outside_or_inside (h : BlocksClosed source) (hk : k ≤ source.length) :
    OutsideBlocks source k ∨ InsideBlock source k := by
  induction k with
  | zero => exact .inl .start
  | succ k ih =>
      rcases ih (Nat.le_of_succ_le hk) with hout | ⟨opening, closing, hcomment, hlt, hbehind⟩
      · by_cases hmark : MarkAt source slash star k
        · obtain ⟨closing, hencloses⟩ := h k hout hmark
          have hle := hencloses.le
          exact .inr ⟨k, closing, ⟨hout, hencloses⟩, Nat.lt_succ_self k, by omega⟩
        · exact .inl (hout.next hk hmark)
      · rcases Nat.eq_or_lt_of_le (Nat.succ_le_of_lt hbehind) with heq | hlt'
        · rw [Nat.succ_eq_add_one] at heq
          rw [heq]
          exact .inl (hcomment.outside.behind hcomment.encloses)
        · exact .inr ⟨opening, closing, hcomment, Nat.lt_succ_of_lt hlt, hlt'⟩

theorem BlocksClosed.outside_length (h : BlocksClosed source) :
    OutsideBlocks source source.length := by
  rcases h.outside_or_inside (Nat.le_refl _) with hout | ⟨opening, closing, hcomment, -, hbehind⟩
  · exact hout
  · have hlt := hcomment.encloses.lt_length
    omega

/-- Stripping fails at a block comment that is never closed, and succeeds where there is none. -/
theorem stripBytes_cases (source : Bytes) :
    (∃ opening, stripBytes source = .error opening ∧ UnclosedAt source opening) ∨
    BlocksClosed source ∧ ∃ left, stripBytes source = .ok left := by
  by_cases hclosed : BlocksClosed source
  · -- The scan gets to the end of the source.
    obtain ⟨before, -, hstrip⟩ := hclosed.outside_length.exists_stripBytes_eq
    rw [outsideLines_of_length_le (Nat.le_refl _)] at hstrip
    exact .inr ⟨hclosed, _, hstrip⟩
  · -- It gets to the comment that is not closed, and no further.
    obtain ⟨opening, hopening⟩ := not_forall.mp hclosed
    obtain ⟨hout, hopening⟩ := Classical.not_imp.mp hopening
    obtain ⟨hmark, hnever⟩ := Classical.not_imp.mp hopening
    have hnone := hmark.encloses_or.resolve_left hnever
    obtain ⟨before, -, hstrip⟩ := hout.exists_stripBytes_eq
    refine .inl ⟨opening, ?_, ⟨hout, hmark, hnone⟩⟩
    rw [hstrip, hmark.outsideLines_eq, PlacedByte.blankBlockComments, if_pos ⟨rfl, rfl⟩,
      blankBlockComments_some_error hnone]
    rfl

end Scanning

/-! ## What is left -/

theorem PlacedByte.sublist_blankBlockComments {opened : Option Nat} {ps out : List PlacedByte}
    (h : blankBlockComments opened ps = .ok out) :
    (out.map Prod.snd).Sublist (ps.map Prod.snd) := by
  have hunbroken : ∀ p : PlacedByte, (unbroken p).2 = p.2 := by
    intro p
    unfold unbroken
    split <;> rfl
  fun_induction blankBlockComments opened ps generalizing out with
  | case1 =>
      cases h
      exact .slnil
  | case2 p =>
      cases h
      simp [hunbroken]
  | case3 p q rest _ ih =>
      obtain ⟨out', hout', rfl⟩ := map_eq_ok_iff.mp h
      exact ((ih hout').cons q.2).cons_cons p.2
  | case4 p q rest _ ih =>
      obtain ⟨out', hout', rfl⟩ := map_eq_ok_iff.mp h
      rw [List.map_cons, List.map_cons, hunbroken]
      exact (ih hout').cons_cons p.2
  | case5 start p q rest _ ih => exact ((ih h).cons q.2).cons p.2
  | case6 start p q rest _ ih => exact (ih h).cons p.2
  | case7 => cases h

section Left

variable {source : Bytes} {k : Nat} {left : List PlacedByte}

theorem pairwise_outsideLines (source : Bytes) (k : Nat) :
    ((outsideLines source k).map Prod.snd).Pairwise (· < ·) := by
  apply List.Pairwise.sublist (List.filter_sublist.map Prod.snd)
  rw [List.zipIdx_map_snd]
  exact List.pairwise_lt_range'

theorem of_mem_outsideLines {i : Nat} (h : i ∈ (outsideLines source k).map Prod.snd) :
    k ≤ i ∧ i < source.length ∧ ¬ InLineComment source i := by
  obtain ⟨p, hp, rfl⟩ := List.mem_map.mp h
  obtain ⟨hmem, hout⟩ := List.mem_filter.mp hp
  have hbounds : p.2 ∈ ((source.drop k).zipIdx k).map Prod.snd := List.mem_map_of_mem hmem
  rw [List.zipIdx_map_snd, List.mem_range'_1, List.length_drop] at hbounds
  exact ⟨hbounds.1, by omega, by simpa using hout⟩

/-- What is left before an offset outside of block comments, and what is left from there on. -/
theorem OutsideBlocks.exists_left_eq (h : OutsideBlocks source k)
    (hleft : stripBytes source = .ok left) :
    ∃ before behind, left = before ++ behind ∧ (∀ p ∈ before, p.2 < k) ∧
      PlacedByte.blankBlockComments none (outsideLines source k) = .ok behind := by
  obtain ⟨before, hbefore, hstrip⟩ := h.exists_stripBytes_eq
  rw [hleft] at hstrip
  obtain ⟨behind, hbehind, rfl⟩ := map_eq_ok_iff.mp hstrip.symm
  exact ⟨before, behind, rfl, hbefore, hbehind⟩

theorem le_snd_of_mem {behind : List PlacedByte}
    (h : PlacedByte.blankBlockComments none (outsideLines source k) = .ok behind) :
    ∀ p ∈ behind, k ≤ p.2 :=
  fun _ hp => (of_mem_outsideLines
    ((PlacedByte.sublist_blankBlockComments h).subset (List.mem_map_of_mem hp))).1

/-- Line breaks and block comments become spaces. -/
def Blanked (source : Bytes) (k : Nat) : Prop :=
  source[k]? = some newline ∨ source[k]? = some carriageReturn ∨
    ∃ closing, BlockComment source k closing

/-- The byte that is left of the one at an offset. -/
structure LeftAt (source : Bytes) (k : Nat) (b : UInt8) : Prop where
  space : Blanked source k → b = space
  same : ¬ Blanked source k → source[k]? = some b

/-- Outside of all comments, and where a block comment is opened, a byte is left. -/
theorem exists_behind_eq_cons (hclosed : BlocksClosed source) (hout : OutsideBlocks source k)
    (hline : ¬ InLineComment source k) (hk : k < source.length) {behind : List PlacedByte}
    (h : PlacedByte.blankBlockComments none (outsideLines source k) = .ok behind) :
    ∃ b rest, behind = (b, k) :: rest ∧ LeftAt source k b ∧ ∀ p ∈ rest, k < p.2 := by
  have hget : source[k]? = some source[k] := List.getElem?_eq_getElem hk
  by_cases hmark : MarkAt source slash star k
  · obtain ⟨closing, hencloses⟩ := hclosed k hout hmark
    rw [hencloses.blankBlockComments_eq] at h
    obtain ⟨rest, hrest, rfl⟩ := map_eq_ok_iff.mp h
    refine ⟨space, rest, rfl, ⟨fun _ => rfl, fun hnot => ?_⟩, fun p hp => ?_⟩
    · exact absurd (.inr (.inr ⟨closing, hout, hencloses⟩)) hnot
    · have hle := le_snd_of_mem hrest p hp
      have := hencloses.le
      omega
  · rw [blankBlockComments_outsideLines hget hline hmark] at h
    obtain ⟨rest, hrest, rfl⟩ := map_eq_ok_iff.mp h
    have hrest' : ∀ p ∈ rest, k < p.2 := le_snd_of_mem hrest
    by_cases hbreak : source[k] = newline ∨ source[k] = carriageReturn
    · rw [PlacedByte.unbroken, if_pos hbreak]
      refine ⟨space, rest, rfl, ⟨fun _ => rfl, fun hnot => ?_⟩, hrest'⟩
      refine absurd ?_ hnot
      rw [Blanked, hget, Option.some.injEq, Option.some.injEq, ← or_assoc]
      exact .inl hbreak
    · rw [PlacedByte.unbroken, if_neg hbreak]
      refine ⟨source[k], rest, rfl, ⟨fun hblanked => ?_, fun _ => hget⟩, hrest'⟩
      rw [Blanked, hget, Option.some.injEq, Option.some.injEq, ← or_assoc] at hblanked
      rcases hblanked with hblanked | ⟨closing, hcomment⟩
      · exact absurd hblanked hbreak
      · exact absurd hcomment.encloses.opens hmark

/-- The offsets of the bytes that are left. -/
theorem mem_map_snd_iff (hclosed : BlocksClosed source) (hleft : stripBytes source = .ok left)
    (hk : k < source.length) :
    k ∈ left.map Prod.snd ↔ ¬ InLineComment source k ∧ ¬ InsideBlock source k := by
  constructor
  · intro hmem
    have hsub := PlacedByte.sublist_blankBlockComments ((stripBytes_eq source).symm.trans hleft)
    refine ⟨(of_mem_outsideLines (hsub.subset hmem)).2.2, ?_⟩
    rintro ⟨opening, closing, hcomment, hlt, hbehind⟩
    obtain ⟨before, behind, rfl, hbefore, hscan⟩ := hcomment.outside.exists_left_eq hleft
    rw [hcomment.encloses.blankBlockComments_eq] at hscan
    obtain ⟨rest, hrest, rfl⟩ := map_eq_ok_iff.mp hscan
    obtain ⟨p, hp, rfl⟩ := List.mem_map.mp hmem
    -- The bytes of the comment stand between what was left before it and behind it.
    rcases List.mem_append.mp hp with hp | hp
    · have := hbefore p hp
      omega
    · rcases List.mem_cons.mp hp with rfl | hp
      · exact Nat.lt_irrefl _ hlt
      · have := le_snd_of_mem hrest p hp
        omega
  · rintro ⟨hline, hinside⟩
    have hout := (hclosed.outside_or_inside (Nat.le_of_lt hk)).resolve_right hinside
    obtain ⟨before, behind, rfl, -, hscan⟩ := hout.exists_left_eq hleft
    obtain ⟨b, rest, rfl, -⟩ := exists_behind_eq_cons hclosed hout hline hk hscan
    simp

theorem leftAt_of_mem (hclosed : BlocksClosed source) (hleft : stripBytes source = .ok left)
    {b : UInt8} (h : (b, k) ∈ left) : LeftAt source k b := by
  have hmem : k ∈ left.map Prod.snd := List.mem_map_of_mem (f := Prod.snd) h
  have hsub := PlacedByte.sublist_blankBlockComments ((stripBytes_eq source).symm.trans hleft)
  obtain ⟨-, hk, hline⟩ := of_mem_outsideLines (hsub.subset hmem)
  have hinside := ((mem_map_snd_iff hclosed hleft hk).mp hmem).2
  have hout := (hclosed.outside_or_inside (Nat.le_of_lt hk)).resolve_right hinside
  obtain ⟨before, behind, rfl, hbefore, hscan⟩ := hout.exists_left_eq hleft
  obtain ⟨b', rest, rfl, hb', hrest⟩ := exists_behind_eq_cons hclosed hout hline hk hscan
  rcases List.mem_append.mp h with h | h
  · exact absurd (hbefore _ h) (Nat.lt_irrefl k)
  · rcases List.mem_cons.mp h with heq | h
    · cases heq
      exact hb'
    · exact absurd (hrest _ h) (Nat.lt_irrefl k)

end Left

/-! ## Origins -/

/-- The offsets of a text in the source that it was stripped from. -/
structure OriginMap (source text : Bytes) (origins : List Nat) : Prop where
  length_eq : origins.length = text.length
  increasing : origins.Pairwise (· < ·)
  below : ∀ k ∈ origins, k < source.length
  byte : ∀ p k : Nat, origins[p]? = some k → ∃ b, text[p]? = some b ∧ LeftAt source k b
  mem_iff : ∀ k < source.length,
    k ∈ origins ↔ ¬ InLineComment source k ∧ ¬ InsideBlock source k

theorem originMap_of_stripBytes {source : Bytes} {left : List PlacedByte}
    (hclosed : BlocksClosed source) (hleft : stripBytes source = .ok left) :
    OriginMap source (left.map Prod.fst) (left.map Prod.snd) := by
  have hsub := PlacedByte.sublist_blankBlockComments ((stripBytes_eq source).symm.trans hleft)
  refine ⟨by simp, (pairwise_outsideLines source 0).sublist hsub, ?_, ?_, ?_⟩
  · exact fun k hk => (of_mem_outsideLines (hsub.subset hk)).2.1
  · intro p k hp
    rw [List.getElem?_map] at hp
    obtain ⟨⟨b, _⟩, hget, rfl⟩ := Option.map_eq_some_iff.mp hp
    refine ⟨b, ?_, leftAt_of_mem hclosed hleft (List.mem_of_getElem? hget)⟩
    rw [List.getElem?_map, hget]
    rfl
  · exact fun k hk => mem_map_snd_iff hclosed hleft hk

namespace Stripped

variable {source : List Char} {s : Stripped}

theorem OfSource.unbroken (h : OfSource source s) : '\n' ∉ s.text ∧ '\r' ∉ s.text := by
  constructor <;> intro hmem <;> obtain ⟨p, hp, hchar⟩ := List.mem_map.mp hmem
  · exact (h.leftFrom p hp).unbroken.1 hchar
  · exact (h.leftFrom p hp).unbroken.2 hchar

theorem OfSource.commentFree (h : OfSource source s) : Text.CommentFree s.text := by
  rw [Text.commentFree_iff_isChain, text, List.isChain_map]
  refine h.isChain.imp ?_
  rintro p q (hp | hq | ⟨-, hnone⟩) ⟨hslash, hmark⟩
  · rw [hp] at hslash
    cases hslash
  · rw [hq] at hmark
    revert hmark
    decide
  · exact hnone ⟨hslash, hmark⟩

/-- Only a block comment that is never closed makes a source fail, at the mark that opens it. From
any other source a text is left that has no line breaks and opens no comment. Each byte of it has
its own place in the source, and these places are all that lies outside of the comments, with the
marks that open block comments. -/
theorem ofSource_originMap (source : List Char) :
    stripText source = (ofSource source).map (fun s => (String.ofList s.text, s.origins)) ∧
    ((∃ start, ofSource source = .error ((Cause.unclosedBlockComment.at start).withLine source) ∧
        UnclosedAt (Text.utf8 source) start) ∨
      ∃ s, ofSource source = .ok s ∧ BlocksClosed (Text.utf8 source) ∧
        '\n' ∉ s.text ∧ '\r' ∉ s.text ∧ Text.CommentFree s.text ∧
        OriginMap (Text.utf8 source) (Text.utf8 s.text) s.origins ∧
        ∀ p, s.origin p = s.origins[p]?.getD (Text.utf8 source).length) := by
  refine ⟨stripText_eq source, ?_⟩
  have hstrip := stripBytes_utf8 source
  cases hplaced : Placed.blankBlockComments none
      (Placed.dropLineComments false (Placed.ofText 0 source)) with
  | error start =>
      rw [hplaced] at hstrip
      refine .inl ⟨start, by rw [ofSource, hplaced], ?_⟩
      rcases stripBytes_cases (Text.utf8 source) with ⟨_, heq, hunclosed⟩ | ⟨-, _, heq⟩
      · cases heq.symm.trans hstrip
        exact hunclosed
      · cases heq.symm.trans hstrip
  | ok placed =>
      rw [hplaced] at hstrip
      have hsource : ofSource source = .ok ⟨placed, Text.byteLength source⟩ := by
        rw [ofSource, hplaced]
      rcases stripBytes_cases (Text.utf8 source) with ⟨_, heq, -⟩ | ⟨hclosed, -⟩
      · cases heq.symm.trans hstrip
      · have hof := ofSource_of_eq_ok hsource
        have hmap := originMap_of_stripBytes hclosed hstrip
        rw [map_fst_flatMap_bytes ⟨placed, Text.byteLength source⟩,
          map_snd_flatMap_bytes ⟨placed, Text.byteLength source⟩] at hmap
        refine .inr ⟨_, hsource, hclosed, hof.unbroken.1, hof.unbroken.2, hof.commentFree, hmap, ?_⟩
        intro p
        rw [Text.length_utf8]
        rfl

end Stripped

end StackScript
