import Mathlib.Data.List.Chain
import StackScript.Source.Stripped

/-! # What stripping leaves

Stripping looks at pairs of characters, so what it leaves is said of neighbours: they stand side by
side in the source unless one of them is a space, and no two of them open a comment. -/

namespace StackScript

theorem map_eq_ok_iff {ε α β : Type} {x : Except ε α} {f : α → β} {b : β} :
    x.map f = .ok b ↔ ∃ a, x = .ok a ∧ f a = b := by
  cases x <;> simp [Except.map]

theorem map_eq_error_iff {ε α β : Type} {x : Except ε α} {f : α → β} {e : ε} :
    x.map f = .error e ↔ x = .error e := by
  cases x <;> simp [Except.map]

namespace Placed

/-! ## Neighbours -/

/-- The second character stands right behind the first one in the source. -/
def Follows (p q : Placed) : Prop := q.origin = p.origin + p.char.utf8Size

/-- Neighbours where line comments are gone. A newline can be what was left of one. -/
def Unlined (p q : Placed) : Prop :=
  q.char = '\n' ∨ (p.Follows q ∧ ¬ (p.char = '/' ∧ q.char = '/'))

/-- Neighbours where all comments are gone. -/
def Bare (p q : Placed) : Prop :=
  p.char = ' ' ∨ q.char = ' ' ∨
    (p.Follows q ∧ ¬ (p.char = '/' ∧ (q.char = '/' ∨ q.char = '*')))

/-! ## Placed text -/

@[simp] theorem map_char_ofText (pos : Nat) (cs : List Char) :
    (ofText pos cs).map Placed.char = cs := by
  induction cs generalizing pos with
  | nil => rfl
  | cons c cs ih => rw [ofText, List.map_cons, ih]

theorem isChain_ofText (pos : Nat) (cs : List Char) : (ofText pos cs).IsChain Follows := by
  induction cs generalizing pos with
  | nil => exact .nil
  | cons c cs ih =>
      rw [ofText, List.isChain_cons]
      refine ⟨?_, ih _⟩
      intro q hq
      cases cs with
      | nil => simp [ofText] at hq
      | cons d cs =>
          simp only [ofText, List.head?_cons, Option.mem_some_iff] at hq
          subst hq
          rfl

/-- The offsets of the bytes of a text are consecutive. -/
theorem flatMap_byteOrigins_ofText (pos : Nat) (cs : List Char) :
    (ofText pos cs).flatMap byteOrigins =
      (List.range (Text.byteLength cs)).map (pos + ·) := by
  induction cs generalizing pos with
  | nil => rfl
  | cons c cs ih =>
      rw [ofText, List.flatMap_cons, ih, Text.byteLength_cons, List.range_add, List.map_append,
        List.map_map, byteOrigins]
      congr 1
      apply List.map_congr_left
      intro i _
      exact Nat.add_assoc pos c.utf8Size i

/-! ## Line comments -/

theorem mem_of_mem_dropLineComments {inside : Bool} {ps : List Placed} {p : Placed}
    (h : p ∈ dropLineComments inside ps) : p ∈ ps := by
  fun_induction dropLineComments inside ps with
  | case1 => exact h
  | case2 q ps _ ih =>
      rcases List.mem_cons.mp h with rfl | h
      · exact List.mem_cons_self
      · exact List.mem_cons_of_mem _ (ih h)
  | case3 q ps _ ih => exact List.mem_cons_of_mem _ (ih h)
  | case4 q ps _ ih => exact List.mem_cons_of_mem _ (ih h)
  | case5 q ps _ ih =>
      rcases List.mem_cons.mp h with rfl | h
      · exact List.mem_cons_self
      · exact List.mem_cons_of_mem _ (ih h)

/-- What comes first is what came first before, or the newline behind a comment. -/
theorem head?_dropLineComments {inside : Bool} {ps : List Placed} {q : Placed}
    (h : q ∈ (dropLineComments inside ps).head?) :
    q.char = '\n' ∨ (inside = false ∧ q ∈ ps.head?) := by
  fun_induction dropLineComments inside ps with
  | case1 => simp at h
  | case2 p ps hnewline =>
      simp only [List.head?_cons, Option.mem_some_iff] at h
      exact .inl (h ▸ hnewline)
  | case3 p ps _ ih => exact .inl ((ih h).resolve_right (by simp))
  | case4 p ps _ ih => exact .inl ((ih h).resolve_right (by simp))
  | case5 p ps _ => exact .inr ⟨rfl, h⟩

theorem isChain_dropLineComments (inside : Bool) {ps : List Placed} (h : ps.IsChain Follows) :
    (dropLineComments inside ps).IsChain Unlined := by
  fun_induction dropLineComments inside ps with
  | case1 => exact .nil
  | case2 p ps hnewline ih =>
      obtain ⟨hhead, htail⟩ := List.isChain_cons.mp h
      refine List.isChain_cons.mpr ⟨?_, ih htail⟩
      intro q hq
      rcases head?_dropLineComments hq with hq | ⟨-, hq⟩
      · exact .inl hq
      · exact .inr ⟨hhead q hq, by simp [hnewline]⟩
  | case3 p ps _ ih => exact ih h.tail
  | case4 p ps _ ih => exact ih h.tail
  | case5 p ps hmark ih =>
      obtain ⟨hhead, htail⟩ := List.isChain_cons.mp h
      refine List.isChain_cons.mpr ⟨?_, ih htail⟩
      intro q hq
      rcases head?_dropLineComments hq with hq | ⟨-, hq⟩
      · exact .inl hq
      · refine .inr ⟨hhead q hq, fun hslash => hmark ⟨hslash.1, ?_⟩⟩
        rw [Option.mem_def.mp hq, Option.map_some, hslash.2]

/-- A text in which no line comment starts stays as it is. -/
theorem dropLineComments_eq_self {ps : List Placed}
    (h : ps.IsChain fun p q => ¬ (p.char = '/' ∧ q.char = '/')) :
    dropLineComments false ps = ps := by
  induction ps with
  | nil => rfl
  | cons p ps ih =>
      obtain ⟨hhead, htail⟩ := List.isChain_cons.mp h
      have hmark : ¬ (p.char = '/' ∧ ps.head?.map Placed.char = some '/') := by
        rintro ⟨hp, hps⟩
        obtain ⟨q, hq, hslash⟩ := Option.map_eq_some_iff.mp hps
        exact hhead q hq ⟨hp, hslash⟩
      rw [dropLineComments, if_neg hmark, ih htail]

/-! ## Block comments -/

theorem unbroken_cases (p : Placed) : p.unbroken.char = ' ' ∨ p.unbroken = p := by
  unfold unbroken
  split
  · exact .inl rfl
  · exact .inr rfl

/-- A character that breaks no line. It is one of the given ones, or a space in the place of one. -/
structure LeftFrom (ps : List Placed) (p : Placed) : Prop where
  kept : p.char = ' ' ∨ p ∈ ps
  place : ∃ q ∈ ps, q.origin = p.origin
  unbroken : p.char ≠ '\n' ∧ p.char ≠ '\r'

theorem LeftFrom.mono {ps qs : List Placed} {p : Placed} (h : LeftFrom ps p)
    (hsub : ∀ q ∈ ps, q ∈ qs) : LeftFrom qs p := by
  obtain ⟨q, hq, horigin⟩ := h.place
  exact ⟨h.kept.imp_right (hsub p), ⟨q, hsub q hq, horigin⟩, h.unbroken⟩

theorem LeftFrom.cons {ps : List Placed} {p : Placed} (h : LeftFrom ps p) (q : Placed) :
    LeftFrom (q :: ps) p :=
  h.mono fun _ => List.mem_cons_of_mem q

theorem leftFrom_space {ps : List Placed} {p : Placed} (h : p ∈ ps) :
    LeftFrom ps ⟨' ', p.origin⟩ :=
  ⟨.inl rfl, ⟨p, h, rfl⟩, by simp⟩

theorem leftFrom_unbroken {ps : List Placed} {p : Placed} (h : p ∈ ps) :
    LeftFrom ps p.unbroken := by
  by_cases hbreak : p.char = '\n' ∨ p.char = '\r'
  · rw [Placed.unbroken, if_pos hbreak]
    exact leftFrom_space h
  · rw [Placed.unbroken, if_neg hbreak]
    exact ⟨.inr h, ⟨p, h, rfl⟩, not_or.mp hbreak⟩

theorem leftFrom_of_mem_blankBlockComments {opened : Option Nat} {ps out : List Placed}
    {p : Placed} (hout : blankBlockComments opened ps = .ok out) (hp : p ∈ out) :
    LeftFrom ps p := by
  fun_induction blankBlockComments opened ps generalizing out with
  | case1 =>
      cases hout
      cases hp
  | case2 q =>
      cases hout
      rw [List.mem_singleton.mp hp]
      exact leftFrom_unbroken List.mem_cons_self
  | case3 q r rest _ ih =>
      obtain ⟨out', hout', rfl⟩ := map_eq_ok_iff.mp hout
      rcases List.mem_cons.mp hp with rfl | hp
      · exact leftFrom_space List.mem_cons_self
      · exact ((ih hout' hp).cons r).cons q
  | case4 q r rest _ ih =>
      obtain ⟨out', hout', rfl⟩ := map_eq_ok_iff.mp hout
      rcases List.mem_cons.mp hp with rfl | hp
      · exact leftFrom_unbroken List.mem_cons_self
      · exact (ih hout' hp).cons q
  | case5 start q r rest _ ih => exact ((ih hout hp).cons r).cons q
  | case6 start q r rest _ ih => exact (ih hout hp).cons q
  | case7 => cases hout

/-- Outside of a comment, what comes first is a space or what came first before. -/
theorem head?_blankBlockComments {ps out : List Placed} {p : Placed}
    (hout : blankBlockComments none ps = .ok out) (hp : p ∈ out.head?) :
    p.char = ' ' ∨ p ∈ ps.head? := by
  match ps with
  | [] =>
      cases hout
      simp at hp
  | [q] =>
      cases hout
      cases hp
      exact q.unbroken_cases.imp_right fun h => congrArg some h.symm
  | q :: r :: rest =>
      rw [blankBlockComments] at hout
      split at hout
      · obtain ⟨out', -, rfl⟩ := map_eq_ok_iff.mp hout
        cases hp
        exact .inl rfl
      · obtain ⟨out', -, rfl⟩ := map_eq_ok_iff.mp hout
        cases hp
        exact q.unbroken_cases.imp_right fun h => congrArg some h.symm

theorem isChain_blankBlockComments {opened : Option Nat} {ps out : List Placed}
    (h : ps.IsChain Unlined) (hout : blankBlockComments opened ps = .ok out) :
    out.IsChain Bare := by
  fun_induction blankBlockComments opened ps generalizing out with
  | case1 =>
      cases hout
      exact .nil
  | case2 =>
      cases hout
      exact .singleton _
  | case3 p q rest _ ih =>
      obtain ⟨out', hout', rfl⟩ := map_eq_ok_iff.mp hout
      exact List.isChain_cons.mpr ⟨fun _ _ => .inl rfl, ih h.tail.tail hout'⟩
  | case4 p q rest hmark ih =>
      obtain ⟨out', hout', rfl⟩ := map_eq_ok_iff.mp hout
      refine List.isChain_cons.mpr ⟨?_, ih h.tail hout'⟩
      intro r hr
      rcases p.unbroken_cases with hspace | hself
      · exact .inl hspace
      · rw [hself]
        rcases head?_blankBlockComments hout' hr with hspace | hhead
        · exact .inr (.inl hspace)
        · -- The neighbour was kept, so it is no newline and opens no comment behind `p`.
          cases hhead
          have hleft := leftFrom_of_mem_blankBlockComments hout' (List.mem_of_mem_head? hr)
          obtain ⟨hfollows, hslash⟩ := (List.isChain_cons_cons.mp h).1.resolve_left hleft.unbroken.1
          refine .inr (.inr ⟨hfollows, ?_⟩)
          rintro ⟨hp, hq | hq⟩
          · exact hslash ⟨hp, hq⟩
          · exact hmark ⟨hp, hq⟩
  | case5 start p q rest _ ih => exact ih h.tail.tail hout
  | case6 start p q rest _ ih => exact ih h.tail hout
  | case7 => cases hout

/-- In a text in which no block comment starts, only line breaks become spaces. -/
theorem blankBlockComments_eq_map {ps : List Placed}
    (hmark : ps.IsChain fun p q => ¬ (p.char = '/' ∧ q.char = '*')) :
    blankBlockComments none ps = .ok (ps.map unbroken) := by
  induction ps with
  | nil => rfl
  | cons p ps ih =>
      cases ps with
      | nil => rfl
      | cons q rest =>
          obtain ⟨hpq, htail⟩ := List.isChain_cons_cons.mp hmark
          rw [blankBlockComments, if_neg hpq, ih htail]
          rfl

/-- In a text in which no comment starts, only line breaks become spaces. -/
theorem blankBlockComments_dropLineComments {ps : List Placed}
    (h : ps.IsChain fun p q => ¬ (p.char = '/' ∧ (q.char = '/' ∨ q.char = '*'))) :
    blankBlockComments none (dropLineComments false ps) = .ok (ps.map unbroken) := by
  rw [dropLineComments_eq_self (h.imp fun p q hpq hslash => hpq ⟨hslash.1, .inl hslash.2⟩)]
  exact blankBlockComments_eq_map (h.imp fun p q hpq hslash => hpq ⟨hslash.1, .inr hslash.2⟩)

/-- A comment that is never closed is reported where it was opened. -/
theorem blankBlockComments_error {opened : Option Nat} {ps : List Placed} {start : Nat}
    (h : blankBlockComments opened ps = .error start) :
    opened = some start ∨ ∃ p q, [p, q] <:+: ps ∧ p.char = '/' ∧ q.char = '*' ∧
      p.origin = start := by
  have hcons : ∀ {r : Placed} {qs : List Placed},
      (∃ p q, [p, q] <:+: qs ∧ p.char = '/' ∧ q.char = '*' ∧ p.origin = start) →
      ∃ p q, [p, q] <:+: r :: qs ∧ p.char = '/' ∧ q.char = '*' ∧ p.origin = start := by
    rintro r qs ⟨p, q, hinfix, hpq⟩
    exact ⟨p, q, hinfix.trans (List.suffix_cons r qs).isInfix, hpq⟩
  fun_induction blankBlockComments opened ps with
  | case1 | case2 => cases h
  | case3 p q rest hmark ih =>
      refine .inr ?_
      rcases ih (map_eq_error_iff.mp h) with hstart | hrest
      · exact ⟨p, q, (List.prefix_append [p, q] rest).isInfix, hmark.1, hmark.2,
          Option.some.inj hstart⟩
      · exact hcons (hcons hrest)
  | case4 p q rest _ ih =>
      exact .inr (hcons ((ih (map_eq_error_iff.mp h)).resolve_left nofun))
  | case5 _ p q rest _ ih => exact .inr (hcons (hcons ((ih h).resolve_left nofun)))
  | case6 _ p q rest _ ih => exact (ih h).imp_right hcons
  | case7 => exact .inl (by rw [Except.error.inj h])

end Placed

/-! ## Stripped sources -/

namespace Stripped

variable {source : List Char} {s : Stripped}

/-- What is left of a source, character by character. -/
structure OfSource (source : List Char) (s : Stripped) : Prop where
  length_eq : s.sourceLength = Text.byteLength source
  isChain : s.placed.IsChain Placed.Bare
  leftFrom : ∀ p ∈ s.placed, Placed.LeftFrom (Placed.ofText 0 source) p

theorem ofSource_of_eq_ok (h : ofSource source = .ok s) : OfSource source s := by
  unfold ofSource at h
  split at h
  · cases h
  · rename_i placed hplaced
    cases h
    have hchain := Placed.isChain_dropLineComments false (Placed.isChain_ofText 0 source)
    refine ⟨rfl, Placed.isChain_blankBlockComments hchain hplaced, ?_⟩
    intro p hp
    exact (Placed.leftFrom_of_mem_blankBlockComments hplaced hp).mono
      fun _ => Placed.mem_of_mem_dropLineComments

/-- Stripped text as a source of its own, with every character in its place. -/
def ofPlain (text : List Char) : Stripped := ⟨Placed.ofText 0 text, Text.byteLength text⟩

@[simp] theorem text_ofPlain (text : List Char) : (ofPlain text).text = text :=
  Placed.map_char_ofText 0 text

theorem origins_ofPlain (text : List Char) :
    (ofPlain text).origins = List.range (Text.byteLength text) := by
  rw [origins, ofPlain, Placed.flatMap_byteOrigins_ofText]
  simp

/-- There is nothing to strip from stripped text. -/
theorem OfSource.ofSource_text (h : OfSource source s) :
    ofSource s.text = .ok (ofPlain s.text) := by
  -- Neighbours in the text are neighbours among the characters that are left.
  have hchain : (Placed.ofText 0 s.text).IsChain fun p q =>
      ¬ (p.char = '/' ∧ (q.char = '/' ∨ q.char = '*')) := by
    apply (List.isChain_map Placed.char
      (R := fun c d => ¬ (c = '/' ∧ (d = '/' ∨ d = '*')))).mp
    rw [Placed.map_char_ofText, text]
    apply (List.isChain_map Placed.char).mpr
    refine h.isChain.imp fun p q hpq => ?_
    rcases hpq with hp | hq | ⟨-, hmark⟩
    · simp [hp]
    · simp [hq]
    · exact hmark
  have hbreak : ∀ p ∈ Placed.ofText 0 s.text, p.char ≠ '\n' ∧ p.char ≠ '\r' := by
    intro p hp
    have hchar : p.char ∈ s.placed.map Placed.char := by
      have hmem := List.mem_map_of_mem (f := Placed.char) hp
      rwa [Placed.map_char_ofText] at hmem
    obtain ⟨q, hq, hqp⟩ := List.mem_map.mp hchar
    exact hqp ▸ (h.leftFrom q hq).unbroken
  have hself : (Placed.ofText 0 s.text).map Placed.unbroken = (Placed.ofText 0 s.text).map id :=
    List.map_congr_left fun p hp => if_neg (not_or.mpr (hbreak p hp))
  rw [ofSource, Placed.blankBlockComments_dropLineComments hchain, hself, List.map_id]
  rfl

end Stripped

end StackScript
