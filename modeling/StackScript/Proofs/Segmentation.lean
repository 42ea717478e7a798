import StackScript.Proofs.Delimiter
import StackScript.Proofs.StrippedScript
import StackScript.Proofs.Utf8

/-! # Texts and their pieces

What the pieces of a text are, said of the text alone. Each piece shows by itself where it ends, so
what stands behind the last one has no part in it. -/

namespace StackScript

open Delimiter

/-- Brackets of both kinds match, each kind by itself. -/
def IsNested (text : List Char) : Prop := IsBalanced parenthesis text ∧ IsBalanced brace text

namespace Piece

/-! ## The shape of a piece -/

/-- The text of a statement ends at its only semicolon. The text of a function ends at the partner
of its first curly bracket, before which there is no semicolon. -/
inductive Shape : PieceKind → List Char → Prop where
  | statement {body : List Char} :
      (∀ c ∈ body.head?, Text.isAsciiBlank c = false) → ¬ functionMark <+: body → ';' ∉ body →
      Shape .statement (body ++ [';'])
  | function {name inner : List Char} :
      (∀ c ∈ name, isHeaderChar c = true) → IsBalanced brace inner →
      Shape .function (functionMark ++ name ++ '\x7b' :: (inner ++ ['\x7d']))

theorem Shape.exists_cons {kind : PieceKind} {text : List Char} (h : Shape kind text) :
    ∃ c cs, text = c :: cs ∧ Text.isAsciiBlank c = false := by
  cases h with
  | @statement body hhead _ _ =>
      cases body with
      | nil => exact ⟨';', [], rfl, by decide⟩
      | cons c cs => exact ⟨c, cs ++ [';'], rfl, hhead c rfl⟩
  | function _ _ => exact ⟨'f', _, rfl, by decide⟩

theorem takeWhile_ne_semicolon {body : List Char} (h : ';' ∉ body) (rest : List Char) :
    (body ++ ';' :: rest).takeWhile (· != ';') = body := by
  refine Text.takeWhile_append_cons ?_ rfl
  intro c hc
  rw [bne_iff_ne]
  rintro rfl
  exact h hc

variable {lastPos start pos : Nat} {cs : List Char} {piece : Piece}

theorem statement_eq_ok_iff :
    statement lastPos start cs = .ok piece ↔ ∃ body rest, cs = body ++ ';' :: rest ∧ ';' ∉ body ∧
      piece = ⟨.statement, start, body ++ [';']⟩ := by
  simp only [statement]
  constructor
  · intro h
    split at h
    · cases h
    · rename_i c rest hrest
      obtain ⟨body, hbody, rfl, hall, hc⟩ := Text.exists_of_drop_takeWhile hrest
      obtain rfl : c = ';' := by simpa using hc
      refine ⟨body, rest, rfl, fun hmem => absurd (hall ';' hmem) (by decide), ?_⟩
      rw [hbody, List.take_length_add_append] at h
      exact (Except.ok.inj h).symm
  · rintro ⟨body, rest, rfl, hbody, rfl⟩
    rw [takeWhile_ne_semicolon hbody, List.drop_left, List.take_length_add_append]
    rfl

theorem brace_eq_closing {c : Char} : brace c = closing ↔ c = '\x7d' := by
  unfold brace between
  split
  · simp_all
  · split <;> simp_all

theorem function_eq_ok_iff :
    function start cs = .ok piece ↔ ∃ header inner rest,
      cs = header ++ '\x7b' :: (inner ++ '\x7d' :: rest) ∧ (∀ c ∈ header, isHeaderChar c = true) ∧
      IsBalanced brace inner ∧
      piece = ⟨.function, start, header ++ '\x7b' :: (inner ++ ['\x7d'])⟩ := by
  have htext : ∀ header inner rest : List Char,
      (header ++ '\x7b' :: (inner ++ '\x7d' :: rest)).take (header.length + inner.length + 2) =
        header ++ '\x7b' :: (inner ++ ['\x7d']) := by
    intro header inner rest
    rw [Nat.add_assoc, List.take_length_add_append, List.take_succ_cons,
      List.take_length_add_append]
    rfl
  simp only [function]
  constructor
  · intro h
    split at h
    · rename_i rest hrest
      obtain ⟨header, hheader, rfl, hall, -⟩ := Text.exists_of_drop_takeWhile hrest
      split at h
      · rename_i index hindex
        obtain ⟨inner, last, behind, rfl, rfl, hlast, hinner⟩ :=
          (findCloseFrom_eq_some_iff 0 index rest).mp hindex
        obtain rfl := brace_eq_closing.mp hlast
        refine ⟨header, inner, behind, rfl, hall, hinner, ?_⟩
        rw [hheader, htext] at h
        exact (Except.ok.inj h).symm
      · cases h
    · cases h
  · rintro ⟨header, inner, rest, rfl, hheader, hinner, rfl⟩
    have htake : (header ++ '\x7b' :: (inner ++ '\x7d' :: rest)).takeWhile isHeaderChar = header :=
      Text.takeWhile_append_cons hheader rfl
    have hclose : findClose brace (inner ++ '\x7d' :: rest) = some inner.length :=
      (findCloseFrom_eq_some_iff 0 _ _).mpr
        ⟨inner, '\x7d', rest, rfl, rfl, brace_eq_closing.mpr rfl, hinner⟩
    simp only [htake, List.drop_left, hclose, htext]

/-- A mark in which an item does not occur stands in front of the item or not at all. -/
theorem prefix_of_append_cons {mark xs ys : List Char} {c : Char} (h : mark <+: xs ++ c :: ys)
    (hc : c ∉ mark) : mark <+: xs := by
  have hitem : xs ++ [c] <+: xs ++ c :: ys := ⟨ys, by simp⟩
  rcases List.prefix_or_prefix_of_prefix h hitem with hmark | hmark
  · rcases List.prefix_concat_iff.mp hmark with rfl | hmark
    · exact absurd (by simp) hc
    · exact hmark
  · exact absurd (hmark.subset (by simp)) hc

/-- The first piece of a text is the start of it, and it has the shape of a piece. -/
theorem shape_of_first {c : Char} (hc : Text.isAsciiBlank c = false)
    (h : first lastPos start (c :: cs) = .ok piece) :
    piece.start = start ∧ Shape piece.kind piece.text ∧ piece.text <+: c :: cs := by
  have hblank : ∀ d ∈ (c :: cs).head?, Text.isAsciiBlank d = false := by simpa using hc
  generalize c :: cs = text at h hblank ⊢
  simp only [first, List.isPrefixOf_iff_prefix] at h
  split at h
  · rename_i hmark
    obtain ⟨header, inner, rest, rfl, hheader, hinner, rfl⟩ := function_eq_ok_iff.mp h
    obtain ⟨name, rfl⟩ := prefix_of_append_cons hmark (by decide)
    refine ⟨rfl, .function ?_ hinner, rest, by simp⟩
    intro c hc
    exact hheader c (List.mem_append_right _ hc)
  · rename_i hmark
    obtain ⟨body, rest, rfl, hbody, rfl⟩ := statement_eq_ok_iff.mp h
    refine ⟨rfl, .statement ?_ (fun hprefix => hmark ?_) hbody, rest, by simp⟩
    · intro c hc
      exact hblank c (by rw [List.head?_append, Option.mem_def.mp hc]; rfl)
    · exact hprefix.trans (List.prefix_append _ _)

theorem isHeaderChar_of_mark_append {name : List Char} (h : ∀ c ∈ name, isHeaderChar c = true) :
    ∀ c ∈ functionMark ++ name, isHeaderChar c = true :=
  List.forall_mem_append.mpr
    ⟨List.all_eq_true.mp (rfl : functionMark.all isHeaderChar = true), h⟩

/-- What has the shape of a piece is the first piece of every text that starts with it. -/
theorem first_of_shape {kind : PieceKind} {text : List Char} (h : Shape kind text)
    (rest : List Char) : first lastPos start (text ++ rest) = .ok ⟨kind, start, text⟩ := by
  simp only [first, List.isPrefixOf_iff_prefix]
  cases h with
  | @function name inner hname hinner =>
      have hcs : functionMark ++ name ++ '\x7b' :: (inner ++ ['\x7d']) ++ rest =
          functionMark ++ name ++ '\x7b' :: (inner ++ '\x7d' :: rest) := by simp
      rw [hcs, if_pos ⟨name ++ '\x7b' :: (inner ++ '\x7d' :: rest), by rw [List.append_assoc]⟩]
      exact function_eq_ok_iff.mpr
        ⟨functionMark ++ name, inner, rest, rfl, isHeaderChar_of_mark_append hname, hinner, rfl⟩
  | @statement body _ hmark hbody =>
      have hcs : body ++ [';'] ++ rest = body ++ ';' :: rest := by simp
      rw [hcs, if_neg fun hprefix => hmark (prefix_of_append_cons hprefix (by decide))]
      exact statement_eq_ok_iff.mpr ⟨body, rest, rfl, hbody, rfl⟩

/-! ## All pieces of a text -/

/-- A text that starts at an offset is cut into pieces, with nothing but blanks between them. -/
inductive Cuts : Nat → List Char → List Piece → Prop where
  | nil {pos : Nat} : Cuts pos [] []
  | blank {pos : Nat} {c : Char} {cs : List Char} {pieces : List Piece} :
      Text.isAsciiBlank c = true → Cuts (pos + c.utf8Size) cs pieces → Cuts pos (c :: cs) pieces
  | piece {piece : Piece} {rest : List Char} {pieces : List Piece} :
      Shape piece.kind piece.text → Cuts piece.stop rest pieces →
      Cuts piece.start (piece.text ++ rest) (piece :: pieces)

variable {pieces : List Piece}

theorem allFrom_of_drop_nil (h : cs.drop (cs.takeWhile Text.isAsciiBlank).length = []) :
    allFrom lastPos pos cs = .ok [] := by
  rw [allFrom]
  split
  · rfl
  · rename_i hcons
    rw [h] at hcons
    cases hcons

theorem allFrom_of_drop_cons {c : Char} {rest : List Char}
    (h : cs.drop (cs.takeWhile Text.isAsciiBlank).length = c :: rest) :
    allFrom lastPos pos cs =
      (first lastPos (pos + Text.byteLength (cs.takeWhile Text.isAsciiBlank)) (c :: rest)).bind
        fun piece =>
          (allFrom lastPos piece.stop ((c :: rest).drop piece.text.length)).map (piece :: ·) := by
  rw [allFrom]
  split
  · rename_i hnil
    rw [h] at hnil
    cases hnil
  · rename_i d ds hcons
    rw [h] at hcons
    cases hcons
    split
    · rename_i hfirst
      simp only [hfirst, Except.bind]
    · rename_i hfirst
      simp only [hfirst, Except.bind]

theorem allFrom_blank {c : Char} (hc : Text.isAsciiBlank c = true) (cs : List Char) :
    allFrom lastPos pos (c :: cs) = allFrom lastPos (pos + c.utf8Size) cs := by
  have hdrop : (c :: cs).drop ((c :: cs).takeWhile Text.isAsciiBlank).length =
      cs.drop (cs.takeWhile Text.isAsciiBlank).length := by
    rw [List.takeWhile_cons_of_pos hc]
    rfl
  cases hrest : cs.drop (cs.takeWhile Text.isAsciiBlank).length with
  | nil => rw [allFrom_of_drop_nil hrest, allFrom_of_drop_nil (hdrop.trans hrest)]
  | cons d rest =>
      rw [allFrom_of_drop_cons hrest, allFrom_of_drop_cons (hdrop.trans hrest),
        List.takeWhile_cons_of_pos hc, Text.byteLength_cons, Nat.add_assoc]

theorem allFrom_piece (h : Shape piece.kind piece.text) (rest : List Char) :
    allFrom lastPos piece.start (piece.text ++ rest) =
      (allFrom lastPos piece.stop rest).map (piece :: ·) := by
  obtain ⟨c, cs, htext, hc⟩ := h.exists_cons
  have hblanks : (piece.text ++ rest).takeWhile Text.isAsciiBlank = [] := by
    rw [htext, List.cons_append, List.takeWhile_cons_of_neg (by simp [hc])]
  have hdrop : (piece.text ++ rest).drop
      ((piece.text ++ rest).takeWhile Text.isAsciiBlank).length = c :: (cs ++ rest) := by
    rw [hblanks, htext]
    rfl
  rw [allFrom_of_drop_cons hdrop, hblanks, Text.byteLength_nil, Nat.add_zero, ← List.cons_append,
    ← htext, first_of_shape h, Except.bind, List.drop_left]

theorem Cuts.blanks {blanks : List Char} (hblanks : ∀ c ∈ blanks, Text.isAsciiBlank c = true)
    (h : Cuts (pos + Text.byteLength blanks) cs pieces) : Cuts pos (blanks ++ cs) pieces := by
  induction blanks generalizing pos with
  | nil => exact h
  | cons c blanks ih =>
      obtain ⟨hc, hblanks⟩ := List.forall_mem_cons.mp hblanks
      rw [Text.byteLength_cons, ← Nat.add_assoc] at h
      exact .blank hc (ih hblanks h)

theorem cuts_of_allFrom (h : allFrom lastPos pos cs = .ok pieces) : Cuts pos cs pieces := by
  fun_induction allFrom lastPos pos cs generalizing pieces
  case case1 =>
    rename_i cs _ hnil
    cases h
    rw [← Text.takeWhile_append_drop Text.isAsciiBlank cs, hnil]
    exact .blanks (List.all_eq_true.mp List.all_takeWhile) .nil
  case case2 => cases h
  case case3 =>
    rename_i pos cs _ c rest hcs piece hfirst _ _ ih
    obtain ⟨blanks, hblanks, rfl, hall, hc⟩ := Text.exists_of_drop_takeWhile hcs
    obtain ⟨hstart, hshape, behind, hbehind⟩ := shape_of_first hc hfirst
    obtain ⟨pieces', hpieces', rfl⟩ := map_eq_ok_iff.mp h
    have hrest := ih hpieces'
    -- What is left behind the piece is what the search goes on with.
    rw [← hbehind, List.drop_left] at hrest
    have hcuts := Cuts.piece hshape hrest
    rw [hbehind, hstart] at hcuts
    exact .blanks hall (hblanks ▸ hcuts)

/-- Where a text ends, the search goes on as if it started there. -/
theorem Cuts.allFrom_append (h : Cuts pos cs pieces) (lastPos : Nat) (ds : List Char) :
    allFrom lastPos pos (cs ++ ds) =
      (allFrom lastPos (pos + Text.byteLength cs) ds).map (pieces ++ ·) := by
  induction h with
  | @nil pos =>
      rw [List.nil_append, Text.byteLength_nil, Nat.add_zero]
      cases allFrom lastPos pos ds <;> rfl
  | blank hc _ ih =>
      rw [List.cons_append, allFrom_blank hc, ih, Text.byteLength_cons, Nat.add_assoc]
  | @piece piece rest pieces hshape _ ih =>
      rw [List.append_assoc, allFrom_piece hshape, ih, stop, Text.byteLength_append, Nat.add_assoc]
      cases allFrom lastPos _ ds <;> rfl

theorem allFrom_eq_ok_iff : allFrom lastPos pos cs = .ok pieces ↔ Cuts pos cs pieces := by
  refine ⟨cuts_of_allFrom, fun h => ?_⟩
  have hnil : ∀ pos, allFrom lastPos pos [] = .ok [] := fun pos => allFrom_of_drop_nil rfl
  have hend := h.allFrom_append lastPos []
  rw [List.append_nil, hnil] at hend
  rw [hend, Except.map, List.append_nil]

theorem all_eq_ok_iff {text : List Char} :
    all text = .ok pieces ↔ Cuts 0 text pieces ∧ pieces ≠ [] := by
  rw [all, ← @allFrom_eq_ok_iff (lastOffset text)]
  cases allFrom (lastOffset text) 0 text with
  | error d => simp
  | ok found =>
      cases found with
      | nil => simp [eq_comm]
      | cons piece found =>
          simp only [Except.ok.injEq, iff_self_and]
          rintro rfl
          exact List.cons_ne_nil piece found

theorem Cuts.append {ds : List Char} {pieces' : List Piece} (h : Cuts pos cs pieces)
    (h' : Cuts (pos + Text.byteLength cs) ds pieces') :
    Cuts pos (cs ++ ds) (pieces ++ pieces') := by
  have hall := h.allFrom_append 0 ds
  rw [allFrom_eq_ok_iff.mpr h'] at hall
  exact allFrom_eq_ok_iff.mp hall

/-- A text is cut before and behind each of its pieces. -/
theorem Cuts.exists_split {before behind : List Piece}
    (h : Cuts pos cs (before ++ piece :: behind)) :
    ∃ front rest, cs = front ++ (piece.text ++ rest) ∧ Cuts pos front before ∧
      piece.start = pos + Text.byteLength front ∧ Shape piece.kind piece.text ∧
      Cuts piece.stop rest behind := by
  generalize hpieces : before ++ piece :: behind = pieces at h
  induction h generalizing before with
  | nil => cases before <;> cases hpieces
  | @blank pos c cs pieces hc _ ih =>
      obtain ⟨front, rest, rfl, hfront, hstart, hsplit⟩ := ih hpieces
      refine ⟨c :: front, rest, rfl, .blank hc hfront, ?_, hsplit⟩
      rw [hstart, Text.byteLength_cons, Nat.add_assoc]
  | @piece first cs pieces hshape hcuts ih =>
      cases before with
      | nil =>
          obtain ⟨rfl, rfl⟩ := List.cons.inj hpieces
          exact ⟨[], cs, rfl, .nil, rfl, hshape, hcuts⟩
      | cons first' before =>
          obtain ⟨rfl, htail⟩ := List.cons.inj hpieces
          obtain ⟨front, rest, rfl, hfront, hstart, hsplit⟩ := ih htail
          refine ⟨first'.text ++ front, rest, by rw [List.append_assoc], .piece hshape hfront, ?_,
            hsplit⟩
          rw [hstart, stop, Text.byteLength_append, Nat.add_assoc]

/-! ## Moved texts -/

/-- The same piece in a text that starts so much later. -/
def shift (n : Nat) (piece : Piece) : Piece := { piece with start := piece.start + n }

theorem stop_shift (n : Nat) (piece : Piece) : (piece.shift n).stop = piece.stop + n := by
  simp only [shift, stop]
  omega

theorem Cuts.shift (h : Cuts pos cs pieces) (n : Nat) :
    Cuts (pos + n) cs (pieces.map (Piece.shift n)) := by
  induction h with
  | nil => exact .nil
  | blank hc _ ih => exact .blank hc (Nat.add_right_comm _ _ _ ▸ ih)
  | @piece piece rest pieces hshape _ ih =>
      exact @Cuts.piece (piece.shift n) _ _ hshape (stop_shift n piece ▸ ih)

/-! ## Pieces by themselves -/

theorem Cuts.shape (h : Cuts pos cs pieces) : ∀ piece ∈ pieces, Shape piece.kind piece.text := by
  induction h with
  | nil => simp
  | blank _ _ ih => exact ih
  | piece hshape _ ih => exact List.forall_mem_cons.mpr ⟨hshape, ih⟩

/-- Delimiters match in a text if they match in every piece of it. -/
theorem Cuts.isBalanced {classify : Char → Delimiter}
    (hblank : ∀ c, Text.isAsciiBlank c = true → classify c = other) (h : Cuts pos cs pieces)
    (hpieces : ∀ piece ∈ pieces, IsBalanced classify piece.text) : IsBalanced classify cs := by
  induction h with
  | nil => exact .nil
  | blank hc _ ih => exact (IsBalanced.cons_other (hblank _ hc)).mpr (ih hpieces)
  | piece _ _ ih =>
      obtain ⟨hpiece, hrest⟩ := List.forall_mem_cons.mp hpieces
      exact hpiece.append (ih hrest)

/-- Brackets match in a text if they match in every piece of it. -/
theorem Cuts.isNested (h : Cuts pos cs pieces) (hpieces : ∀ piece ∈ pieces, IsNested piece.text) :
    IsNested cs := by
  have hblank : ∀ {first last : Char}, Text.isAsciiBlank first = false →
      Text.isAsciiBlank last = false → ∀ c, Text.isAsciiBlank c = true →
      between first last c = other := fun hfirst hlast _ => between_eq_other_of hfirst hlast
  exact ⟨h.isBalanced (hblank rfl rfl) fun piece hpiece => (hpieces piece hpiece).1,
    h.isBalanced (hblank rfl rfl) fun piece hpiece => (hpieces piece hpiece).2⟩

/-- A source is cut into pieces once it is stripped. -/
def Segments (source text : List Char) (pieces : List Piece) : Prop :=
  ∃ s, Stripped.ofSource source = .ok s ∧ s.text = text ∧ all text = .ok pieces

theorem Segments.cuts {source text : List Char} (h : Segments source text pieces) :
    Cuts 0 text pieces := by
  obtain ⟨-, -, -, hall⟩ := h
  exact (all_eq_ok_iff.mp hall).1

theorem Segments.unique {source text text' : List Char} {pieces' : List Piece}
    (h : Segments source text pieces) (h' : Segments source text' pieces') :
    text = text' ∧ pieces = pieces' := by
  obtain ⟨s, hs, rfl, hall⟩ := h
  obtain ⟨s', hs', rfl, hall'⟩ := h'
  obtain rfl : s = s' := Except.ok.inj (hs.symm.trans hs')
  exact ⟨rfl, Except.ok.inj (hall.symm.trans hall')⟩

end Piece

/-! ## Scripts -/

theorem checkNesting_eq_ok_iff {text : List Char} {u : Unit} :
    checkNesting text = .ok u ↔ IsNested text := by
  rw [IsNested, ← imbalance?_eq_none_iff, ← imbalance?_eq_none_iff, checkNesting]
  cases imbalance? parenthesis text with
  | some i => simp
  | none => cases imbalance? brace text <;> simp

theorem Piece.ofText_eq_ok_iff {text : List Char} {pieces : List Piece} :
    ofText text = .ok pieces ↔ IsNested text ∧ all text = .ok pieces := by
  rw [← @checkNesting_eq_ok_iff text (), ofText]
  cases checkNesting text with
  | error d => simp [bind, Except.bind]
  | ok u => simp [bind, Except.bind]

namespace Context

variable {ctx ctx' : Context} {source : List Char} {c : Compilation}

theorem piecesOf_eq_ok_iff {s : Stripped} {pieces : List Piece} :
    piecesOf source = .ok (s, pieces) ↔
      Stripped.ofSource source = .ok s ∧ Piece.ofText s.text = .ok pieces := by
  rw [piecesOf]
  cases Stripped.ofSource source with
  | error d => simp [bind, Except.bind]
  | ok found =>
      have hofText : (do checkNesting found.text; Piece.all found.text) =
          Piece.ofText found.text := rfl
      simp only [bind, Except.bind, pure, Except.pure] at hofText ⊢
      rw [hofText]
      cases hpieces : Piece.ofText found.text with
      | error d =>
          simp only [Except.mapError, reduceCtorEq, Except.ok.injEq, false_iff, not_and]
          rintro rfl
          simp [hpieces]
      | ok pieces' =>
          simp only [Except.mapError, Except.ok.injEq, Prod.mk.injEq, and_congr_right_iff]
          rintro rfl
          simp [hpieces]

/-- A script compiles when it is cut into pieces, the brackets in its text match, and the pieces
compile one behind the other. -/
theorem compile_eq_ok_iff :
    ctx.compile source = (.ok c, ctx') ↔ ∃ text pieces, Piece.Segments source text pieces ∧
      IsNested text ∧ ctx.reset.compilePieces pieces = (.ok (), ctx') ∧
      c = ctx'.compilation := by
  constructor
  · intro hok
    unfold compile at hok
    split at hok
    · cases hok
    · rename_i s pieces hpieces
      obtain ⟨hs, htext⟩ := piecesOf_eq_ok_iff.mp hpieces
      obtain ⟨hnested, hall⟩ := Piece.ofText_eq_ok_iff.mp htext
      split at hok
      · cases hok
      · rename_i hcompile
        cases hok
        exact ⟨s.text, pieces, ⟨s, hs, rfl, hall⟩, hnested, hcompile, rfl⟩
  · rintro ⟨_, pieces, ⟨s, hs, rfl, hall⟩, hnested, hcompile, rfl⟩
    have htext := Piece.ofText_eq_ok_iff.mpr ⟨hnested, hall⟩
    simp only [compile, piecesOf_eq_ok_iff.mpr ⟨hs, htext⟩, hcompile]

end Context

end StackScript
