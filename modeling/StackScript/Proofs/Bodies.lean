import StackScript.Proofs.Emission
import StackScript.Proofs.Segmentation

/-! # Bodies of functions

The body of a function is skipped and never compiled. Another text between its brackets moves what
is behind it and changes nothing else. -/

namespace StackScript

open Delimiter

/-! ## Sources without comments -/

namespace Text

/-- No comment is opened in the text. -/
def CommentFree (cs : List Char) : Prop := ¬ ['/', '/'] <:+: cs ∧ ¬ ['/', '*'] <:+: cs

/-- Neighbours that do not open a comment. -/
def OpensNone (c d : Char) : Prop := ¬ (c = '/' ∧ (d = '/' ∨ d = '*'))

theorem commentFree_iff_isChain {cs : List Char} : CommentFree cs ↔ cs.IsChain OpensNone := by
  constructor
  · intro h
    refine (List.isChain_isInfix cs).imp ?_
    rintro c d hinfix ⟨rfl, rfl | rfl⟩
    · exact h.1 hinfix
    · exact h.2 hinfix
  · intro h
    have hpair : ∀ d, ['/', d] <:+: cs → OpensNone '/' d := by
      rintro d ⟨xs, ys, rfl⟩
      exact List.isChain_pair.mp h.left_of_append.right_of_append
    exact ⟨fun hinfix => hpair '/' hinfix ⟨rfl, .inl rfl⟩,
      fun hinfix => hpair '*' hinfix ⟨rfl, .inr rfl⟩⟩

/-- Between curly brackets, a text may be replaced by another one without comments. -/
theorem CommentFree.replace {before inner inner' behind : List Char}
    (h : CommentFree (before ++ ['\x7b'] ++ (inner ++ '\x7d' :: behind)))
    (h' : CommentFree inner') :
    CommentFree (before ++ ['\x7b'] ++ (inner' ++ '\x7d' :: behind)) := by
  rw [commentFree_iff_isChain] at h h' ⊢
  refine h.left_of_append.append (h'.append h.right_of_append.right_of_append ?_) ?_
  · rintro c - d hd ⟨-, hmark⟩
    cases hd
    revert hmark
    decide
  · rintro c hc d - ⟨rfl, -⟩
    simp at hc

/-- A line break becomes a space. -/
def unbroken (c : Char) : Char := if c = '\n' ∨ c = '\r' then ' ' else c

theorem unbroken_cases (c : Char) : isAsciiBlank c = true ∧ unbroken c = ' ' ∨ unbroken c = c := by
  unfold unbroken
  split
  · rename_i hbreak
    rcases hbreak with rfl | rfl
    · exact .inl ⟨rfl, rfl⟩
    · exact .inl ⟨rfl, rfl⟩
  · exact .inr rfl

theorem utf8Size_unbroken (c : Char) : (unbroken c).utf8Size = c.utf8Size := by
  unfold unbroken
  split
  · rename_i hbreak
    rcases hbreak with rfl | rfl <;> rfl
  · rfl

@[simp] theorem byteLength_map_unbroken (cs : List Char) :
    byteLength (cs.map unbroken) = byteLength cs := by
  induction cs with
  | nil => rfl
  | cons c cs ih => rw [List.map_cons, byteLength_cons, byteLength_cons, utf8Size_unbroken, ih]

/-- A character that is not blank was there before. -/
theorem eq_of_unbroken_eq {c d : Char} (h : unbroken c = d) (hd : isAsciiBlank d = false) :
    c = d := by
  rcases unbroken_cases c with ⟨-, hspace⟩ | hself
  · rw [← h, hspace] at hd
    cases hd
  · rw [← h, hself]

theorem isBalanced_map_unbroken {first last : Char} (hfirst : isAsciiBlank first = false)
    (hlast : isAsciiBlank last = false) {cs : List Char} :
    IsBalanced (between first last) (cs.map unbroken) ↔ IsBalanced (between first last) cs := by
  have hclass : ∀ c, between first last (unbroken c) = between first last c := by
    intro c
    rcases unbroken_cases c with ⟨hblank, hspace⟩ | hself
    · rw [hspace, between_eq_other_of hfirst hlast hblank, between_eq_other_of hfirst hlast rfl]
    · rw [hself]
  rw [IsBalanced, depthAfter_map hclass, IsBalanced]

/-- The brackets that stand in the text without line breaks stand in the text. -/
theorem exists_enclosed {before inner behind front inner' rest : List Char}
    (h : (before ++ (inner ++ behind)).map unbroken =
      front ++ ['\x7b'] ++ (inner' ++ '\x7d' :: rest))
    (hbefore : byteLength before = byteLength front + 1)
    (hinner : byteLength inner = byteLength inner') :
    ∃ before' behind', before = before' ++ ['\x7b'] ∧ behind = '\x7d' :: behind' ∧
      before'.map unbroken = front ∧ inner.map unbroken = inner' ∧
      behind'.map unbroken = rest := by
  rw [List.map_append, List.map_append] at h
  obtain ⟨hfront, h⟩ := append_inj_of_byteLength h (by simp [hbefore, Char.utf8Size])
  obtain ⟨rfl, hrest⟩ := append_inj_of_byteLength h (by simp [hinner])
  obtain ⟨before', last, rfl, rfl, hlast⟩ := List.map_eq_append_iff.mp hfront
  obtain ⟨c, rfl, hc⟩ := List.map_eq_singleton_iff.mp hlast
  obtain ⟨d, behind', rfl, hd, rfl⟩ := List.map_eq_cons_iff.mp hrest
  obtain rfl := eq_of_unbroken_eq hc rfl
  obtain rfl := eq_of_unbroken_eq hd rfl
  exact ⟨before', behind', rfl, rfl, rfl, rfl, rfl⟩

end Text

theorem Placed.char_unbroken (p : Placed) : p.unbroken.char = Text.unbroken p.char := by
  unfold Placed.unbroken Text.unbroken
  split <;> rfl

/-- What is left of a source without comments. -/
theorem Stripped.exists_ofSource_of_commentFree {source : List Char}
    (h : Text.CommentFree source) :
    ∃ s, ofSource source = .ok s ∧ s.text = source.map Text.unbroken := by
  have hchain : (Placed.ofText 0 source).IsChain fun p q => Text.OpensNone p.char q.char := by
    rw [← List.isChain_map Placed.char, Placed.map_char_ofText]
    exact Text.commentFree_iff_isChain.mp h
  refine ⟨⟨(Placed.ofText 0 source).map Placed.unbroken, Text.byteLength source⟩, ?_, ?_⟩
  · rw [ofSource, Placed.blankBlockComments_dropLineComments hchain]
  · have hchars : Placed.char ∘ Placed.unbroken = Text.unbroken ∘ Placed.char :=
      funext Placed.char_unbroken
    rw [text, List.map_map, hchars, ← List.map_map, Placed.map_char_ofText]

/-! ## Pieces that compile alike -/

/-- Both pieces compile to the same, whatever was compiled before them. -/
def Piece.CompilesAs (piece piece' : Piece) : Prop :=
  ∀ ctx : Context,
    ctx.compilePiece piece.kind piece.text = ctx.compilePiece piece'.kind piece'.text

/-- The brackets of a function enclose its body. -/
theorem Body.locate_function {header inner : List Char}
    (hheader : ∀ c ∈ header, Piece.isHeaderChar c = true) (hinner : IsBalanced brace inner) :
    locate (header ++ '\x7b' :: (inner ++ ['\x7d'])) = .ok ⟨header, inner⟩ := by
  have htake : (header ++ '\x7b' :: (inner ++ ['\x7d'])).takeWhile (· != '\x7b') = header :=
    Text.takeWhile_append_cons
      (fun c hc => ((Bool.and_eq_true _ _).mp (hheader c hc)).1) rfl
  have hclose : findClose brace (inner ++ ['\x7d']) = some inner.length :=
    (findCloseFrom_eq_some_iff 0 _ _).mpr
      ⟨inner, '\x7d', [], rfl, rfl, Piece.brace_eq_closing.mpr rfl, hinner⟩
  simp [locate, htake, hclose]

namespace Piece

variable {pos start start' : Nat} {cs header inner inner' : List Char} {pieces : List Piece}

/-- A function is compiled by its header alone. -/
theorem compilesAs_function (hheader : ∀ c ∈ header, isHeaderChar c = true)
    (hinner : IsBalanced brace inner) (hinner' : IsBalanced brace inner') :
    CompilesAs ⟨.function, start, header ++ '\x7b' :: (inner ++ ['\x7d'])⟩
      ⟨.function, start', header ++ '\x7b' :: (inner' ++ ['\x7d'])⟩ := by
  intro ctx
  simp only [Context.compilePiece, Signature.ofText, Body.locate_function hheader hinner,
    Body.locate_function hheader hinner']
  rfl

/-- A text is cut into the same pieces wherever it starts. -/
theorem Cuts.exists_moved (h : Cuts pos cs pieces) (pos' : Nat) :
    ∃ pieces', Cuts pos' cs pieces' ∧ List.Forall₂ CompilesAs pieces pieces' := by
  induction h generalizing pos' with
  | nil => exact ⟨[], .nil, .nil⟩
  | @blank pos c cs pieces hc _ ih =>
      obtain ⟨pieces', hcuts, hpieces⟩ := ih (pos' + c.utf8Size)
      exact ⟨pieces', .blank hc hcuts, hpieces⟩
  | @piece piece rest pieces hshape _ ih =>
      obtain ⟨pieces', hcuts, hpieces⟩ := ih (pos' + Text.byteLength piece.text)
      exact ⟨⟨piece.kind, pos', piece.text⟩ :: pieces', @Cuts.piece ⟨_, _, _⟩ _ _ hshape hcuts,
        .cons (fun _ => rfl) hpieces⟩

end Piece

namespace Context

/-- A result without the place of its diagnostic, and the context that is left. -/
def unplaced {α : Type} (r : Except Diagnostic α × Context) : Except Cause α × Context :=
  (r.1.mapError Diagnostic.cause, r.2)

theorem unplaced_compilePieces {pieces pieces' : List Piece}
    (h : List.Forall₂ Piece.CompilesAs pieces pieces') (ctx : Context) :
    unplaced (ctx.compilePieces pieces) = unplaced (ctx.compilePieces pieces') := by
  induction h generalizing ctx with
  | nil => rfl
  | cons hpiece _ ih =>
      simp only [compilePieces, hpiece ctx]
      split
      · rfl
      · exact ih _

variable {text text' : List Char}

/-- Texts with the same kinds of brackets amiss are refused for the same cause. -/
theorem cause_checkNesting
    (hparens : IsBalanced parenthesis text ↔ IsBalanced parenthesis text')
    (hbraces : IsBalanced brace text ↔ IsBalanced brace text') :
    (checkNesting text).mapError Diagnostic.cause =
      (checkNesting text').mapError Diagnostic.cause := by
  simp only [← imbalance?_eq_none_iff] at hparens hbraces
  by_cases hp : imbalance? parenthesis text = none
  · rw [checkNesting, checkNesting, hp, hparens.mp hp]
    by_cases hb : imbalance? brace text = none
    · rw [hb, hbraces.mp hb]
    · obtain ⟨i, hi⟩ := Option.ne_none_iff_exists'.mp hb
      obtain ⟨i', hi'⟩ := Option.ne_none_iff_exists'.mp (mt hbraces.mpr hb)
      rw [hi, hi']
      rfl
  · obtain ⟨i, hi⟩ := Option.ne_none_iff_exists'.mp hp
    obtain ⟨i', hi'⟩ := Option.ne_none_iff_exists'.mp (mt hparens.mpr hp)
    rw [checkNesting, checkNesting, hi, hi']
    rfl

theorem cause_checkNesting_replace (front rest : List Char) {inner inner' : List Char}
    (h : IsNested inner) (h' : IsNested inner') :
    (checkNesting (front ++ (inner ++ rest))).mapError Diagnostic.cause =
      (checkNesting (front ++ (inner' ++ rest))).mapError Diagnostic.cause :=
  cause_checkNesting (h.1.append_middle_iff.trans h'.1.append_middle_iff.symm)
    (h.2.append_middle_iff.trans h'.2.append_middle_iff.symm)

/-- A text that is cut into pieces is refused for its brackets, or its pieces are compiled. -/
theorem unplaced_compileText {pieces : List Piece} (hall : Piece.all text = .ok pieces)
    (ctx : Context) :
    unplaced (ctx.compileText text) =
      match (checkNesting text).mapError Diagnostic.cause with
      | .error cause => (.error cause, ctx.reset)
      | .ok _ =>
          let r := unplaced (ctx.reset.compilePieces pieces)
          (r.1.map fun _ => r.2.compilation, r.2) := by
  simp only [compileText, Piece.ofText, hall]
  cases checkNesting text with
  | error d => rfl
  | ok u =>
      simp only [bind, Except.bind, Except.mapError]
      rcases ctx.reset.compilePieces pieces with ⟨d | u, next⟩ <;> rfl

theorem unplaced_compile (ctx : Context) {source : List Char} {s : Stripped}
    (h : Stripped.ofSource source = .ok s) :
    unplaced (ctx.compile source) = unplaced (ctx.compileText s.text) := by
  rw [ctx.compile_eq_compileText h, unplaced, unplaced]
  cases (ctx.compileText s.text).1 <;> rfl

end Context

/-! ## Other bodies -/

/-- The text of a function's body may be replaced by any other in which curly brackets match. -/
theorem Piece.Cuts.exists_replaced {text : List Char} {pieces : List Piece} {piece : Piece}
    {body : Body} (h : Cuts 0 text pieces) (hpiece : piece ∈ pieces)
    (hkind : piece.kind = .function) (hbody : Body.locate piece.text = .ok body) :
    ∃ front rest, text = front ++ ['\x7b'] ++ (body.inner ++ '\x7d' :: rest) ∧
      Text.byteLength front = piece.start + body.start ∧ IsBalanced brace body.inner ∧
      ∀ inner, IsBalanced brace inner →
        ∃ pieces', Cuts 0 (front ++ ['\x7b'] ++ (inner ++ '\x7d' :: rest)) pieces' ∧
          List.Forall₂ CompilesAs pieces pieces' := by
  obtain ⟨before, behind, rfl⟩ := List.append_of_mem hpiece
  obtain ⟨front, rest, rfl, hfront, hstart, hshape, hrest⟩ := h.exists_split
  obtain ⟨kind, start, text⟩ := piece
  simp only at hkind hbody hstart hshape
  subst hkind
  cases hshape with
  | @function name inner hname hinner =>
      have hheader := isHeaderChar_of_mark_append hname
      rw [Body.locate_function hheader hinner] at hbody
      cases hbody
      refine ⟨front ++ (functionMark ++ name), rest, by simp, ?_, hinner, ?_⟩
      · rw [Text.byteLength_append, hstart, Nat.zero_add]
        rfl
      · intro inner' hinner'
        obtain ⟨moved, hmoved, hbehind⟩ := hrest.exists_moved
          (stop ⟨.function, start, functionMark ++ name ++ '\x7b' :: (inner' ++ ['\x7d'])⟩)
        have hcuts := hfront.append (hstart ▸ Cuts.piece (.function hname hinner') hmoved)
        refine ⟨_, by simpa using hcuts, List.rel_append ?_ (.cons ?_ hbehind)⟩
        · exact List.forall₂_same.mpr fun _ _ _ => rfl
        · exact compilesAs_function hheader hinner hinner'

/-- In stripped text, a body in which brackets match may be replaced by any other one. -/
theorem Context.unplaced_compileText_replace {text : List Char} {pieces : List Piece}
    {piece : Piece} {body : Body} (hall : Piece.all text = .ok pieces) (hpiece : piece ∈ pieces)
    (hkind : piece.kind = .function) (hbody : Body.locate piece.text = .ok body) :
    ∃ front rest, text = front ++ ['\x7b'] ++ (body.inner ++ '\x7d' :: rest) ∧
      Text.byteLength front = piece.start + body.start ∧
      (IsBalanced parenthesis body.inner → ∀ inner, IsNested inner → ∀ ctx : Context,
        unplaced (ctx.compileText text) =
          unplaced (ctx.compileText (front ++ ['\x7b'] ++ (inner ++ '\x7d' :: rest)))) := by
  obtain ⟨hcuts, hne⟩ := Piece.all_eq_ok_iff.mp hall
  obtain ⟨front, rest, rfl, hfront, hbraces, hreplace⟩ :=
    hcuts.exists_replaced hpiece hkind hbody
  refine ⟨front, rest, rfl, hfront, ?_⟩
  intro hparens inner hinner ctx
  obtain ⟨pieces', hcuts', hpieces⟩ := hreplace inner hinner.2
  have hne' : pieces' ≠ [] := by
    rintro rfl
    exact hne (List.forall₂_nil_right_iff.mp hpieces)
  have hcause :=
    cause_checkNesting_replace (front ++ ['\x7b']) ('\x7d' :: rest) ⟨hparens, hbraces⟩ hinner
  rw [unplaced_compileText hall, unplaced_compileText (Piece.all_eq_ok_iff.mpr ⟨hcuts', hne'⟩),
    hcause, unplaced_compilePieces hpieces]

/-- A source is cut into pieces. One of them is a function, and the text `inner` is what its
brackets enclose. -/
def IsBody (before inner behind : List Char) : Prop :=
  ∃ text pieces, Piece.Segments (before ++ (inner ++ behind)) text pieces ∧
    ∃ piece ∈ pieces, piece.kind = .function ∧ ∃ body, Body.locate piece.text = .ok body ∧
      Text.byteLength before = piece.start + body.start + 1 ∧
      Text.byteLength inner = Text.byteLength body.inner

/-- With another body, a script comes to the same compilation or is refused for the same cause. -/
theorem Context.compile_replace_body (ctx : Context) {before inner inner' behind : List Char}
    (hbody : IsBody before inner behind)
    (hfree : Text.CommentFree (before ++ (inner ++ behind)))
    (hparens : IsBalanced parenthesis inner) (hfree' : Text.CommentFree inner')
    (hnested : IsNested inner') :
    unplaced (ctx.compile (before ++ (inner ++ behind))) =
      unplaced (ctx.compile (before ++ (inner' ++ behind))) := by
  obtain ⟨text, pieces, ⟨s, hs, rfl, hall⟩, piece, hpiece, hkind, body, hlocate, hbefore, hinner⟩ :=
    hbody
  obtain ⟨front, rest, htext, hfront, hreplace⟩ :=
    unplaced_compileText_replace hall hpiece hkind hlocate
  obtain ⟨s₀, hs₀, htext₀⟩ := Stripped.exists_ofSource_of_commentFree hfree
  obtain rfl : s = s₀ := Except.ok.inj (hs.symm.trans hs₀)
  -- The body is found in the stripped text; its brackets are those of the source.
  obtain ⟨before, behind, rfl, rfl, rfl, hmap, rfl⟩ :=
    Text.exists_enclosed (htext₀.symm.trans htext) (by rw [hbefore, hfront]) hinner
  obtain ⟨s', hs', htext'⟩ := Stripped.exists_ofSource_of_commentFree (hfree.replace hfree')
  have hparens₀ : IsBalanced parenthesis body.inner :=
    hmap ▸ (Text.isBalanced_map_unbroken rfl rfl).mpr hparens
  have hnested' : IsNested (inner'.map Text.unbroken) :=
    hnested.imp (Text.isBalanced_map_unbroken rfl rfl).mpr
      (Text.isBalanced_map_unbroken rfl rfl).mpr
  rw [ctx.unplaced_compile hs, ctx.unplaced_compile hs', hreplace hparens₀ _ hnested', htext',
    List.map_append, List.map_append, List.map_append]
  rfl

/-- In the other body there are a semicolon, the mark of a function, curly brackets, a line break
between round ones and an unknown character. -/
theorem Context.compile_replace_body_unknownCharacter :
    ∃ before inner behind c ctx,
      before ++ (inner ++ behind) =
        "int32 a;\nfunc: f(int32 x) \x7b\n x;\x7d\nint32 b = a;".toList ∧
      inner = "\n x;".toList ∧ IsBody before inner behind ∧
      unplaced (Context.compile { registry := .builtins } (before ++ (inner ++ behind))) =
        (.ok c, ctx) ∧
      c.instrs = [.load 0, .store 1] ∧ c.functions = [⟨"f", [("x", .int32)], .void⟩] ∧
      unplaced (Context.compile { registry := .builtins }
        (before ++ ("\x7b;# func: (\n)\x7d é".toList ++ behind))) = (.ok c, ctx) := by
  have hsource : ∃ before inner behind,
      before ++ (inner ++ behind) =
        "int32 a;\nfunc: f(int32 x) \x7b\n x;\x7d\nint32 b = a;".toList ∧
      inner = "\n x;".toList ∧ IsBody before inner behind :=
    ⟨"int32 a;\nfunc: f(int32 x) \x7b".toList, "\n x;".toList, "\x7d\nint32 b = a;".toList,
      by decide +kernel, rfl, "int32 a; func: f(int32 x) \x7b  x;\x7d int32 b = a;".toList,
      [⟨.statement, 0, "int32 a;".toList⟩, ⟨.function, 9, "func: f(int32 x) \x7b  x;\x7d".toList⟩,
        ⟨.statement, 33, "int32 b = a;".toList⟩],
      ⟨_, rfl, by decide +kernel, toOption_eq_some_iff.mp (by decide +kernel)⟩, _,
      List.mem_cons_of_mem _ List.mem_cons_self, rfl, ⟨"func: f(int32 x) ".toList, "  x;".toList⟩,
      toOption_eq_some_iff.mp (by decide +kernel), by decide +kernel, by decide +kernel⟩
  obtain ⟨before, inner, behind, hsource, hinner, hbody⟩ := hsource
  have hfree : Text.CommentFree (before ++ (inner ++ behind)) := by
    rw [hsource]
    exact ⟨by decide +kernel, by decide +kernel⟩
  have hparens : IsBalanced parenthesis inner := by
    rw [hinner, IsBalanced]
    decide +kernel
  have hnested : IsNested "\x7b;# func: (\n)\x7d é".toList := by
    unfold IsNested IsBalanced
    decide +kernel
  have hsame := Context.compile_replace_body { registry := .builtins } hbody hfree hparens
    ⟨by decide +kernel, by decide +kernel⟩ hnested
  have hok : (Context.compile { registry := .builtins } (before ++ (inner ++ behind))).1.toOption.map
      (fun c => (c.instrs, c.functions)) =
        some ([.load 0, .store 1], [⟨"f", [("x", .int32)], .void⟩]) := by
    rw [hsource]
    decide +kernel
  obtain ⟨c, hc, hparts⟩ := Option.map_eq_some_iff.mp hok
  have hresult : unplaced (Context.compile { registry := .builtins }
      (before ++ (inner ++ behind))) = (.ok c, _) :=
    Prod.ext (mapError_eq_ok_iff.mpr (toOption_eq_some_iff.mp hc)) rfl
  obtain ⟨hinstrs, hfunctions⟩ := Prod.mk.inj hparts
  exact ⟨before, inner, behind, c, _, hsource, hinner, hbody, hresult, hinstrs, hfunctions,
    hsame.symm.trans hresult⟩

end StackScript
