import StackScript.Proofs.BytecodeFormat
import StackScript.Proofs.Segmentation
import StackScript.Proofs.TypedCode

/-! # Scripts behind one another

No comment, no bracket and no piece goes across the newline between two scripts. What the first one
compiles to stands at the start of what both compile to. -/

namespace StackScript

/-! ## Comments up to a newline -/

namespace Placed

/-- A newline ends every line comment. -/
theorem dropLineComments_append (inside : Bool) (ps : List Placed) {p : Placed}
    (hp : p.char = '\n') (qs : List Placed) :
    dropLineComments inside (ps ++ p :: qs) =
      dropLineComments inside ps ++ p :: dropLineComments false qs := by
  induction ps generalizing inside with
  | nil => cases inside <;> simp [dropLineComments, hp]
  | cons q ps ih =>
      cases inside with
      | true =>
          rw [List.cons_append, dropLineComments, dropLineComments, ih, ih]
          split <;> rfl
      | false =>
          -- A slash right before the newline opens no comment.
          have hhead : (ps ++ p :: qs).head?.map Placed.char = some '/' ↔
              ps.head?.map Placed.char = some '/' := by
            cases ps <;> simp [hp]
          simp only [List.cons_append, dropLineComments, ih, hhead]
          split <;> rfl

theorem blankBlockComments_newline {p : Placed} (hp : p.char = '\n') (qs : List Placed) :
    blankBlockComments none (p :: qs) =
      (blankBlockComments none qs).map (⟨' ', p.origin⟩ :: ·) := by
  have hspace : p.unbroken = ⟨' ', p.origin⟩ := if_pos (.inl hp)
  cases qs with
  | nil => simp only [blankBlockComments, hspace, Except.map]
  | cons q qs => rw [blankBlockComments, if_neg (by simp [hp]), hspace]

/-- Where no block comment is open any more, a newline becomes a space and blanking starts over. -/
theorem blankBlockComments_append {opened : Option Nat} {ps out : List Placed}
    (h : blankBlockComments opened ps = .ok out) {p : Placed} (hp : p.char = '\n')
    (qs : List Placed) :
    blankBlockComments opened (ps ++ p :: qs) =
      (blankBlockComments none qs).map (out ++ ⟨' ', p.origin⟩ :: ·) := by
  have hmap : ∀ (q : Placed) (out : List Placed),
      ((blankBlockComments none qs).map (out ++ ⟨' ', p.origin⟩ :: ·)).map (q :: ·) =
        (blankBlockComments none qs).map (q :: out ++ ⟨' ', p.origin⟩ :: ·) := by
    intro q out
    cases blankBlockComments none qs <;> rfl
  fun_induction blankBlockComments opened ps generalizing out with
  | case1 =>
      cases h
      exact blankBlockComments_newline hp qs
  | case2 q =>
      cases h
      rw [List.singleton_append, blankBlockComments, if_neg (by simp [hp]),
        blankBlockComments_newline hp]
      exact hmap q.unbroken []
  | case3 q r rest hmark ih =>
      obtain ⟨out', hout', rfl⟩ := map_eq_ok_iff.mp h
      rw [List.cons_append, List.cons_append, blankBlockComments, if_pos hmark, ih hout', hmap]
  | case4 q r rest hmark ih =>
      obtain ⟨out', hout', rfl⟩ := map_eq_ok_iff.mp h
      have hrest := ih hout'
      rw [List.cons_append] at hrest
      rw [List.cons_append, List.cons_append, blankBlockComments, if_neg hmark, hrest, hmap]
  | case5 start q r rest hmark ih =>
      rw [List.cons_append, List.cons_append, blankBlockComments, if_pos hmark, ih h]
  | case6 start q r rest hmark ih =>
      have hrest := ih h
      rw [List.cons_append] at hrest
      rw [List.cons_append, List.cons_append, blankBlockComments, if_neg hmark, hrest]
  | case7 => cases h

/-! ## Moved sources -/

/-- The same character in a source that starts so much later. -/
def shift (n : Nat) (p : Placed) : Placed := { p with origin := p.origin + n }

@[simp] theorem char_shift (n : Nat) (p : Placed) : (p.shift n).char = p.char := rfl

@[simp] theorem map_char_shift (n : Nat) (ps : List Placed) :
    (ps.map (shift n)).map Placed.char = ps.map Placed.char := by
  rw [List.map_map]
  rfl

theorem unbroken_shift (n : Nat) (p : Placed) : (p.shift n).unbroken = p.unbroken.shift n := by
  by_cases h : p.char = '\n' ∨ p.char = '\r'
  · exact (if_pos h).trans (congrArg (shift n) (if_pos h : p.unbroken = _)).symm
  · exact (if_neg h).trans (congrArg (shift n) (if_neg h : p.unbroken = _)).symm

theorem ofText_append (pos : Nat) (cs ds : List Char) :
    ofText pos (cs ++ ds) = ofText pos cs ++ ofText (pos + Text.byteLength cs) ds := by
  induction cs generalizing pos with
  | nil => rfl
  | cons c cs ih =>
      rw [List.cons_append, ofText, ofText, ih, Text.byteLength_cons, Nat.add_assoc]
      rfl

theorem ofText_shift (n pos : Nat) (cs : List Char) :
    ofText (pos + n) cs = (ofText pos cs).map (shift n) := by
  induction cs generalizing pos with
  | nil => rfl
  | cons c cs ih =>
      rw [ofText, ofText, List.map_cons, ← ih, Nat.add_right_comm]
      rfl

theorem dropLineComments_shift (n : Nat) (inside : Bool) (ps : List Placed) :
    dropLineComments inside (ps.map (shift n)) = (dropLineComments inside ps).map (shift n) := by
  induction ps generalizing inside with
  | nil => cases inside <;> rfl
  | cons p ps ih =>
      have hhead : (ps.map (shift n)).head?.map Placed.char = ps.head?.map Placed.char := by
        cases ps <;> rfl
      cases inside with
      | true =>
          simp only [List.map_cons, dropLineComments, ih, char_shift]
          split <;> rfl
      | false =>
          simp only [List.map_cons, dropLineComments, ih, char_shift, hhead]
          split <;> rfl

theorem blankBlockComments_shift (n : Nat) {opened : Option Nat} {ps out : List Placed}
    (h : blankBlockComments opened ps = .ok out) :
    blankBlockComments (opened.map (· + n)) (ps.map (shift n)) = .ok (out.map (shift n)) := by
  fun_induction blankBlockComments opened ps generalizing out with
  | case1 =>
      cases h
      rfl
  | case2 p =>
      cases h
      simp only [List.map_cons, List.map_nil, Option.map_none, blankBlockComments, unbroken_shift]
  | case3 p q rest hmark ih =>
      obtain ⟨out', hout', rfl⟩ := map_eq_ok_iff.mp h
      rw [List.map_cons, List.map_cons, Option.map_none, blankBlockComments]
      exact (if_pos hmark).trans (map_eq_ok_iff.mpr ⟨_, ih hout', rfl⟩)
  | case4 p q rest hmark ih =>
      obtain ⟨out', hout', rfl⟩ := map_eq_ok_iff.mp h
      rw [List.map_cons, List.map_cons, Option.map_none, blankBlockComments, unbroken_shift]
      exact (if_neg hmark).trans (map_eq_ok_iff.mpr ⟨_, ih hout', rfl⟩)
  | case5 start p q rest hmark ih =>
      rw [List.map_cons, List.map_cons, Option.map_some, blankBlockComments]
      exact (if_pos hmark).trans (ih h)
  | case6 start p q rest hmark ih =>
      rw [List.map_cons, List.map_cons, Option.map_some, blankBlockComments]
      exact (if_neg hmark).trans (ih h)
  | case7 => cases h

end Placed

/-! ## Stripped texts -/

namespace Stripped

variable {source source' : List Char} {s s' : Stripped}

theorem ofSource_eq_ok_iff : ofSource source = .ok s ↔
    Placed.blankBlockComments none (Placed.dropLineComments false (Placed.ofText 0 source)) =
      .ok s.placed ∧ s.sourceLength = Text.byteLength source := by
  rw [ofSource]
  obtain ⟨placed, sourceLength⟩ := s
  cases Placed.blankBlockComments none _ with
  | error start => simp
  | ok found => simp [eq_comm]

/-- Behind a source that is stripped by itself, a newline is stripped to a space, and what follows
is stripped by itself too. -/
theorem blankBlockComments_append_newline (h : ofSource source = .ok s) (source' : List Char) :
    Placed.blankBlockComments none
        (Placed.dropLineComments false (Placed.ofText 0 (source ++ '\n' :: source'))) =
      (Placed.blankBlockComments none (Placed.dropLineComments false
        (Placed.ofText (0 + (Text.byteLength source + 1)) source'))).map
          (s.placed ++ ⟨' ', Text.byteLength source⟩ :: ·) := by
  rw [Placed.ofText_append, Placed.ofText, Placed.dropLineComments_append _ _ rfl,
    Placed.blankBlockComments_append (ofSource_eq_ok_iff.mp h).1 rfl]
  simp only [Nat.zero_add]
  rfl

/-- The stripped text of a source is the start of that of any longer one. -/
theorem exists_text_eq_append (h : ofSource source = .ok s)
    (h' : ofSource (source ++ '\n' :: source') = .ok s') :
    ∃ rest, s'.text = s.text ++ ' ' :: rest := by
  have hplaced := (ofSource_eq_ok_iff.mp h').1
  rw [blankBlockComments_append_newline h] at hplaced
  obtain ⟨rest, -, hrest⟩ := map_eq_ok_iff.mp hplaced
  refine ⟨rest.map Placed.char, ?_⟩
  rw [text, text, ← hrest, List.map_append, List.map_cons]

theorem exists_ofSource_append (h : ofSource source = .ok s) (h' : ofSource source' = .ok s') :
    ∃ t, ofSource (source ++ '\n' :: source') = .ok t ∧ t.text = s.text ++ ' ' :: s'.text := by
  have hshift := Placed.blankBlockComments_shift (Text.byteLength source + 1)
    (ofSource_eq_ok_iff.mp h').1
  rw [← Placed.dropLineComments_shift, ← Placed.ofText_shift, Option.map_none] at hshift
  refine ⟨⟨s.placed ++ ⟨' ', Text.byteLength source⟩ ::
    s'.placed.map (Placed.shift (Text.byteLength source + 1)), _⟩,
    ofSource_eq_ok_iff.mpr ⟨?_, rfl⟩, ?_⟩
  · rw [blankBlockComments_append_newline h, hshift]
    rfl
  · rw [text, List.map_append, List.map_cons, Placed.map_char_shift]
    rfl

end Stripped

/-! ## Pieces behind one another -/

namespace Piece

variable {text text' : List Char} {pieces pieces' : List Piece}

/-- Behind a text the pieces of another one are found as they are in that one. -/
theorem all_append (h : all text = .ok pieces) (h' : all text' = .ok pieces') :
    all (text ++ ' ' :: text') =
      .ok (pieces ++ pieces'.map (shift (Text.byteLength text + 1))) := by
  obtain ⟨hcuts, hne⟩ := all_eq_ok_iff.mp h
  obtain ⟨hcuts', -⟩ := all_eq_ok_iff.mp h'
  refine all_eq_ok_iff.mpr ⟨hcuts.append (.blank rfl ?_), by simp [hne]⟩
  have hshift := hcuts'.shift (Text.byteLength text + 1)
  rwa [Nat.zero_add] at hshift ⊢

theorem Segments.append {source source' : List Char} (h : Segments source text pieces)
    (h' : Segments source' text' pieces') :
    Segments (source ++ '\n' :: source') (text ++ ' ' :: text')
      (pieces ++ pieces'.map (shift (Text.byteLength text + 1))) := by
  obtain ⟨s, hs, rfl, hall⟩ := h
  obtain ⟨s', hs', rfl, hall'⟩ := h'
  obtain ⟨t, ht, htext⟩ := Stripped.exists_ofSource_append hs hs'
  exact ⟨t, ht, htext, all_append hall hall'⟩

theorem exists_eq_append_of_all (h : all text = .ok pieces) {rest : List Char}
    (h' : all (text ++ rest) = .ok pieces') : ∃ behind, pieces' = pieces ++ behind := by
  have hall := (all_eq_ok_iff.mp h).1.allFrom_append 0 rest
  rw [allFrom_eq_ok_iff.mpr (all_eq_ok_iff.mp h').1] at hall
  obtain ⟨behind, -, hbehind⟩ := map_eq_ok_iff.mp hall.symm
  exact ⟨behind, hbehind.symm⟩

end Piece

/-! ## Code behind code -/

/-- What a context holds is still there in a later one, at the start or in its slot. -/
structure Context.Grows (ctx ctx' : Context) : Prop where
  code : ctx.code <+: ctx'.code
  functions : ctx.functions <+: ctx'.functions
  symbols : ctx'.symbols.Extends ctx.symbols

namespace Context

variable {ctx ctx' : Context} {u : Unit}

theorem Grows.refl (ctx : Context) : ctx.Grows ctx :=
  ⟨List.prefix_rfl, List.prefix_rfl, fun _ _ hget => hget⟩

theorem Grows.trans {middle : Context} (h : ctx.Grows middle) (h' : middle.Grows ctx') :
    ctx.Grows ctx' :=
  ⟨h.code.trans h'.code, h.functions.trans h'.functions,
    fun _ _ hget => h'.symbols (h.symbols hget)⟩

/-- A piece that compiles is appended to what is there. -/
theorem grows_compilePiece (h : ctx.symbols.DeclaredFrom ctx.registry) {kind : PieceKind}
    {text : List Char} (hok : ctx.compilePiece kind text = (.ok u, ctx')) :
    ctx.Grows ctx' ∧ ctx'.symbols.DeclaredFrom ctx'.registry := by
  cases kind with
  | function =>
      simp only [compilePiece] at hok
      split at hok
      · cases hok
      · cases hok
        exact ⟨⟨List.prefix_rfl, List.prefix_append _ _, fun _ _ hget => hget⟩, h⟩
  | statement =>
      obtain ⟨-, -, ⟨-, rfl⟩ | ⟨st, -, hwell, -, rfl⟩⟩ := compilePiece_statement_cases h hok
      · exact ⟨.refl _, h⟩
      · exact ⟨⟨List.prefix_append _ _, List.prefix_rfl, hwell.extends_after h⟩,
          hwell.declaredFrom h⟩

theorem grows_compilePieces (h : ctx.symbols.DeclaredFrom ctx.registry) {pieces : List Piece}
    (hok : ctx.compilePieces pieces = (.ok u, ctx')) :
    ctx.Grows ctx' ∧ ctx'.symbols.DeclaredFrom ctx'.registry := by
  induction pieces generalizing ctx with
  | nil =>
      cases hok
      exact ⟨.refl _, h⟩
  | cons piece pieces ih =>
      obtain ⟨middle, hpiece, hrest⟩ := compilePieces_cons_eq_ok hok
      obtain ⟨hgrows, hdeclared⟩ := grows_compilePiece h hpiece
      obtain ⟨hgrows', hdeclared'⟩ := ih hdeclared hrest
      exact ⟨hgrows.trans hgrows', hdeclared'⟩

theorem compilePieces_append_eq_ok {pieces pieces' : List Piece}
    (hok : ctx.compilePieces (pieces ++ pieces') = (.ok u, ctx')) :
    ∃ middle, ctx.compilePieces pieces = (.ok (), middle) ∧
      middle.compilePieces pieces' = (.ok u, ctx') := by
  induction pieces generalizing ctx with
  | nil => exact ⟨ctx, rfl, hok⟩
  | cons piece pieces ih =>
      obtain ⟨next, hpiece, hrest⟩ := compilePieces_cons_eq_ok hok
      obtain ⟨middle, hpieces, hbehind⟩ := ih hrest
      refine ⟨middle, ?_, hbehind⟩
      simp only [compilePieces, hpiece, hpieces]

/-- Compiling two scripts in one goes through the context behind the first of them. -/
theorem grows_compile {source source' : List Char} {c c' : Compilation} {middle : Context}
    (hok : ctx.compile source = (.ok c, middle))
    (hok' : ctx.compile (source ++ '\n' :: source') = (.ok c', ctx')) :
    middle.Grows ctx' ∧ middle.symbols.DeclaredFrom middle.registry ∧
      ctx'.symbols.DeclaredFrom ctx'.registry := by
  obtain ⟨_, pieces, ⟨s, hs, rfl, hall⟩, -, hcompile, -⟩ := compile_eq_ok_iff.mp hok
  obtain ⟨_, pieces', ⟨s', hs', rfl, hall'⟩, -, hcompile', -⟩ := compile_eq_ok_iff.mp hok'
  obtain ⟨rest, htext⟩ := Stripped.exists_text_eq_append hs hs'
  rw [htext] at hall'
  obtain ⟨behind, rfl⟩ := Piece.exists_eq_append_of_all hall hall'
  obtain ⟨next, hnext, hbehind⟩ := compilePieces_append_eq_ok hcompile'
  obtain rfl : middle = next := by
    rw [hcompile] at hnext
    exact congrArg Prod.snd hnext
  have hdeclared := (grows_compilePieces .empty hcompile).2
  exact ⟨(grows_compilePieces hdeclared hbehind).1, hdeclared,
    (grows_compilePieces hdeclared hbehind).2⟩

end Context

theorem assemble_prefix {xs ys : List Instr} (h : xs <+: ys) : assemble xs <+: assemble ys := by
  obtain ⟨zs, rfl⟩ := h
  rw [assemble_append]
  exact List.prefix_append _ _

/-- A script that compiles keeps its pieces, its code, its functions and the slots of its variables
when another one is written below it. -/
theorem compile_newline_append (registry : Registry) (s s' : String) {c : Compilation}
    (h : compile registry s = .ok c) :
    (∃ text pieces, Piece.Segments s.toList text pieces ∧
      ∀ text' pieces', Piece.Segments s'.toList text' pieces' →
        Piece.Segments (s ++ "\n" ++ s').toList (text ++ ' ' :: text')
          (pieces ++ pieces'.map (Piece.shift (Text.byteLength text + 1)))) ∧
    ∀ c', compile registry (s ++ "\n" ++ s') = .ok c' →
      c.instrs <+: c'.instrs ∧ c.bytecode <+: c'.bytecode ∧ c.functions <+: c'.functions ∧
      ∀ slot symbol, (slot, symbol) ∈ c.symbols.live → (slot, symbol) ∈ c'.symbols.live := by
  have hsource : (s ++ "\n" ++ s').toList = s.toList ++ '\n' :: s'.toList := by simp
  have hok : Context.compile { registry } s.toList = (.ok c, _) := Prod.ext h rfl
  obtain ⟨text, pieces, hsegments, -, -, hc⟩ := Context.compile_eq_ok_iff.mp hok
  refine ⟨⟨text, pieces, hsegments, ?_⟩, ?_⟩
  · intro text' pieces' hsegments'
    exact hsource ▸ hsegments.append hsegments'
  · intro c' h'
    rw [compile, hsource] at h'
    have hok' : Context.compile { registry } (s.toList ++ '\n' :: s'.toList) = (.ok c', _) :=
      Prod.ext h' rfl
    obtain ⟨_, _, -, -, -, hc'⟩ := Context.compile_eq_ok_iff.mp hok'
    obtain ⟨hgrows, hdeclared, hdeclared'⟩ := Context.grows_compile hok hok'
    subst hc hc'
    refine ⟨hgrows.code, assemble_prefix hgrows.code, hgrows.functions, ?_⟩
    intro slot symbol hlive
    have hget := (SymbolTable.mem_live_iff hdeclared.wellFormed.bounded).mp hlive
    exact (SymbolTable.mem_live_iff hdeclared'.wellFormed.bounded).mpr (hgrows.symbols hget)

/-- The first script ends in a line comment that holds the start of a block comment. -/
theorem compile_newline_append_lineComment :
    ∃ c c', compile .builtins "func: f() \x7b\x7d int32 a = 1; // one /*" = .ok c ∧
      compile .builtins ("func: f() \x7b\x7d int32 a = 1; // one /*" ++ "\n" ++
        "func: g() \x7b\x7d float b = a;") = .ok c' ∧
      c.symbols.live = [(0, ⟨"a", .int32⟩)] ∧ (0, ⟨"a", .int32⟩) ∈ c'.symbols.live ∧
      c.instrs = [.constInt 1, .store 0] ∧ [.constInt 1, .store 0] <+: c'.instrs ∧
      c.functions.length = 1 ∧ c.functions <+: c'.functions ∧
      ∃ text pieces, Piece.Segments ("func: f() \x7b\x7d int32 a = 1; // one /*" ++ "\n" ++
          "func: g() \x7b\x7d float b = a;").toList
        (text ++ ' ' :: "func: g() \x7b\x7d float b = a;".toList)
        (pieces ++ [⟨.function, 0 + (Text.byteLength text + 1), "func: g() \x7b\x7d".toList⟩,
          ⟨.statement, 13 + (Text.byteLength text + 1), "float b = a;".toList⟩]) := by
  have hc : compile .builtins "func: f() \x7b\x7d int32 a = 1; // one /*" =
      .ok ((compile .builtins "func: f() \x7b\x7d int32 a = 1; // one /*").toOption.getD
        ⟨[], {}, []⟩) :=
    toOption_eq_some_iff.mp (by decide +kernel)
  have hc' : compile .builtins ("func: f() \x7b\x7d int32 a = 1; // one /*" ++ "\n" ++
      "func: g() \x7b\x7d float b = a;") =
      .ok ((compile .builtins ("func: f() \x7b\x7d int32 a = 1; // one /*" ++ "\n" ++
        "func: g() \x7b\x7d float b = a;")).toOption.getD ⟨[], {}, []⟩) :=
    toOption_eq_some_iff.mp (by decide +kernel)
  have hsegments' : Piece.Segments "func: g() \x7b\x7d float b = a;".toList
      "func: g() \x7b\x7d float b = a;".toList
      [⟨.function, 0, "func: g() \x7b\x7d".toList⟩, ⟨.statement, 13, "float b = a;".toList⟩] :=
    ⟨.ofPlain "func: g() \x7b\x7d float b = a;".toList,
      toOption_eq_some_iff.mp (by decide +kernel), Stripped.text_ofPlain _,
      toOption_eq_some_iff.mp (by decide +kernel)⟩
  obtain ⟨⟨text, pieces, -, hsegments⟩, hprefix⟩ :=
    compile_newline_append .builtins _ "func: g() \x7b\x7d float b = a;" hc
  obtain ⟨hinstrs, -, hfunctions, hlive⟩ := hprefix _ hc'
  have hcode : ((compile .builtins "func: f() \x7b\x7d int32 a = 1; // one /*").toOption.getD
      ⟨[], {}, []⟩).instrs = [.constInt 1, .store 0] := by decide +kernel
  refine ⟨_, _, hc, hc', by decide +kernel, hlive _ _ (by decide +kernel), hcode,
    hcode ▸ hinstrs, by decide +kernel, hfunctions, text, pieces, hsegments _ _ hsegments'⟩

end StackScript
