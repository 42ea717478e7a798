import StackScript.Proofs.StatementDiagnostics
import StackScript.Proofs.StrippedScript

/-! # Diagnostics of a script

The offset of a diagnostic is counted in a piece of the stripped text, and is carried over first to
the stripped text and from there to the source. Comments that were stripped stand between words and
never inside of one, so that what the diagnostic names is found in the source as well. -/

namespace StackScript

/-! ## Pieces of the text -/

namespace Piece

variable {text cs : List Char} {lastPos start : Nat}

theorem failsIn_first : FailsIn text (first lastPos start cs) := by
  unfold first
  split
  · simp only [function]
    split
    · split
      · exact failsIn_ok _
      · exact failsIn_error (Cause.pointsInto_unmarked rfl rfl)
    · exact failsIn_error (Cause.pointsInto_unmarked rfl rfl)
  · simp only [statement]
    split
    · exact failsIn_error (Cause.pointsInto_unmarked rfl rfl)
    · exact failsIn_ok _

/-- The first piece of a text is the start of it. -/
theorem prefix_of_first {piece : Piece} (h : first lastPos start cs = .ok piece) :
    piece.start = start ∧ piece.text <+: cs := by
  unfold first at h
  split at h
  · simp only [function] at h
    split at h
    · split at h
      · cases h
        exact ⟨rfl, List.take_prefix _ _⟩
      · cases h
    · cases h
  · simp only [statement] at h
    split at h
    · cases h
    · cases h
      exact ⟨rfl, List.take_prefix _ _⟩

theorem failsIn_allFrom : FailsIn text (allFrom lastPos start cs) := by
  fun_induction allFrom lastPos start cs with
  | case1 => exact failsIn_ok []
  | case2 pos cs blanks c rest hcs d hfirst => exact failsIn_error (failsIn_first d hfirst)
  | case3 pos cs blanks c rest hcs piece hfirst _ _ ih =>
      intro d h
      exact ih d (map_eq_error_iff.mp h)

/-- The pieces that are cut from the end of a text stand in the text. -/
theorem standsAt_of_allFrom (before : List Char) {pieces : List Piece}
    (hstart : Text.byteLength before = start) (h : allFrom lastPos start cs = .ok pieces) :
    ∀ piece ∈ pieces, Text.StandsAt (before ++ cs) piece.text piece.start := by
  fun_induction allFrom lastPos start cs generalizing before pieces with
  | case1 =>
      cases h
      simp
  | case2 => cases h
  | case3 pos cs blanks c rest hcs piece hfirst =>
      rename_i ih
      obtain ⟨others, hothers, rfl⟩ := map_eq_ok_iff.mp h
      obtain ⟨hpos, behind, hbehind⟩ := prefix_of_first hfirst
      have hsplit : before ++ cs = (before ++ blanks) ++ (piece.text ++ behind) := by
        rw [hbehind, ← hcs, List.append_assoc, Text.takeWhile_append_drop]
      have hblanks : Text.byteLength (before ++ blanks) = piece.start := by
        rw [Text.byteLength_append, hstart, hpos]
      refine List.forall_mem_cons.mpr ⟨⟨before ++ blanks, behind, hsplit, hblanks⟩, ?_⟩
      have hdrop : (c :: rest).drop piece.text.length = behind := by
        rw [← hbehind, List.drop_left' rfl]
      have hstop : Text.byteLength ((before ++ blanks) ++ piece.text) = piece.stop := by
        rw [Text.byteLength_append, hblanks, Piece.stop]
      have hrest := ih _ hstop hothers
      rw [hdrop, List.append_assoc, ← hsplit] at hrest
      exact hrest

end Piece

theorem failsIn_checkNesting {text : List Char} : FailsIn text (checkNesting text) := by
  unfold checkNesting
  split
  · exact failsIn_error (Cause.pointsInto_unmarked rfl rfl)
  · split
    · exact failsIn_error (Cause.pointsInto_unmarked rfl rfl)
    · exact failsIn_ok ()

/-- The diagnostic points into the text, or says that there is nothing to compile; then it has no
offset. -/
def Diagnostic.Places (text : List Char) (d : Diagnostic) : Prop :=
  d = { cause := .sourceInvalid } ∨ d.PointsInto text

namespace Piece

variable {text : List Char}

theorem places_of_ofText {d : Diagnostic} (h : ofText text = .error d) : d.Places text := by
  unfold ofText at h
  cases hnesting : checkNesting text with
  | error d' =>
      rw [hnesting] at h
      cases h
      exact .inr (failsIn_checkNesting d hnesting)
  | ok u =>
      rw [hnesting] at h
      change all text = .error d at h
      unfold all at h
      split at h
      · cases h
        exact .inl rfl
      · exact .inr (failsIn_allFrom d h)

theorem standsAt_of_ofText {pieces : List Piece} (h : ofText text = .ok pieces) :
    ∀ piece ∈ pieces, Text.StandsAt text piece.text piece.start := by
  obtain ⟨-, -, hall⟩ := bind_eq_ok_iff.mp h
  unfold all at hall
  split at hall
  · cases hall
  · exact standsAt_of_allFrom [] rfl hall

end Piece

/-! ## Compiling the pieces -/

theorem TokensIn.dropTerminator {text : List Char} {tokens : List Token}
    (h : TokensIn text tokens) : TokensIn text (dropTerminator tokens) := by
  refine ⟨balanced_dropTerminator h.balanced, ?_⟩
  intro token htoken
  apply h.stand
  unfold StackScript.dropTerminator at htoken
  split at htoken
  · exact (List.dropLast_sublist _).subset htoken
  · exact htoken

namespace Context

variable {text : List Char} {ctx : Context}

theorem failsIn_compileTokens (hint : ctx.registry.isRegistered Ty.int32.name = true)
    {tokens : List Token} (h : TokensIn text tokens) :
    FailsIn text (ctx.compileTokens tokens).1 := by
  cases tokens with
  | nil => exact failsIn_ok ()
  | cons first rest =>
      have hemit := (Expression.standsIn_ofTokens h).points_emit hint ctx.symbols
      simp only [compileTokens, emit]
      generalize ((Expression.ofTokens (first :: rest)).emit ctx.registry).run ctx.symbols = e
        at hemit ⊢
      obtain ⟨d | value, table, code⟩ := e
      · exact failsIn_error (hemit d rfl)
      · simp only
        split
        · exact failsIn_ok ()
        · exact failsIn_error (Cause.pointsInto_unmarked rfl rfl)

theorem failsIn_compilePiece (hint : ctx.registry.isRegistered Ty.int32.name = true)
    (kind : PieceKind) (text : List Char) : FailsIn text (ctx.compilePiece kind text).1 := by
  cases kind with
  | function =>
      simp only [compilePiece]
      cases hsignature : Signature.ofText ctx.registry ctx.functions text with
      | error d => exact failsIn_error (Signature.failsIn_ofText _ _ text d hsignature)
      | ok signature => exact failsIn_ok ()
  | statement =>
      simp only [compilePiece]
      cases htokens : balancedTokens text with
      | error d => exact failsIn_error (failsIn_balancedTokens text d htokens)
      | ok tokens =>
          exact failsIn_compileTokens hint (tokensIn_of_balancedTokens htokens).dropTerminator

theorem registry_compileTokens (ctx : Context) (tokens : List Token) :
    (ctx.compileTokens tokens).2.registry = ctx.registry := by
  cases tokens with
  | nil => rfl
  | cons first rest =>
      simp only [compileTokens, emit]
      generalize ((Expression.ofTokens (first :: rest)).emit ctx.registry).run ctx.symbols = e
      obtain ⟨d | value, table, code⟩ := e
      · rfl
      · simp only
        split <;> rfl

theorem registry_compilePiece (ctx : Context) (kind : PieceKind) (text : List Char) :
    (ctx.compilePiece kind text).2.registry = ctx.registry := by
  cases kind with
  | function =>
      simp only [compilePiece]
      cases Signature.ofText ctx.registry ctx.functions text <;> rfl
  | statement =>
      simp only [compilePiece]
      cases balancedTokens text with
      | error d => rfl
      | ok tokens => exact ctx.registry_compileTokens (dropTerminator tokens)

theorem failsIn_compilePieces {pieces : List Piece}
    (hint : ctx.registry.isRegistered Ty.int32.name = true)
    (h : ∀ piece ∈ pieces, Text.StandsAt text piece.text piece.start) :
    FailsIn text (ctx.compilePieces pieces).1 := by
  induction pieces generalizing ctx with
  | nil => exact failsIn_ok ()
  | cons piece pieces ih =>
      obtain ⟨hpiece, hpieces⟩ := List.forall_mem_cons.mp h
      have hfails := failsIn_compilePiece hint piece.kind piece.text
      have hregistry := ctx.registry_compilePiece piece.kind piece.text
      rw [compilePieces]
      generalize ctx.compilePiece piece.kind piece.text = outcome at hfails hregistry ⊢
      obtain ⟨d | u, ctx'⟩ := outcome
      · exact failsIn_error ((hfails d rfl).mapPos hpiece)
      · exact ih (hregistry ▸ hint) hpieces

theorem places_of_compileText (hint : ctx.registry.isRegistered Ty.int32.name = true)
    {d : Diagnostic} (h : (ctx.compileText text).1 = .error d) : d.Places text := by
  unfold compileText at h
  cases hpieces : Piece.ofText text with
  | error d' =>
      rw [hpieces] at h
      cases h
      exact Piece.places_of_ofText hpieces
  | ok pieces =>
      rw [hpieces] at h
      have hfails : FailsIn text (ctx.reset.compilePieces pieces).1 :=
        failsIn_compilePieces hint (Piece.standsAt_of_ofText hpieces)
      simp only at h
      split at h
      · rename_i d' ctx' hcompile
        cases h
        exact .inr (hfails d (by rw [hcompile]))
      · cases h

end Context

/-! ## From the stripped text to the source -/

namespace Placed

variable {source : List Char}

theorem standsAt_append_of_mem_ofText {before cs : List Char} {p : Placed}
    (h : p ∈ ofText (Text.byteLength before) cs) :
    Text.StandsAt (before ++ cs) [p.char] p.origin := by
  induction cs generalizing before with
  | nil => cases h
  | cons c cs ih =>
      rcases List.mem_cons.mp h with rfl | h
      · exact ⟨before, cs, rfl, rfl⟩
      · have hlength : Text.byteLength before + c.utf8Size = Text.byteLength (before ++ [c]) := by
          simp
        rw [hlength] at h
        simpa using ih h

theorem standsAt_of_mem_ofText {p : Placed} (h : p ∈ ofText 0 source) :
    Text.StandsAt source [p.char] p.origin := by
  rw [← Text.byteLength_nil] at h
  exact standsAt_append_of_mem_ofText h

/-- Characters that follow each other in the source are a part of it. -/
theorem holdsAt_of_isChain {p : Placed} {ps : List Placed} (hchain : (p :: ps).IsChain Follows)
    (hmem : ∀ q ∈ p :: ps, q ∈ ofText 0 source) :
    Text.HoldsAt source ((p :: ps).map Placed.char) p.origin := by
  induction ps generalizing p with
  | nil => exact (standsAt_of_mem_ofText (hmem p List.mem_cons_self)).holdsAt
  | cons q ps ih =>
      obtain ⟨hp, hps⟩ := List.forall_mem_cons.mp hmem
      obtain ⟨hfollows, htail⟩ := List.isChain_cons_cons.mp hchain
      have hfirst := (standsAt_of_mem_ofText hp).holdsAt
      have hrest := ih htail hps
      rw [hfollows] at hrest
      exact hfirst.append hrest

end Placed

namespace Stripped

variable {source : List Char} {s : Stripped}

/-- The offset of a character in the text leads to the offset of it in the source. -/
theorem origin_byteLength {before behind : List Placed} {p : Placed}
    (h : s.placed = before ++ p :: behind) :
    s.origin (Text.byteLength (before.map Placed.char)) = p.origin := by
  have hlength : (before.flatMap Placed.byteOrigins).length =
      Text.byteLength (before.map Placed.char) := length_origins ⟨before, s.sourceLength⟩
  obtain ⟨k, hk⟩ := Nat.exists_eq_succ_of_ne_zero p.char.utf8Size_pos.ne'
  rw [origin, origins, h, List.flatMap_append, List.flatMap_cons, ← hlength,
    List.getElem?_append_right (Nat.le_refl _), Nat.sub_self, Placed.byteOrigins, hk,
    List.range_succ_eq_map]
  rfl

/-- A word of the text stands in the source, where its first character comes from. -/
theorem OfSource.holdsAt (h : OfSource source s) {word : List Char} {pos : Nat}
    (hword : Text.WordAt s.text word pos) : Text.HoldsAt source word (s.origin pos) := by
  obtain ⟨⟨before, behind, htext, rfl⟩, hsolid⟩ := hword
  obtain ⟨ps, rest, hplaced, rfl, hrest⟩ := List.map_eq_append_iff.mp htext
  obtain ⟨qs, rs, rfl, rfl, rfl⟩ := List.map_eq_append_iff.mp hrest
  cases qs with
  | nil => exact List.nil_prefix
  | cons q qs =>
      have hspace : ∀ r ∈ q :: qs, r.char ≠ ' ' := by
        intro r hr hchar
        exact hsolid (hchar ▸ List.mem_map_of_mem hr)
      have hrun : q :: qs <:+: s.placed := ⟨ps, rs, by rw [hplaced, List.append_assoc]⟩
      rw [origin_byteLength hplaced]
      apply Placed.holdsAt_of_isChain
      · -- Without a space between them, neighbours are neighbours in the source.
        have hbares := List.IsChain.infix h.isChain hrun
        refine hbares.imp_of_mem_imp fun p r hp hr hbare => ?_
        exact ((hbare.resolve_left (hspace p hp)).resolve_left (hspace r hr)).1
      · intro r hr
        exact (h.leftFrom r (hrun.subset hr)).kept.resolve_left (hspace r hr)

theorem OfSource.origin_le (h : OfSource source s) (pos : Nat) :
    s.origin pos ≤ Text.byteLength source := by
  rw [origin]
  cases hpos : s.origins[pos]? with
  | none => exact Nat.le_of_eq h.length_eq
  | some n =>
      obtain ⟨p, hp, hn⟩ := List.mem_flatMap.mp (List.mem_of_getElem? hpos)
      obtain ⟨i, hi, rfl⟩ := List.mem_map.mp hn
      have hleft := h.leftFrom p hp
      have hbound : ∀ {q : Placed}, q ∈ Placed.ofText 0 source →
          q.origin + q.char.utf8Size ≤ Text.byteLength source := by
        intro q hq
        simpa using (Placed.standsAt_of_mem_ofText hq).le
      rw [List.mem_range] at hi
      rcases hleft.kept with hspace | hmem
      · obtain ⟨q, hq, horigin⟩ := hleft.place
        have hq' := hbound hq
        have hone : p.char.utf8Size = 1 := by rw [hspace]; rfl
        simp only [Option.getD_some]
        omega
      · have hp' := hbound hmem
        simp only [Option.getD_some]
        omega

end Stripped

/-! ## Diagnostics in the source -/

/-- The diagnostic has an offset in the source, and the bytes there are those that its cause
names. -/
structure Diagnostic.LocatedIn (source : List Char) (d : Diagnostic) : Prop where
  hasPlace : d.cause.hasPlace = true
  place : ∃ pos, d.pos = some pos ∧ pos ≤ Text.byteLength source ∧
    ∀ mark ∈ d.cause.mark?, Text.HoldsAt source mark.toList pos

theorem Diagnostic.PointsInto.locatedIn {source : List Char} {s : Stripped} {d : Diagnostic}
    (h : d.PointsInto s.text) (hs : Stripped.OfSource source s) :
    (d.mapPos s.origin).LocatedIn source := by
  obtain ⟨hplace, pos, hpos, hmark⟩ := h
  refine ⟨hplace, s.origin pos, by simp [Diagnostic.mapPos, hpos], hs.origin_le pos, ?_⟩
  intro mark hmem
  exact hs.holdsAt (hmark mark hmem)

/-- A block comment that is never closed is reported where it starts. -/
theorem Stripped.locatedIn_of_ofSource_error {source : List Char} {d : Diagnostic}
    (h : ofSource source = .error d) :
    ∃ d' : Diagnostic, d = d'.withLine source ∧ d'.LocatedIn source := by
  unfold ofSource at h
  split at h
  · rename_i start hstart
    cases h
    obtain ⟨p, q, hrun, hslash, hstar, rfl⟩ :=
      (Placed.blankBlockComments_error hstart).resolve_left nofun
    have hmem : ∀ r ∈ [p, q], r ∈ Placed.ofText 0 source :=
      fun r hr => Placed.mem_of_mem_dropLineComments (hrun.subset hr)
    have hlines := Placed.isChain_dropLineComments false (Placed.isChain_ofText 0 source)
    have hunlined := List.IsChain.infix hlines hrun
    have hfollows : p.Follows q :=
      ((List.isChain_cons_cons.mp hunlined).1.resolve_left (by simp [hstar])).1
    have hplace := Placed.standsAt_of_mem_ofText (hmem p List.mem_cons_self)
    refine ⟨_, rfl, rfl, p.origin, rfl, ?_, ?_⟩
    · exact Nat.le_trans (Nat.le_add_right _ _) hplace.le
    · rintro mark ⟨⟩
      have hholds := Placed.holdsAt_of_isChain
        (List.isChain_cons_cons.mpr ⟨hfollows, .singleton q⟩) hmem
      simpa [hslash, hstar] using hholds
  · cases h

/-- A script fails because it is blank, or at a place in the source. -/
theorem Context.located_of_compile_error {ctx : Context} {source : List Char} {d : Diagnostic}
    (hint : ctx.registry.isRegistered Ty.int32.name = true)
    (h : (ctx.compile source).1 = .error d) :
    ∃ d' : Diagnostic, d = d'.withLine source ∧
      (d' = { cause := .sourceInvalid } ∨ d'.LocatedIn source) := by
  cases hsource : Stripped.ofSource source with
  | error e =>
      have hfailed : (ctx.compile source).1 = .error e := by
        simp [compile, piecesOf, hsource, bind, Except.bind]
      cases hfailed.symm.trans h
      obtain ⟨d', hd, hlocated⟩ := Stripped.locatedIn_of_ofSource_error hsource
      exact ⟨d', hd, .inr hlocated⟩
  | ok s =>
      rw [ctx.compile_eq_compileText hsource] at h
      cases hcompile : (ctx.compileText s.text).1 with
      | ok c =>
          rw [hcompile] at h
          cases h
      | error d' =>
          rw [hcompile] at h
          cases h
          refine ⟨d'.mapPos s.origin, rfl, ?_⟩
          rcases places_of_compileText hint hcompile with rfl | hpoints
          · exact .inl rfl
          · exact .inr (hpoints.locatedIn (Stripped.ofSource_of_eq_ok hsource))

/-- A diagnostic points at the fault in the source. Only a script in which there is nothing to
compile has no offset and no line; else the line is counted by the newlines before the offset, and
what the cause names stands in the source from the offset on. -/
theorem Context.compile_error_place (ctx : Context) {source : List Char} {d : Diagnostic}
    (hint : ctx.registry.isRegistered Ty.int32.name = true)
    (h : (ctx.compile source).1 = .error d) :
    (d.pos = none ↔ d.cause = .sourceInvalid) ∧ (d.line = none ↔ d.pos = none) ∧
      ∀ pos, d.pos = some pos → pos ≤ (Text.utf8 source).length ∧
        d.line = some (1 + ((Text.utf8 source).take pos).count 10) ∧
        ∀ mark ∈ d.cause.mark?, Text.utf8 mark.toList <+: (Text.utf8 source).drop pos := by
  obtain ⟨d', rfl, rfl | ⟨hplace, pos, hpos, hle, hmark⟩⟩ := located_of_compile_error hint h
  · simp [Diagnostic.withLine]
  · have hvalid : d'.cause ≠ .sourceInvalid := by
      intro hcause
      rw [hcause] at hplace
      cases hplace
    refine ⟨?_, ?_, ?_⟩
    · simp [Diagnostic.withLine, hpos, hvalid]
    · simp [Diagnostic.withLine, hpos]
    · intro pos' hpos'
      cases hpos.symm.trans hpos'
      refine ⟨by rwa [Text.length_utf8], ?_, hmark⟩
      simp only [Diagnostic.withLine, hpos, Option.map_some, Text.lineNumber_eq]

/-- The fault is on the third line, behind characters of two bytes, and a comment touches it. -/
theorem Context.compile_error_place_unknownType :
    ∃ d, (Context.compile { registry := .builtins }
        "/* é\n */int32 a;// ö\nfoo/**/b;".toList).1 = .error d ∧
      d.cause = .unknownType "foo" ∧ d.pos = some 23 ∧
      d.line = some (1 + ((Text.utf8 "/* é\n */int32 a;// ö\nfoo/**/b;".toList).take 23).count 10) ∧
      Text.utf8 "foo".toList <+: (Text.utf8 "/* é\n */int32 a;// ö\nfoo/**/b;".toList).drop 23 ∧
      d.line = some 3 := by
  have herror : (Context.compile { registry := .builtins }
      "/* é\n */int32 a;// ö\nfoo/**/b;".toList).1 =
        .error ⟨.unknownType "foo", some 23, some 3⟩ := by
    decide +kernel
  obtain ⟨-, -, hplace⟩ := Context.compile_error_place { registry := .builtins } (by decide) herror
  obtain ⟨-, hline, hmark⟩ := hplace 23 rfl
  exact ⟨_, herror, rfl, rfl, hline, hmark "foo" rfl, rfl⟩

end StackScript
