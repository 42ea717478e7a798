import StackScript.Proofs.Acceptance
import StackScript.Proofs.Lexing

/-! # Diagnostics that point at what they name

Many causes name a part of the text: a word, a character or an operator. Wherever such a cause is
reported, that part of the text stands at the offset of the report. Readers of tokens and
computations that emit code are followed step by step: the tokens that they meet stand in the text,
so the tokens that they complain about do as well. -/

namespace StackScript

open Delimiter

/-- The part of the text that a cause is reported at, if it names one. -/
def Cause.mark? : Cause → Option String
  | unknownType name | duplicateIdentifier name | undeclaredIdentifier name => some name
  | unexpectedToken text => some text
  | unknownCharacter char => some char.toString
  | missingLeftOperand op | illegalVoidOperand op | unsupportedOperand op _ => some op.symbol
  | unclosedBlockComment => some "/*"
  | _ => none

/-- Whether a cause has a place in the text. It has none where there is nothing to compile. -/
def Cause.hasPlace : Cause → Bool
  | sourceInvalid => false
  | _ => true

/-- The diagnostic has an offset, and what its cause names stands there. -/
structure Diagnostic.PointsInto (text : List Char) (d : Diagnostic) : Prop where
  hasPlace : d.cause.hasPlace = true
  place : ∃ pos, d.pos = some pos ∧ ∀ mark ∈ d.cause.mark?, Text.WordAt text mark.toList pos

section Places

variable {text inner : List Char} {cause : Cause} {pos start : Nat}

theorem Cause.pointsInto_marked {mark : String} (hmark : cause.mark? = some mark)
    (h : Text.WordAt text mark.toList pos) : (cause.at pos).PointsInto text := by
  refine ⟨?_, pos, rfl, ?_⟩
  · cases cause with
    | sourceInvalid => cases hmark
    | _ => rfl
  · intro mark' hmark'
    cases hmark.symm.trans hmark'
    exact h

theorem Cause.pointsInto_unmarked (hmark : cause.mark? = none) (hplace : cause.hasPlace = true) :
    (cause.at pos).PointsInto text := by
  refine ⟨hplace, pos, rfl, ?_⟩
  intro mark hmark'
  cases hmark.symm.trans hmark'

/-- An offset in a part of a text is carried over to the text. -/
theorem Diagnostic.PointsInto.mapPos {d : Diagnostic} (h : d.PointsInto inner)
    (hinner : Text.StandsAt text inner start) : (d.mapPos (· + start)).PointsInto text := by
  obtain ⟨hplace, pos, hpos, hmark⟩ := h
  refine ⟨hplace, pos + start, by simp [Diagnostic.mapPos, hpos], ?_⟩
  intro mark hmem
  exact (hmark mark hmem).trans hinner

theorem Diagnostic.PointsInto.of_start {d : Diagnostic} (h : d.PointsInto inner)
    (hinner : Text.StandsAt text inner 0) : d.PointsInto text := by
  simpa [Diagnostic.mapPos] using h.mapPos hinner

end Places

/-! ## Results -/

section Results

variable {text : List Char} {α β : Type}

/-- If there is no result, the diagnostic points into the text. -/
def FailsIn (text : List Char) (result : Except Diagnostic α) : Prop :=
  ∀ d, result = .error d → d.PointsInto text

theorem failsIn_ok (a : α) : FailsIn text (.ok a) := by
  intro d h
  cases h

theorem failsIn_error {d : Diagnostic} (h : d.PointsInto text) :
    FailsIn text (.error d : Except Diagnostic α) := by
  intro d' hd
  cases hd
  exact h

theorem FailsIn.bind {x : Except Diagnostic α} {f : α → Except Diagnostic β}
    (h : FailsIn text x) (hf : ∀ a, x = .ok a → FailsIn text (f a)) : FailsIn text (x >>= f) := by
  cases x with
  | error d => exact failsIn_error (h d rfl)
  | ok a => exact hf a rfl

end Results

/-! ## Readers -/

section Readers

variable {text : List Char} {α β : Type}

def Cursor.StandsIn (text : List Char) (cursor : Cursor) : Prop :=
  ∀ token ∈ cursor.rest, token.StandsIn text

theorem Cursor.StandsIn.accept? {cursor cursor' : Cursor} (h : cursor.StandsIn text) {kind : Kind}
    {token : Token} (haccept : cursor.accept? kind = some (token, cursor')) :
    cursor'.StandsIn text := by
  rw [StandsIn, Cursor.rest_of_accept? haccept] at h
  exact (List.forall_mem_cons.mp h).2

/-- Over tokens that stand in the text, the reader gives results with the property, or fails with a
diagnostic that points into the text. -/
def Reader.Points (text : List Char) (P : α → Prop) (reader : Reader α) : Prop :=
  ∀ cursor, cursor.StandsIn text →
    match reader.read cursor with
    | (.ok a, cursor') => P a ∧ cursor'.StandsIn text
    | (.error d, _) => d.PointsInto text

namespace Reader

variable {P : α → Prop} {Q : β → Prop}

theorem points_pure {a : α} (h : P a) : Points text P (pure a) :=
  fun _ hcursor => ⟨h, hcursor⟩

theorem points_fail {d : Diagnostic} (h : d.PointsInto text) : Points text P (fail d) :=
  fun _ _ => h

theorem Points.bind {reader : Reader α} {next : α → Reader β} (h : Points text P reader)
    (hnext : ∀ a, P a → Points text Q (next a)) : Points text Q (reader >>= next) := by
  intro cursor hcursor
  have hread := h cursor hcursor
  rw [read_bind]
  generalize reader.read cursor = outcome at hread ⊢
  obtain ⟨d | a, cursor'⟩ := outcome
  · exact hread
  · exact hnext a hread.1 cursor' hread.2

theorem Points.of_ok {reader : Reader α} {cursor cursor' : Cursor} {a : α}
    (h : Points text P reader) (hcursor : cursor.StandsIn text)
    (hread : reader.read cursor = (.ok a, cursor')) : P a ∧ cursor'.StandsIn text := by
  have hpoints := h cursor hcursor
  rwa [hread] at hpoints

theorem Points.of_error {reader : Reader α} {cursor cursor' : Cursor} {d : Diagnostic}
    (h : Points text P reader) (hcursor : cursor.StandsIn text)
    (hread : reader.read cursor = (.error d, cursor')) : d.PointsInto text := by
  have hpoints := h cursor hcursor
  rwa [hread] at hpoints

theorem points_here : Points text (Cursor.StandsIn text) here :=
  fun _ hcursor => ⟨hcursor, hcursor⟩

/-- Where the tokens end before the expected one, nothing is named. -/
theorem pointsInto_missing (kind : Kind) (pos : Nat) :
    ((TokenError.missing kind).at pos).PointsInto text := by
  apply Cause.pointsInto_unmarked
  · cases kind <;> rfl
  · cases kind <;> rfl

theorem points_token (kind : Kind) : Points text (Token.StandsIn text) (token kind) := by
  intro cursor hcursor
  simp only [token, Cursor.consume]
  obtain ⟨rest, endPos⟩ := cursor
  cases rest with
  | nil => exact pointsInto_missing kind endPos
  | cons token rest =>
      obtain ⟨htoken, hrest⟩ := List.forall_mem_cons.mp hcursor
      by_cases hkind : token.kind = kind
      · simp only [hkind, if_true]
        exact ⟨htoken, hrest⟩
      · simp only [hkind, if_false]
        exact Cause.pointsInto_marked rfl htoken.wordAt

theorem points_token? (kind : Kind) : Points text (fun _ => True) (token? kind) := by
  intro cursor hcursor
  simp only [token?]
  cases haccept : cursor.accept? kind with
  | none => exact ⟨trivial, hcursor⟩
  | some accepted =>
      obtain ⟨token, cursor'⟩ := accepted
      exact ⟨trivial, hcursor.accept? haccept⟩

theorem points_finish : Points text (fun _ => True) finish := by
  intro cursor hcursor
  simp only [finish, Cursor.expectEnd]
  obtain ⟨rest, endPos⟩ := cursor
  cases rest with
  | nil => exact ⟨trivial, hcursor⟩
  | cons token rest => exact Cause.pointsInto_marked rfl (hcursor token List.mem_cons_self).wordAt

theorem pointsInto_nameCause {token : Token} (h : token.StandsIn text) :
    ((nameCause token).at token.start).PointsInto text := by
  unfold nameCause
  split
  case h_6 => exact Cause.pointsInto_marked rfl h.wordAt
  all_goals exact Cause.pointsInto_unmarked rfl rfl

theorem points_name : Points text (Token.StandsIn text) name := by
  intro cursor hcursor
  obtain ⟨rest, endPos⟩ := cursor
  cases rest with
  | nil => exact Cause.pointsInto_unmarked rfl rfl
  | cons token rest =>
      obtain ⟨htoken, hrest⟩ := List.forall_mem_cons.mp hcursor
      by_cases hkind : token.kind = .identifier
      · simp only [name, hkind, if_true]
        exact ⟨htoken, hrest⟩
      · simp only [name, hkind, if_false]
        exact pointsInto_nameCause htoken

end Reader

end Readers

/-! ## Declarations and headers -/

section Headers

variable {text : List Char}

structure Declaration.StandsIn (text : List Char) (decl : Declaration) : Prop where
  ty : decl.ty.StandsIn text
  name : decl.name.StandsIn text

namespace Declaration

theorem points_parts : Reader.Points text (StandsIn text) parts :=
  (Reader.points_token .identifier).bind fun _ hty =>
    Reader.points_name.bind fun _ hname => Reader.points_pure ⟨hty, hname⟩

theorem points_reader : Reader.Points text (StandsIn text) reader :=
  points_parts.bind fun _ hdecl =>
    Reader.points_finish.bind fun _ _ => Reader.points_pure hdecl

end Declaration

theorem Parameter.points_list :
    Reader.Points text (fun params => ∀ param ∈ params, param.decl.StandsIn text) list := by
  intro cursor hcursor
  simp only [list]
  fun_induction readAll cursor with
  | case1 | case2 => exact ⟨by simp, hcursor⟩
  | case3 cursor _ _ _ d cursor' hparts =>
      exact Declaration.points_parts.of_error hcursor hparts
  | case4 cursor _ _ _ decl cursor' hparts =>
      obtain ⟨hdecl, hcursor'⟩ := Declaration.points_parts.of_ok hcursor hparts
      exact ⟨by simpa using hdecl, hcursor'⟩
  | case5 cursor _ _ _ decl cursor' hparts comma cursor'' hcomma _ _ params last hrest ih =>
      obtain ⟨hdecl, hcursor'⟩ := Declaration.points_parts.of_ok hcursor hparts
      have hparams := ih (hcursor'.accept? hcomma)
      rw [hrest] at hparams
      exact ⟨List.forall_mem_cons.mpr ⟨hdecl, hparams.1⟩, hparams.2⟩
  | case6 cursor _ _ _ decl cursor' hparts comma cursor'' hcomma _ _ d last hrest ih =>
      obtain ⟨-, hcursor'⟩ := Declaration.points_parts.of_ok hcursor hparts
      have hparams := ih (hcursor'.accept? hcomma)
      rw [hrest] at hparams
      exact hparams

namespace Header

structure StandsIn (text : List Char) (header : Header) : Prop where
  name : header.name.StandsIn text
  params : ∀ param ∈ header.params, param.decl.StandsIn text
  ret : ∀ token ∈ header.ret, token.StandsIn text

theorem pointsInto_nameError? {colonStop : Nat} {tokens : List Token} {d : Diagnostic}
    (h : nameError? colonStop tokens = some d) : d.PointsInto text := by
  unfold nameError? at h
  split at h
  · cases h
    exact Cause.pointsInto_unmarked rfl rfl
  · split at h
    · cases h
    · cases h
      exact Cause.pointsInto_unmarked rfl rfl

theorem points_checkName (colonStop : Nat) :
    Reader.Points text (fun _ => True) (checkName colonStop) := by
  refine Reader.points_here.bind fun cursor _ => ?_
  dsimp only
  split
  · exact Reader.points_fail (Cause.pointsInto_unmarked rfl rfl)
  · split
    · rename_i hname
      exact Reader.points_fail (pointsInto_nameError? hname)
    · exact Reader.points_pure trivial

theorem points_readParams :
    Reader.Points text (fun params => ∀ param ∈ params, param.decl.StandsIn text) readParams := by
  refine Parameter.points_list.bind fun params hparams => ?_
  split
  · exact Reader.points_fail (Cause.pointsInto_unmarked rfl rfl)
  · exact Reader.points_pure hparams

theorem points_readRet :
    Reader.Points text (fun ret => ∀ token ∈ ret, token.StandsIn text) readRet := by
  refine (Reader.points_token? .arrow).bind fun arrow _ => ?_
  split
  · refine (Reader.points_token .identifier).bind fun token htoken => Reader.points_pure ?_
    simpa using htoken
  · exact Reader.points_pure (by simp)

theorem points_reader : Reader.Points text (StandsIn text) reader :=
  (Reader.points_token .func).bind fun _ _ =>
    (Reader.points_token .colon).bind fun colon _ =>
      (points_checkName colon.stop).bind fun _ _ =>
        (Reader.points_token .identifier).bind fun _ hname =>
          (Reader.points_token .leftParen).bind fun _ _ =>
            points_readParams.bind fun _ hparams =>
              (Reader.points_token .rightParen).bind fun _ _ =>
                points_readRet.bind fun _ hret =>
                  Reader.points_finish.bind fun _ _ =>
                    Reader.points_pure ⟨hname, hparams, hret⟩

end Header

end Headers

/-! ## Tokens of a text -/

section Tokens

variable {text : List Char}

theorem failsIn_balancedTokens (text : List Char) : FailsIn text (balancedTokens text) := by
  apply FailsIn.bind
  · intro d h
    cases htokens : tokenize text with
    | ok tokens =>
        rw [htokens] at h
        cases h
    | error e =>
        rw [htokens] at h
        cases h
        refine Cause.pointsInto_marked rfl ?_
        simpa using wordAt_of_tokenize_error htokens
  · intro tokens _
    refine FailsIn.bind ?_ fun _ _ => failsIn_ok tokens
    rw [checkParentheses]
    split
    · exact failsIn_ok ()
    · exact failsIn_error (Cause.pointsInto_unmarked rfl rfl)

/-- Tokens of the text with matching brackets. -/
structure TokensIn (text : List Char) (tokens : List Token) : Prop where
  balanced : IsBalanced Token.parenthesis tokens
  stand : ∀ token ∈ tokens, token.StandsIn text

theorem tokensIn_of_balancedTokens {tokens : List Token} (h : balancedTokens text = .ok tokens) :
    TokensIn text tokens := by
  obtain ⟨htokens, hbalanced⟩ := balancedTokens_eq_ok_iff.mp h
  exact ⟨hbalanced, standsIn_of_tokenize htokens⟩

end Tokens

/-! ## Signatures -/

section Signatures

variable {text : List Char}

theorem standsAt_header {body : Body} (h : Body.locate text = .ok body) :
    Text.StandsAt text body.header 0 := by
  simp only [Body.locate] at h
  split at h
  · cases h
  · split at h
    · cases h
    · split at h
      · cases h
        exact Text.standsAt_takeWhile _ text
      · cases h

/-- What follows the bracket that closes a group. -/
theorem standsAt_behind_close {cs : List Char} {index : Nat}
    (h : findClose brace cs = some index) :
    Text.StandsAt cs (cs.drop (index + 1)) (Text.byteLength (cs.take index) + 1) := by
  obtain ⟨inner, last, rest, rfl, rfl, hlast, -⟩ := (findCloseFrom_eq_some_iff 0 index cs).mp h
  have hbrace : last = '\x7d' := by
    simp only [brace, between] at hlast
    split at hlast
    · cases hlast
    · split at hlast
      · assumption
      · cases hlast
  subst hbrace
  refine ⟨inner ++ ['\x7d'], [], by simp, ?_⟩
  rw [List.take_left' rfl, Text.byteLength_append]
  rfl

/-- What follows the body stands behind the header and the two brackets. -/
theorem standsAt_behind_body {c : Char} {rest : List Char} {index : Nat}
    (hrest : text.drop (text.takeWhile (· != '\x7b')).length = c :: rest)
    (hclose : findClose brace rest = some index) :
    Text.StandsAt text (rest.drop (index + 1))
      (Body.stop ⟨text.takeWhile (· != '\x7b'), rest.take index⟩) := by
  have hopen : c = '\x7b' := by simpa using Text.eq_false_of_drop_takeWhile hrest
  have hheader := Text.standsAt_drop_takeWhile (· != '\x7b') text
  rw [hrest, hopen] at hheader
  have hbody : Text.StandsAt ('\x7b' :: rest) rest 1 := ⟨['\x7b'], [], by simp, rfl⟩
  refine (((standsAt_behind_close hclose).trans hbody).trans hheader).of_eq ?_
  simp only [Body.stop, Body.start]
  omega

theorem failsIn_locate (text : List Char) : FailsIn text (Body.locate text) := by
  simp only [Body.locate]
  split
  · exact failsIn_error (Cause.pointsInto_unmarked rfl rfl)
  · rename_i c rest hrest
    split
    · exact failsIn_error (Cause.pointsInto_unmarked rfl rfl)
    · rename_i index hclose
      split
      · exact failsIn_ok _
      · apply failsIn_error
        refine Cause.pointsInto_marked rfl ?_
        rw [String.toList_ofList]
        refine ⟨?_, ?_⟩
        · have hblanks := (Text.standsAt_drop_takeWhile Text.isWhiteSpace _).trans
            (standsAt_behind_body hrest hclose)
          refine ((Text.standsAt_takeWhile _ _).trans hblanks).of_eq ?_
          omega
        · exact Text.space_not_mem_takeWhile (by decide) _

namespace Signature

theorem failsIn_resolve (registry : Registry) {token : Token} (h : token.StandsIn text) :
    FailsIn text (resolve registry token) := by
  unfold resolve
  split
  · exact failsIn_ok _
  · exact failsIn_error (Cause.pointsInto_marked rfl h.wordAt)

theorem failsIn_resolveParams (registry : Registry) (resolved : List (String × Ty))
    {params : List Parameter} (h : ∀ param ∈ params, param.decl.StandsIn text) :
    FailsIn text (resolveParams registry resolved params) := by
  induction params generalizing resolved with
  | nil => exact failsIn_ok resolved
  | cons param params ih =>
      obtain ⟨hdecl, hparams⟩ := List.forall_mem_cons.mp h
      refine (failsIn_resolve registry hdecl.ty).bind fun ty _ => ?_
      split
      · exact failsIn_error (Cause.pointsInto_unmarked rfl rfl)
      · split
        · exact failsIn_error (Cause.pointsInto_marked rfl hdecl.name.wordAt)
        · exact ih _ hparams

theorem failsIn_ofHeader (registry : Registry) (known : List Signature) {header : Header}
    (h : header.StandsIn text) : FailsIn text (ofHeader registry known header) := by
  unfold ofHeader
  split
  · exact failsIn_error (Cause.pointsInto_marked rfl h.name.wordAt)
  · refine (failsIn_resolveParams registry [] h.params).bind fun params _ => ?_
    split
    · rename_i token hret
      exact (failsIn_resolve registry (h.ret token hret)).bind fun ret _ => failsIn_ok _
    · exact failsIn_ok _

theorem failsIn_ofText (registry : Registry) (known : List Signature) (text : List Char) :
    FailsIn text (ofText registry known text) := by
  refine (failsIn_locate text).bind fun body hbody => ?_
  -- The tokens are those of the header, which is the start of the text.
  have hstart := standsAt_header hbody
  suffices h : FailsIn body.header (do
      let tokens ← balancedTokens body.header
      let header ← (Header.reader.read (Cursor.ofTokens tokens)).1
      ofHeader registry known header) from fun d hd => (h d hd).of_start hstart
  refine (failsIn_balancedTokens body.header).bind fun tokens htokens => ?_
  have hcursor : (Cursor.ofTokens tokens).StandsIn body.header :=
    (tokensIn_of_balancedTokens htokens).stand
  cases hread : Header.reader.read (Cursor.ofTokens tokens) with
  | mk result cursor =>
      cases result with
      | error d => exact failsIn_error (Header.points_reader.of_error hcursor hread)
      | ok header =>
          exact failsIn_ofHeader registry known (Header.points_reader.of_ok hcursor hread).1

end Signature

end Signatures

end StackScript
