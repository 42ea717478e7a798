import StackScript.Proofs.Pointing

/-! # The grammar of function headers

A header is read exactly when the kinds of its tokens are those of a header and the name of the
function does not start with a digit. What is read are the tokens themselves, each in its place: no
parameter is lost, and none is made up. -/

namespace StackScript

/-! ## Parameters -/

namespace Parameter

/-- The tokens of a parameter and of the comma behind it. -/
def tokens (param : Parameter) : List Token :=
  param.decl.ty :: param.decl.name :: param.comma.toList

/-- Parameters with a comma behind each of them but the last. -/
inductive Separated : List Parameter → Prop where
  | nil : Separated []
  | last {decl : Declaration} : decl.IsNamed → Separated [⟨decl, none⟩]
  | cons {decl : Declaration} {comma : Token} {next : Parameter} {params : List Parameter} :
      decl.IsNamed → comma.kind = .comma → Separated (next :: params) →
      Separated (⟨decl, some comma⟩ :: next :: params)

theorem trailing?_cons_cons (param next : Parameter) (params : List Parameter) :
    trailing? (param :: next :: params) = trailing? (next :: params) := by
  simp [trailing?]

theorem Separated.trailing?_eq_none {params : List Parameter} (h : Separated params) :
    trailing? params = none := by
  induction h with
  | nil | last _ => rfl
  | cons _ _ _ ih => rw [trailing?_cons_cons, ih]

variable {cursor cursor' : Cursor} {params : List Parameter}

/-- What is read as parameters, without a comma at the end, are separated parameters. -/
theorem separated_of_readAll (h : readAll cursor = (.ok params, cursor'))
    (htrailing : trailing? params = none) :
    Separated params ∧ cursor = cursor'.before (params.flatMap tokens) := by
  fun_induction readAll cursor generalizing params cursor' with
  | case1 cursor | case2 cursor =>
      cases h
      exact ⟨.nil, rfl⟩
  | case3 cursor _ _ _ d middle hparts => cases h
  | case4 cursor _ _ _ decl middle hparts hcomma =>
      cases h
      obtain ⟨hdecl, rfl⟩ := Declaration.read_parts_eq_ok_iff.mp hparts
      exact ⟨.last hdecl, by simp [tokens]⟩
  | case5 cursor _ _ _ decl middle hparts comma behind hcomma _ _ rest last hrest ih =>
      cases h
      obtain ⟨hdecl, rfl⟩ := Declaration.read_parts_eq_ok_iff.mp hparts
      obtain ⟨hkind, rfl⟩ := Cursor.accept?_eq_some_iff.mp hcomma
      cases rest with
      | nil => cases htrailing
      | cons next rest =>
          rw [trailing?_cons_cons] at htrailing
          obtain ⟨hseparated, rfl⟩ := ih hrest htrailing
          exact ⟨.cons hdecl hkind hseparated, by simp [tokens]⟩
  | case6 cursor _ _ _ decl middle hparts comma behind hcomma _ _ d last hrest ih => cases h

/-- Behind a parameter the list goes on if there is a comma, and ends if there is none. -/
theorem readAll_before_decl {decl : Declaration} (hdecl : decl.IsNamed) (cursor : Cursor) :
    readAll (cursor.before [decl.ty, decl.name]) =
      match cursor.accept? .comma with
      | none => (.ok [⟨decl, none⟩], cursor)
      | some (comma, behind) =>
          ((readAll behind).1.map (⟨decl, some comma⟩ :: ·), (readAll behind).2) := by
  have hparts : Declaration.parts.read (cursor.before [decl.ty, decl.name]) = (.ok decl, cursor) :=
    Declaration.read_parts_eq_ok_iff.mpr ⟨hdecl, rfl⟩
  rw [readAll, Cursor.peekKind?_before_cons, hdecl.1]
  simp only
  split
  · rename_i h
    cases hparts.symm.trans h
  · rename_i h
    cases hparts.symm.trans h
    split
    · rename_i hcomma
      rw [hcomma]
    · rename_i behind hcomma
      simp only [hcomma]
      obtain ⟨d | params, last⟩ := readAll behind <;> rfl

/-- Separated parameters are read as they are in front of a closing bracket. -/
theorem Separated.readAll_before (h : Separated params)
    (hclose : cursor.peekKind? = some .rightParen) :
    readAll (cursor.before (params.flatMap tokens)) = (.ok params, cursor) := by
  induction h with
  | nil => rw [List.flatMap_nil, Cursor.before_nil, readAll, hclose]
  | last hdecl =>
      have hcomma : cursor.accept? .comma = none :=
        Cursor.accept?_eq_none_iff.mpr (by simp [hclose])
      exact (readAll_before_decl hdecl cursor).trans (by rw [hcomma])
  | @cons decl comma next params hdecl hcomma _ ih =>
      let behind := cursor.before ((next :: params).flatMap tokens)
      have hbefore : cursor.before ((⟨decl, some comma⟩ :: next :: params).flatMap tokens) =
          (behind.before [comma]).before [decl.ty, decl.name] := by
        simp [behind, tokens]
      have haccept : (behind.before [comma]).accept? .comma = some (comma, behind) :=
        Cursor.accept?_eq_some_iff.mpr ⟨hcomma, rfl⟩
      rw [hbefore, readAll_before_decl hdecl, haccept]
      simp only [behind, ih]
      rfl

end Parameter

/-! ## Headers -/

/-- Whether a token starts with a digit. -/
def Token.startsWithDigit (token : Token) : Bool := token.text.toList.head?.any Char.isDigit

namespace Header

variable {cursor cursor' : Cursor}

theorem nameError?_eq_none_iff {colonStop : Nat} {tokens : List Token} :
    nameError? colonStop tokens = none ↔
      ∃ name, tokens = [name] ∧ name.kind = .identifier ∧ name.startsWithDigit = false := by
  cases tokens with
  | nil => simp [nameError?]
  | cons name rest => simp [nameError?, Token.startsWithDigit, and_assoc]

/-- The name of a function stands alone in front of the opening bracket. -/
theorem read_checkName_eq_ok_iff {colonStop : Nat} {u : Unit} :
    (checkName colonStop).read cursor = (.ok u, cursor') ↔
      cursor = cursor' ∧ ∃ name leftParen rest, cursor.rest = name :: leftParen :: rest ∧
        name.kind = .identifier ∧ name.startsWithDigit = false ∧ leftParen.kind = .leftParen := by
  simp only [checkName, Reader.read_bind_eq_ok_iff, Reader.here, Prod.mk.injEq, Except.ok.injEq]
  constructor
  · rintro ⟨_, _, ⟨rfl, rfl⟩, hread⟩
    split at hread
    · cases hread
    · rename_i hlength
      split at hread
      · cases hread
      · rename_i hname
        cases hread
        obtain ⟨name, hbefore, hkind, hdigit⟩ := nameError?_eq_none_iff.mp hname
        have hsplit : (cursor.rest.takeWhile fun token => token.kind != .leftParen) ++
            (cursor.rest.dropWhile fun token => token.kind != .leftParen) = cursor.rest :=
          List.takeWhile_append_dropWhile
        rw [hbefore] at hsplit hlength
        cases hbehind : cursor.rest.dropWhile fun token => token.kind != .leftParen with
        | nil =>
            rw [hbehind] at hsplit
            rw [← hsplit] at hlength
            exact absurd rfl hlength
        | cons leftParen rest =>
            have hleft := List.head?_dropWhile_not (fun token => token.kind != .leftParen)
              cursor.rest
            rw [hbehind] at hsplit hleft
            refine ⟨rfl, name, leftParen, rest, hsplit.symm, hkind, hdigit, ?_⟩
            simpa using hleft
  · rintro ⟨rfl, name, leftParen, rest, hrest, hkind, hdigit, hleft⟩
    refine ⟨cursor, cursor, ⟨rfl, rfl⟩, ?_⟩
    have hname : nameError? colonStop [name] = none :=
      nameError?_eq_none_iff.mpr ⟨name, rfl, hkind, hdigit⟩
    simp [hrest, hkind, hleft, hname]

variable {params : List Parameter} {ret : Option Token}

/-- In front of a closing bracket, separated parameters are read and no others. -/
theorem read_readParams_eq_ok_iff {rightParen : Token} (hright : rightParen.kind = .rightParen) :
    readParams.read cursor = (.ok params, cursor'.before [rightParen]) ↔
      Parameter.Separated params ∧
        cursor = (cursor'.before [rightParen]).before (params.flatMap Parameter.tokens) := by
  rw [readParams, Reader.read_bind_eq_ok_iff]
  constructor
  · rintro ⟨params', middle, hlist, hread⟩
    split at hread
    · cases hread
    · rename_i htrailing
      cases hread
      exact Parameter.separated_of_readAll hlist htrailing
  · rintro ⟨hseparated, rfl⟩
    refine ⟨params, _, hseparated.readAll_before (congrArg some hright), ?_⟩
    rw [hseparated.trailing?_eq_none]
    rfl

/-- What stands behind the parameters: nothing, or an arrow and a type. -/
inductive Returns : List Token → Option Token → Prop where
  | nothing : Returns [] none
  | type {arrow ty : Token} : arrow.kind = .arrow → ty.kind = .identifier →
      Returns [arrow, ty] (some ty)

theorem read_readRet_eq_ok_iff (hend : cursor'.rest = []) :
    readRet.read cursor = (.ok ret, cursor') ↔
      ∃ tokens, Returns tokens ret ∧ cursor = cursor'.before tokens := by
  rw [readRet, Reader.read_bind_eq_ok_iff]
  constructor
  · rintro ⟨arrow?, middle, harrow, hread⟩
    cases haccept : cursor.accept? .arrow with
    | none =>
        simp only [Reader.token?, haccept] at harrow
        cases harrow
        cases hread
        exact ⟨[], .nothing, rfl⟩
    | some accepted =>
        obtain ⟨arrow, behind⟩ := accepted
        simp only [Reader.token?, haccept] at harrow
        cases harrow
        obtain ⟨ty, last, hty, hpure⟩ := Reader.read_bind_eq_ok_iff.mp hread
        cases hpure
        obtain ⟨harrow, rfl⟩ := Cursor.accept?_eq_some_iff.mp haccept
        obtain ⟨hkind, rfl⟩ := Reader.read_token_eq_ok_iff.mp hty
        exact ⟨[arrow, ty], .type harrow hkind, by simp⟩
  · rintro ⟨tokens, hreturns, rfl⟩
    cases hreturns with
    | nothing =>
        refine ⟨none, cursor', ?_, rfl⟩
        simp [Reader.token?, Cursor.accept?, hend]
    | @type arrow ty harrow hty =>
        have haccept : (cursor'.before [arrow, ty]).accept? .arrow =
            some (arrow, cursor'.before [ty]) :=
          Cursor.accept?_eq_some_iff.mpr ⟨harrow, by simp⟩
        refine ⟨some arrow, cursor'.before [ty], ?_, ?_⟩
        · simp only [Reader.token?, haccept]
        · exact Reader.read_bind_eq_ok_iff.mpr
            ⟨ty, cursor', Reader.read_token_eq_ok_iff.mpr ⟨hty, rfl⟩, rfl⟩

/-- The tokens of a header. -/
inductive Derives : List Token → Header → Prop where
  | intro {keyword colon name leftParen rightParen : Token} {params : List Parameter}
      {behind : List Token} {ret : Option Token} :
      keyword.kind = .func → colon.kind = .colon →
      name.kind = .identifier → name.startsWithDigit = false →
      leftParen.kind = .leftParen → Parameter.Separated params → rightParen.kind = .rightParen →
      Returns behind ret →
      Derives (keyword :: colon :: name :: leftParen ::
        (params.flatMap Parameter.tokens ++ rightParen :: behind)) ⟨keyword, name, params, ret⟩

/-- A header is read from its tokens, with nothing behind them. -/
theorem read_reader_eq_ok_iff {header : Header} :
    reader.read cursor = (.ok header, cursor') ↔
      ∃ tokens, Derives tokens header ∧ cursor = cursor'.before tokens ∧ cursor'.rest = [] := by
  simp only [reader, Reader.identifier, Reader.read_bind_eq_ok_iff, Reader.read_token_eq_ok_iff,
    read_checkName_eq_ok_iff, Reader.read_finish_eq_ok_iff, Reader.read_pure]
  constructor
  · rintro ⟨keyword, _, ⟨hkeyword, rfl⟩, colon, _, ⟨hcolon, rfl⟩, -, _, ⟨rfl, hname⟩,
      name, _, ⟨hkind, rfl⟩, leftParen, _, ⟨hleft, rfl⟩, params, _, hparams,
      rightParen, _, ⟨hright, rfl⟩, ret, _, hret, -, _, ⟨hend, rfl⟩, hpure⟩
    cases hpure
    obtain ⟨_, _, _, hrest, -, hdigit, -⟩ := hname
    obtain ⟨rfl, -⟩ := List.cons.inj hrest
    obtain ⟨behind, hreturns, rfl⟩ := (read_readRet_eq_ok_iff hend).mp hret
    obtain ⟨hseparated, rfl⟩ := (read_readParams_eq_ok_iff hright).mp hparams
    exact ⟨_, .intro hkeyword hcolon hkind hdigit hleft hseparated hright hreturns, by simp, hend⟩
  · rintro ⟨_, hderives, rfl, hend⟩
    cases hderives with
    | @intro keyword colon name leftParen rightParen params behind ret hkeyword hcolon hname hdigit
        hleft hparams hright hret =>
        let close := (cursor'.before behind).before [rightParen]
        let first := close.before (params.flatMap Parameter.tokens)
        have hopen : (first.before [name, leftParen]).rest = name :: leftParen :: first.rest := rfl
        exact ⟨keyword, first.before [colon, name, leftParen], ⟨hkeyword, by simp [first, close]⟩,
          colon, first.before [name, leftParen], ⟨hcolon, by simp⟩,
          (), first.before [name, leftParen],
          ⟨rfl, name, leftParen, _, hopen, hname, hdigit, hleft⟩,
          name, first.before [leftParen], ⟨hname, by simp⟩,
          leftParen, first, ⟨hleft, rfl⟩,
          params, close, (read_readParams_eq_ok_iff hright).mpr ⟨hparams, rfl⟩,
          rightParen, cursor'.before behind, ⟨hright, rfl⟩,
          ret, cursor', (read_readRet_eq_ok_iff hend).mpr ⟨behind, hret, rfl⟩,
          (), cursor', ⟨hend, rfl⟩, rfl⟩

end Header

/-! ## Kinds of tokens -/

namespace Parameter

/-- The kinds of the tokens of so many parameters. -/
def kinds (arity : Nat) : List Kind :=
  [.comma].intercalate (List.replicate arity [.identifier, .identifier])

theorem kinds_succ_succ (arity : Nat) :
    kinds (arity + 2) = .identifier :: .identifier :: .comma :: kinds (arity + 1) := by
  simp [kinds, List.replicate_succ]

theorem Separated.map_kind {params : List Parameter} (h : Separated params) :
    (params.flatMap tokens).map Token.kind = kinds params.length := by
  induction h with
  | nil => rfl
  | last hdecl => simp [tokens, hdecl.1, hdecl.2, kinds]
  | cons hdecl hcomma _ ih =>
      rw [List.flatMap_cons, List.map_append, ih]
      simp [tokens, hdecl.1, hdecl.2, hcomma, kinds_succ_succ]

/-- Tokens of these kinds are the tokens of so many separated parameters. -/
theorem exists_separated {arity : Nat} {tokens : List Token}
    (h : tokens.map Token.kind = kinds arity) :
    ∃ params, params.length = arity ∧ Separated params ∧
      tokens = params.flatMap Parameter.tokens := by
  induction arity generalizing tokens with
  | zero =>
      obtain rfl := List.map_eq_nil_iff.mp h
      exact ⟨[], rfl, .nil, rfl⟩
  | succ arity ih =>
      cases arity with
      | zero =>
          simp only [kinds, Nat.zero_add, List.replicate_one, List.intercalate_singleton,
            List.map_eq_cons_iff, List.map_eq_nil_iff] at h
          obtain ⟨ty, _, rfl, hty, name, _, rfl, hname, rfl⟩ := h
          exact ⟨[⟨⟨ty, name⟩, none⟩], rfl, .last ⟨hty, hname⟩, rfl⟩
      | succ arity =>
          simp only [kinds_succ_succ, List.map_eq_cons_iff] at h
          obtain ⟨ty, _, rfl, hty, name, _, rfl, hname, comma, rest, rfl, hcomma, hrest⟩ := h
          obtain ⟨params, hlength, hparams, rfl⟩ := ih hrest
          obtain ⟨next, params, rfl⟩ := List.exists_cons_of_length_eq_add_one hlength
          exact ⟨⟨⟨ty, name⟩, some comma⟩ :: next :: params, congrArg (· + 1) hlength,
            .cons ⟨hty, hname⟩ hcomma hparams, rfl⟩

end Parameter

namespace Header

/-- The kinds of the tokens of a header with so many parameters. -/
def kinds (arity : Nat) (returns : Bool) : List Kind :=
  [.func, .colon, .identifier, .leftParen] ++ Parameter.kinds arity ++
    .rightParen :: if returns then [.arrow, .identifier] else []

variable {tokens : List Token}

theorem exists_returns_iff :
    (∃ ret, Returns tokens ret) ↔
      ∃ returns : Bool, tokens.map Token.kind = if returns then [.arrow, .identifier] else [] := by
  constructor
  · rintro ⟨_, hreturns⟩
    cases hreturns with
    | nothing => exact ⟨false, rfl⟩
    | type harrow hty => exact ⟨true, by simp [harrow, hty]⟩
  · rintro ⟨returns, h⟩
    cases returns with
    | false =>
        obtain rfl := List.map_eq_nil_iff.mp h
        exact ⟨none, .nothing⟩
    | true =>
        simp only [if_true, List.map_eq_cons_iff, List.map_eq_nil_iff] at h
        obtain ⟨arrow, _, rfl, harrow, ty, _, rfl, hty, rfl⟩ := h
        exact ⟨some ty, .type harrow hty⟩

/-- Apart from the first character of its name, a header is known by the kinds of its tokens. -/
theorem exists_derives_iff :
    (∃ header, Derives tokens header) ↔
      (∃ arity returns, tokens.map Token.kind = kinds arity returns) ∧
        ∀ name ∈ tokens[2]?, name.startsWithDigit = false := by
  constructor
  · rintro ⟨_, hderives⟩
    cases hderives with
    | @intro _ _ _ _ _ params behind ret hkeyword hcolon hname hdigit hleft hparams hright hret =>
        obtain ⟨returns, hbehind⟩ := exists_returns_iff.mp ⟨ret, hret⟩
        refine ⟨⟨params.length, returns, ?_⟩, by simpa using hdigit⟩
        simp [kinds, hkeyword, hcolon, hname, hleft, hright, hbehind, hparams.map_kind]
  · rintro ⟨⟨arity, returns, h⟩, hdigit⟩
    simp only [kinds, List.cons_append, List.nil_append, List.map_eq_cons_iff,
      List.map_eq_append_iff] at h
    obtain ⟨keyword, _, rfl, hkeyword, colon, _, rfl, hcolon, name, _, rfl, hname,
      leftParen, _, rfl, hleft, inside, _, rfl, hinside, rightParen, behind, rfl, hright,
      hbehind⟩ := h
    obtain ⟨params, -, hparams, rfl⟩ := Parameter.exists_separated hinside
    obtain ⟨ret, hret⟩ := exists_returns_iff.mpr ⟨returns, hbehind⟩
    exact ⟨⟨keyword, name, params, ret⟩,
      .intro hkeyword hcolon hname (hdigit name rfl) hleft hparams hright hret⟩

/-- A cursor over some tokens reads a header from all of them. -/
theorem read_ofTokens_eq_ok_iff {header : Header} :
    reader.read (Cursor.ofTokens tokens) = (.ok header, cursor) ↔
      Derives tokens header ∧ cursor = { Cursor.ofTokens tokens with rest := [] } := by
  rw [read_reader_eq_ok_iff]
  constructor
  · rintro ⟨used, hderives, hbefore, hend⟩
    obtain ⟨rfl, hcursor⟩ := (Cursor.ofTokens_eq_before_iff hend).mp hbefore
    exact ⟨hderives, hcursor⟩
  · rintro ⟨hderives, rfl⟩
    exact ⟨tokens, hderives, (Cursor.ofTokens_eq_before_iff rfl).mpr ⟨rfl, rfl⟩, rfl⟩

/-- From the tokens of a text a header is read exactly when their kinds are those of a header and
its name does not start with a digit. Then all of them are used up, and the parts of the header are
the tokens in their places, with the texts that stand at their offsets. -/
theorem reads_grammar {text : List Char} (htokens : tokenize text = .ok tokens) :
    ((∃ header cursor, reader.read (Cursor.ofTokens tokens) = (.ok header, cursor)) ↔
      (∃ arity returns, tokens.map Token.kind = kinds arity returns) ∧
        ∀ name ∈ tokens[2]?, name.startsWithDigit = false) ∧
    (∀ header cursor, reader.read (Cursor.ofTokens tokens) = (.ok header, cursor) ↔
      Derives tokens header ∧ cursor = { Cursor.ofTokens tokens with rest := [] }) ∧
    ∀ token ∈ tokens, Text.StandsAt text token.text.toList token.start := by
  refine ⟨?_, fun header cursor => read_ofTokens_eq_ok_iff,
    fun token htoken => (standsIn_of_tokenize htokens token htoken).stands⟩
  rw [← exists_derives_iff]
  constructor
  · rintro ⟨header, cursor, hread⟩
    exact ⟨header, (read_ofTokens_eq_ok_iff.mp hread).1⟩
  · rintro ⟨header, hderives⟩
    exact ⟨header, _, read_ofTokens_eq_ok_iff.mpr ⟨hderives, rfl⟩⟩

/-- A parameter may start with a digit. The comma stands with the parameter before it. -/
theorem reads_grammar_twoParameters :
    ∃ tokens header cursor, tokenize "func: mean(int32 a, float 2b) -> float".toList = .ok tokens ∧
      tokens.map Token.kind = kinds 2 true ∧
      reader.read (Cursor.ofTokens tokens) = (.ok header, cursor) ∧ cursor.rest = [] ∧
      Derives tokens header ∧
      header.params.map (fun param => (param.decl.name.text, param.comma.map Token.start)) =
        [("a", some 18), ("2b", none)] := by
  let tokens := (tokenize "func: mean(int32 a, float 2b) -> float".toList).toOption.getD []
  have htokens : tokenize "func: mean(int32 a, float 2b) -> float".toList = .ok tokens :=
    toOption_eq_some_iff.mp (by decide +kernel)
  have hkinds : tokens.map Token.kind = kinds 2 true := by decide +kernel
  have hparams : (reader.read (Cursor.ofTokens tokens)).1.toOption.map (fun header =>
      header.params.map fun param => (param.decl.name.text, param.comma.map Token.start)) =
        some [("a", some 18), ("2b", none)] := by
    decide +kernel
  obtain ⟨hiff, hread, -⟩ := reads_grammar htokens
  obtain ⟨header, cursor, hheader⟩ := hiff.mpr ⟨⟨2, true, hkinds⟩, by decide +kernel⟩
  obtain ⟨hderives, rfl⟩ := (hread header cursor).mp hheader
  rw [hheader] at hparams
  exact ⟨tokens, header, _, htokens, hkinds, hheader, rfl, hderives, Option.some.inj hparams⟩

end Header

end StackScript
