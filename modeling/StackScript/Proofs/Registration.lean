import StackScript.Proofs.Script
import StackScript.Proofs.ScriptDiagnostics
import StackScript.Proofs.Segmentation

/-! # Registering more types

A type that is registered stays registered under its name. So what compiles goes on to compile, to
the same code, when more types are registered: a name that is taken for a variable is looked up
among the variables first, and a name that is taken for a type was registered already. -/

namespace StackScript

/-! ## Registries -/

namespace Registry

/-- Every type of the registry is a type of the wider one, by the same name. -/
def Extends (wider registry : Registry) : Prop :=
  ∀ name ty, registry.lookup? name = some ty → wider.lookup? name = some ty

variable {registry wider : Registry}

theorem extends_register (registry : Registry) (ty : Ty) :
    ((registry.register ty).toOption.getD registry).Extends registry := by
  intro name found hfound
  by_cases htaken : registry.isRegistered ty.name = true
  · rw [register, if_pos htaken]
    exact hfound
  · rw [register, if_neg htaken]
    exact List.find?_append.trans (by rw [← lookup?, hfound, Option.some_or])

theorem extends_registerAll (registry : Registry) (types : List Ty) :
    (registry.registerAll types).Extends registry := by
  induction types generalizing registry with
  | nil => exact fun _ _ hfound => hfound
  | cons ty types ih =>
      intro name found hfound
      exact ih _ name found (registry.extends_register ty name found hfound)

end Registry

/-! ## Expressions -/

namespace Emit

variable {α β : Type}

/-- Wherever the computation succeeds, the other one does the same. -/
def KeptBy (m m' : Emit α) : Prop :=
  ∀ table a table' code, m.run table = ⟨.ok a, table', code⟩ → m'.run table = ⟨.ok a, table', code⟩

theorem KeptBy.refl (m : Emit α) : m.KeptBy m := fun _ _ _ _ hrun => hrun

theorem keptBy_fail (d : Diagnostic) (m' : Emit α) : (fail d).KeptBy m' := by
  intro table a table' code hrun
  cases hrun

theorem keptBy_fail_or_fail (b : Bool) (d d' : Diagnostic) (m' : Emit α) :
    (if b then fail d else fail d').KeptBy m' := by
  split <;> exact keptBy_fail _ m'

theorem KeptBy.bind {m m' : Emit α} {next next' : α → Emit β} (h : m.KeptBy m')
    (hnext : ∀ a, (next a).KeptBy (next' a)) : (m >>= next).KeptBy (m' >>= next') := by
  intro table b table' code hrun
  obtain ⟨a, middle, c, c', hm, hn, rfl⟩ := run_bind_eq_ok_iff.mp hrun
  exact run_bind_eq_ok_iff.mpr ⟨a, middle, c, c', h _ _ _ _ hm, hnext a _ _ _ _ hn, rfl⟩

end Emit

section Expressions

variable {registry wider : Registry}

theorem keptBy_declareVariable (h : wider.Extends registry) (tokens : List Token) :
    (declareVariable registry tokens).KeptBy (declareVariable wider tokens) := by
  cases tokens with
  | nil => exact .refl _
  | cons first rest =>
      cases hlookup : registry.lookup? first.text with
      | none =>
          -- Without a type there is no declaration, whatever else the token may name.
          intro table a table' code hrun
          simp only [declareVariable, hlookup, Emit.run_symbols_bind] at hrun
          split at hrun <;> cases hrun
      | some ty =>
          simp only [declareVariable, hlookup, h _ _ hlookup]
          exact .refl _

theorem Target.keptBy_resolve (h : wider.Extends registry) (target : Target) :
    (target.resolve registry).KeptBy (target.resolve wider) := by
  cases target with
  | name token =>
      refine Emit.KeptBy.bind (.refl _) fun table => ?_
      cases table.lookup? token.text with
      | some found => exact .refl _
      | none => exact Emit.keptBy_fail_or_fail _ _ _ _
  | declaration tokens => exact keptBy_declareVariable h tokens

theorem keptBy_loadVariable (registry wider : Registry) (token : Token) :
    (loadVariable registry token).KeptBy (loadVariable wider token) := by
  refine Emit.KeptBy.bind (.refl _) fun table => ?_
  cases table.lookup? token.text with
  | some found => exact .refl _
  | none => exact Emit.keptBy_fail_or_fail _ _ _ _

/-- An expression that compiles emits the same code if there are more types. -/
theorem Expression.keptBy_emit (h : wider.Extends registry) (e : Expression) :
    (e.emit registry).KeptBy (e.emit wider) := by
  induction e with
  | literal value pos =>
      cases hlookup : registry.lookup? Ty.int32.name with
      | none =>
          simp only [emit, hlookup]
          exact Emit.keptBy_fail _ _
      | some ty =>
          simp only [emit, hlookup, h _ _ hlookup]
          exact .refl _
  | name token => exact keptBy_loadVariable registry wider token
  | declaration tokens => exact (keptBy_declareVariable h tokens).bind fun _ => .refl _
  | assignment target value pos ih =>
      exact (target.keptBy_resolve h).bind fun _ => ih.bind fun _ => .refl _
  | arithmetic op pos left right ihl ihr =>
      refine ihl.bind fun lhs => ?_
      split
      · exact Emit.keptBy_fail _ _
      · exact ihr.bind fun _ => .refl _
  | malformed error => exact .refl _

end Expressions

/-! ## Signatures -/

namespace Signature

variable {registry wider : Registry}

theorem resolve_eq_ok_iff {token : Token} {ty : Ty} :
    resolve registry token = .ok ty ↔ registry.lookup? token.text = some ty := by
  rw [resolve]
  cases registry.lookup? token.text <;> simp

theorem resolve_of_extends (h : wider.Extends registry) {token : Token} {ty : Ty}
    (hok : resolve registry token = .ok ty) : resolve wider token = .ok ty :=
  resolve_eq_ok_iff.mpr (h _ _ (resolve_eq_ok_iff.mp hok))

theorem resolveParams_of_extends (h : wider.Extends registry) {params : List Parameter}
    {resolved result : List (String × Ty)}
    (hok : resolveParams registry resolved params = .ok result) :
    resolveParams wider resolved params = .ok result := by
  induction params generalizing resolved with
  | nil => exact hok
  | cons param params ih =>
      rw [resolveParams, bind_eq_ok_iff] at hok ⊢
      obtain ⟨ty, hty, hrest⟩ := hok
      refine ⟨ty, resolve_of_extends h hty, ?_⟩
      split at hrest
      · cases hrest
      · rename_i hvoid
        split at hrest
        · cases hrest
        · rename_i hfresh
          rw [if_neg hvoid, if_neg hfresh]
          exact ih hrest

theorem ofHeader_of_extends (h : wider.Extends registry) {known : List Signature} {header : Header}
    {signature : Signature} (hok : ofHeader registry known header = .ok signature) :
    ofHeader wider known header = .ok signature := by
  rw [ofHeader] at hok ⊢
  split at hok
  · cases hok
  · rename_i hfresh
    rw [if_neg hfresh]
    obtain ⟨params, hparams, hret⟩ := bind_eq_ok_iff.mp hok
    refine bind_eq_ok_iff.mpr ⟨params, resolveParams_of_extends h hparams, ?_⟩
    cases hheader : header.ret with
    | none =>
        rw [hheader] at hret
        exact hret
    | some token =>
        rw [hheader] at hret
        obtain ⟨ret, hresolve, hpure⟩ := bind_eq_ok_iff.mp hret
        exact bind_eq_ok_iff.mpr ⟨ret, resolve_of_extends h hresolve, hpure⟩

theorem ofText_of_extends (h : wider.Extends registry) {known : List Signature}
    {text : List Char} {signature : Signature}
    (hok : ofText registry known text = .ok signature) :
    ofText wider known text = .ok signature := by
  simp only [ofText, bind_eq_ok_iff] at hok ⊢
  obtain ⟨body, hbody, tokens, htokens, header, hheader, hok⟩ := hok
  exact ⟨body, hbody, tokens, htokens, header, hheader, ofHeader_of_extends h hok⟩

end Signature

/-! ## Scripts -/

namespace Context

/-- The context over another registry. -/
def withRegistry (ctx : Context) (registry : Registry) : Context := { ctx with registry }

variable {ctx ctx' : Context} {wider : Registry} {u : Unit}

theorem emit_withRegistry (wider : Registry) {α : Type} {m m' : Emit α} (h : m.KeptBy m') {a : α}
    (hok : ctx.emit m = (.ok a, ctx')) :
    (ctx.withRegistry wider).emit m' = (.ok a, ctx'.withRegistry wider) := by
  simp only [emit] at hok ⊢
  cases hrun : m.run ctx.symbols with
  | mk result table code =>
      rw [hrun] at hok
      cases hok
      have hrun' := h _ _ _ _ hrun
      rw [withRegistry, hrun']
      rfl

theorem compileTokens_withRegistry (h : wider.Extends ctx.registry) {tokens : List Token}
    (hok : ctx.compileTokens tokens = (.ok u, ctx')) :
    (ctx.withRegistry wider).compileTokens tokens = (.ok u, ctx'.withRegistry wider) := by
  by_cases hnil : tokens = []
  · subst hnil
    cases hok
    rfl
  · obtain ⟨v, hemit, hvoid⟩ := (compileTokens_eq_ok_iff hnil).mp hok
    have hemit' := emit_withRegistry wider (Expression.keptBy_emit h _) hemit
    exact (compileTokens_eq_ok_iff hnil).mpr ⟨v, hemit', hvoid⟩

theorem compilePiece_withRegistry (h : wider.Extends ctx.registry) {kind : PieceKind}
    {text : List Char} (hok : ctx.compilePiece kind text = (.ok u, ctx')) :
    (ctx.withRegistry wider).compilePiece kind text = (.ok u, ctx'.withRegistry wider) := by
  cases kind with
  | function =>
      simp only [compilePiece] at hok ⊢
      cases hsignature : Signature.ofText ctx.registry ctx.functions text with
      | error d =>
          rw [hsignature] at hok
          cases hok
      | ok signature =>
          rw [hsignature] at hok
          cases hok
          have hsame := Signature.ofText_of_extends h hsignature
          rw [withRegistry, hsame]
          rfl
  | statement =>
      obtain ⟨tokens, htokens, hcompile⟩ := compilePiece_statement_eq_ok_iff.mp hok
      have hcompile' := compileTokens_withRegistry h hcompile
      exact compilePiece_statement_eq_ok_iff.mpr ⟨tokens, htokens, hcompile'⟩

theorem compilePieces_withRegistry (h : wider.Extends ctx.registry) {pieces : List Piece}
    (hok : ctx.compilePieces pieces = (.ok u, ctx')) :
    (ctx.withRegistry wider).compilePieces pieces = (.ok u, ctx'.withRegistry wider) := by
  induction pieces generalizing ctx with
  | nil =>
      cases hok
      rfl
  | cons piece pieces ih =>
      obtain ⟨middle, hpiece, hrest⟩ := compilePieces_cons_eq_ok hok
      have hregistry := ctx.registry_compilePiece piece.kind piece.text
      rw [hpiece] at hregistry
      rw [compilePieces, compilePiece_withRegistry h hpiece]
      exact ih (hregistry ▸ h) hrest

theorem compile_withRegistry (h : wider.Extends ctx.registry) {source : List Char} {c : Compilation}
    (hok : ctx.compile source = (.ok c, ctx')) :
    (ctx.withRegistry wider).compile source = (.ok c, ctx'.withRegistry wider) := by
  obtain ⟨text, pieces, hsegments, hnested, hpieces, rfl⟩ := compile_eq_ok_iff.mp hok
  exact compile_eq_ok_iff.mpr
    ⟨text, pieces, hsegments, hnested, @compilePieces_withRegistry ctx.reset _ _ _ h _ hpieces, rfl⟩

end Context

/-- A script that compiles goes on to compile to the same code, variables and signatures, whatever
types are registered besides, and whichever of them are rejected. -/
theorem compile_registerAll {registry : Registry} {source : String} {c : Compilation}
    (h : compile registry source = .ok c) (types : List Ty) :
    compile (registry.registerAll types) source = .ok c := by
  obtain ⟨ctx', hok⟩ : ∃ ctx', Context.compile { registry } source.toList = (.ok c, ctx') :=
    ⟨_, Prod.ext h rfl⟩
  have hwider := Context.compile_withRegistry (registry.extends_registerAll types) hok
  exact congrArg Prod.fst hwider

/-- A name stays the name of a function, a parameter and a variable when it becomes that of a type,
and a second type of the name `int32` is rejected. -/
theorem compile_registerAll_takenNames :
    ∃ c, compile .builtins "func: deg(int32 deg) \x7b\x7d int32 deg = 2; deg = deg + 1;" = .ok c ∧
      c.instrs = [.constInt 2, .store 0, .load 0, .constInt 1, .add, .store 0] ∧
      Registry.builtins.registerAll [⟨"deg", 2, 2⟩, ⟨"int32", 8, 8⟩] =
        ⟨[Ty.int32, Ty.float, Ty.void, ⟨"deg", 2, 2⟩]⟩ ∧
      compile (Registry.builtins.registerAll [⟨"deg", 2, 2⟩, ⟨"int32", 8, 8⟩])
        "func: deg(int32 deg) \x7b\x7d int32 deg = 2; deg = deg + 1;" = .ok c := by
  have hc : compile .builtins "func: deg(int32 deg) \x7b\x7d int32 deg = 2; deg = deg + 1;" =
      .ok ((compile .builtins
        "func: deg(int32 deg) \x7b\x7d int32 deg = 2; deg = deg + 1;").toOption.getD
          ⟨[], {}, []⟩) :=
    toOption_eq_some_iff.mp (by decide +kernel)
  exact ⟨_, hc, by decide +kernel, by decide +kernel, compile_registerAll hc _⟩

end StackScript
