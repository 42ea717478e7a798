import StackScript.Declaration

/-! # Readers that succeed

A reader that succeeds has moved its cursor past the tokens that it read. So a success is stated
backwards: the cursor stood in front of those tokens, with the rest behind them. -/

namespace StackScript

/-! ## Cursors -/

namespace Cursor

/-- The cursor in front of some tokens, with this one behind them. -/
def before (cursor : Cursor) (tokens : List Token) : Cursor :=
  { cursor with rest := tokens ++ cursor.rest }

@[simp] theorem before_nil (cursor : Cursor) : cursor.before [] = cursor := rfl

@[simp] theorem before_before (cursor : Cursor) (tokens more : List Token) :
    (cursor.before more).before tokens = cursor.before (tokens ++ more) := by
  simp [before]

theorem peekKind?_before_cons (cursor : Cursor) (token : Token) (tokens : List Token) :
    (cursor.before (token :: tokens)).peekKind? = some token.kind := rfl

variable {cursor cursor' : Cursor} {kind : Kind} {token : Token}

/-- A cursor over some tokens comes to its end behind all of them. -/
theorem ofTokens_eq_before_iff {tokens used : List Token} (hend : cursor.rest = []) :
    ofTokens tokens = cursor.before used ↔
      tokens = used ∧ cursor = { ofTokens tokens with rest := [] } := by
  obtain ⟨rest, endPos⟩ := cursor
  obtain rfl : rest = [] := hend
  simp [ofTokens, before, eq_comm]

theorem accept?_eq_some_iff :
    cursor.accept? kind = some (token, cursor') ↔
      token.kind = kind ∧ cursor = cursor'.before [token] := by
  obtain ⟨rest, endPos⟩ := cursor
  obtain ⟨rest', endPos'⟩ := cursor'
  cases rest with
  | nil => simp [accept?, before]
  | cons first rest =>
      by_cases hfirst : first.kind = kind
      · simp only [accept?, hfirst, if_true, Option.some.injEq, Prod.mk.injEq, mk.injEq, before,
          List.singleton_append, List.cons.injEq]
        constructor
        · rintro ⟨rfl, rfl, rfl⟩
          exact ⟨hfirst, ⟨rfl, rfl⟩, rfl⟩
        · rintro ⟨-, ⟨rfl, rfl⟩, rfl⟩
          exact ⟨rfl, rfl, rfl⟩
      · simp only [accept?, hfirst, if_false, reduceCtorEq, mk.injEq, before,
          List.singleton_append, List.cons.injEq, false_iff]
        rintro ⟨hkind, ⟨rfl, -⟩, -⟩
        exact hfirst hkind

theorem accept?_eq_none_iff : cursor.accept? kind = none ↔ cursor.peekKind? ≠ some kind := by
  obtain ⟨rest, endPos⟩ := cursor
  cases rest <;> simp [accept?, peekKind?, peek?]

end Cursor

/-! ## Readers -/

namespace Reader

variable {α β : Type} {cursor cursor' : Cursor} {t : Token}

/-- A sequence succeeds when both of its parts do. -/
theorem read_bind_eq_ok_iff {reader : Reader α} {next : α → Reader β} {b : β} :
    (reader >>= next).read cursor = (.ok b, cursor') ↔
      ∃ a middle, reader.read cursor = (.ok a, middle) ∧
        (next a).read middle = (.ok b, cursor') := by
  rw [read_bind]
  obtain ⟨d | a, middle⟩ := reader.read cursor <;> simp [and_assoc]

theorem fst_read_eq_ok_iff {reader : Reader α} {a : α} :
    (reader.read cursor).1 = .ok a ↔ ∃ cursor', reader.read cursor = (.ok a, cursor') := by
  simp [Prod.ext_iff]

theorem read_token_eq_ok_iff {kind : Kind} :
    (token kind).read cursor = (.ok t, cursor') ↔ t.kind = kind ∧ cursor = cursor'.before [t] := by
  rw [← Cursor.accept?_eq_some_iff]
  obtain ⟨rest, endPos⟩ := cursor
  cases rest with
  | nil => simp [token, Cursor.consume, Cursor.accept?]
  | cons first rest =>
      by_cases hfirst : first.kind = kind <;>
        simp [token, Cursor.consume, Cursor.accept?, hfirst]

/-- Of all tokens, only an identifier is taken as a name. -/
theorem read_name_eq_ok_iff :
    name.read cursor = (.ok t, cursor') ↔ t.kind = .identifier ∧ cursor = cursor'.before [t] := by
  rw [← Cursor.accept?_eq_some_iff]
  obtain ⟨rest, endPos⟩ := cursor
  cases rest with
  | nil => simp [name, Cursor.accept?]
  | cons first rest =>
      by_cases hfirst : first.kind = .identifier <;> simp [name, Cursor.accept?, hfirst]

theorem read_finish_eq_ok_iff {u : Unit} :
    finish.read cursor = (.ok u, cursor') ↔ cursor.rest = [] ∧ cursor = cursor' := by
  obtain ⟨rest, endPos⟩ := cursor
  cases rest with
  | nil =>
      have hread : finish.read ⟨[], endPos⟩ = (.ok (), ⟨[], endPos⟩) := rfl
      simp [hread]
  | cons first rest =>
      have hread : finish.read ⟨first :: rest, endPos⟩ =
          (.error (TokenError.trailing first.text first.start).diagnostic,
            ⟨first :: rest, endPos⟩) := rfl
      simp [hread]

end Reader

/-! ## Declarations -/

namespace Declaration

/-- The type and the name are identifiers. -/
def IsNamed (decl : Declaration) : Prop :=
  decl.ty.kind = .identifier ∧ decl.name.kind = .identifier

theorem read_parts_eq_ok_iff {cursor cursor' : Cursor} {decl : Declaration} :
    parts.read cursor = (.ok decl, cursor') ↔
      decl.IsNamed ∧ cursor = cursor'.before [decl.ty, decl.name] := by
  simp only [parts, Reader.identifier, Reader.read_bind_eq_ok_iff, Reader.read_token_eq_ok_iff,
    Reader.read_name_eq_ok_iff, Reader.read_pure]
  constructor
  · rintro ⟨ty, _, ⟨hty, rfl⟩, name, _, ⟨hname, rfl⟩, hdecl⟩
    cases hdecl
    exact ⟨⟨hty, hname⟩, by simp⟩
  · rintro ⟨⟨hty, hname⟩, rfl⟩
    exact ⟨decl.ty, cursor'.before [decl.name], ⟨hty, by simp⟩, decl.name, cursor',
      ⟨hname, rfl⟩, rfl⟩

end Declaration

end StackScript
