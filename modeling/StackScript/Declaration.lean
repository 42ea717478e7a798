import StackScript.Token.Cursor

/-! # Declarations

A declaration is a type followed by a name. Names may start with a digit, but a number by itself
would read back as a literal and is refused. -/

namespace StackScript

/-- Readers of tokens: they move the cursor, and may fail where it stands. -/
structure Reader (α : Type) where
  /-- The result at a cursor, and the cursor behind what was read. -/
  read : Cursor → Except Diagnostic α × Cursor

namespace Reader

variable {α β : Type}

instance : Monad Reader where
  pure a := ⟨fun cursor => (.ok a, cursor)⟩
  bind reader next := ⟨fun cursor =>
    match reader.read cursor with
    | (.ok a, cursor) => (next a).read cursor
    | (.error d, cursor) => (.error d, cursor)⟩

@[simp] theorem read_pure (a : α) (cursor : Cursor) :
    (pure a : Reader α).read cursor = (.ok a, cursor) := rfl

@[simp] theorem read_bind (reader : Reader α) (next : α → Reader β) (cursor : Cursor) :
    (reader >>= next).read cursor =
      match reader.read cursor with
      | (.ok a, cursor) => (next a).read cursor
      | (.error d, cursor) => (.error d, cursor) := rfl

/-- The cursor itself. -/
def here : Reader Cursor := ⟨fun cursor => (.ok cursor, cursor)⟩

def fail (d : Diagnostic) : Reader α := ⟨fun cursor => (.error d, cursor)⟩

/-- The next token, which must be of the given kind. -/
def token (kind : Kind) : Reader Token :=
  ⟨fun cursor =>
    match cursor.consume kind with
    | .ok (token, cursor) => (.ok token, cursor)
    | .error e => (.error e.diagnostic, cursor)⟩

/-- The next token, if it is of the given kind. -/
def token? (kind : Kind) : Reader (Option Token) :=
  ⟨fun cursor =>
    match cursor.accept? kind with
    | some (token, cursor) => (.ok (some token), cursor)
    | none => (.ok none, cursor)⟩

/-- No token may be left. -/
def finish : Reader Unit :=
  ⟨fun cursor => (cursor.expectEnd.mapError TokenError.diagnostic, cursor)⟩

/-- An identifier. -/
def identifier : Reader Token := token .identifier

end Reader

/-- What is wrong with a token that stands in the place of a name. -/
def nameCause (token : Token) : Cause :=
  match token.kind with
  | .rightParen | .comma => .unexpectedEndOfLine
  | .integer | .float | .func => .invalidIdentifier token.text
  | _ => .unexpectedToken token.text

/-- The name of a new variable or parameter. -/
def Reader.name : Reader Token :=
  ⟨fun cursor =>
    match cursor.rest with
    | [] => (.error (Cause.unexpectedEndOfLine.at cursor.endPos), cursor)
    | token :: rest =>
        if token.kind = .identifier then (.ok token, { cursor with rest })
        else (.error ((nameCause token).at token.start), cursor)⟩

/-- A type and a name, both as they stand in the text. -/
structure Declaration where
  ty : Token
  name : Token
  deriving DecidableEq, Repr

namespace Declaration

/-- A type and a name, whatever follows. -/
def parts : Reader Declaration := do
  let ty ← Reader.identifier
  let name ← Reader.name
  return { ty, name }

/-- A declaration with nothing behind it. -/
def reader : Reader Declaration := do
  let decl ← parts
  Reader.finish
  return decl

/-- A parameter of a function, unless the list of parameters ends here. -/
def parameter? : Reader (Option Declaration) := do
  match (← Reader.here).peekKind? with
  | none | some .rightParen => return none
  | some _ => return some (← parts)

end Declaration

/-! ## Lists of parameters -/

/-- A parameter and the comma behind it. -/
structure Parameter where
  decl : Declaration
  comma : Option Token
  deriving DecidableEq, Repr

theorem Cursor.rest_of_accept? {cursor cursor' : Cursor} {kind : Kind} {token : Token}
    (h : cursor.accept? kind = some (token, cursor')) : cursor.rest = token :: cursor'.rest := by
  unfold Cursor.accept? at h
  split at h
  · rename_i t rest hrest
    split at h
    · simp only [Option.some.injEq, Prod.mk.injEq] at h
      rw [← h.1, ← h.2, hrest]
    · cases h
  · cases h

/-- Reading a declaration never puts tokens back. -/
theorem Declaration.length_read_parts (cursor : Cursor) :
    (Declaration.parts.read cursor).2.rest.length ≤ cursor.rest.length := by
  rcases cursor with ⟨rest, endPos⟩
  cases rest with
  | nil => exact Nat.le_refl 0
  | cons ty rest =>
      by_cases hty : ty.kind = .identifier
      · cases rest with
        | nil =>
            simp [Declaration.parts, Reader.identifier, Reader.token, Reader.name,
              Cursor.consume, hty]
        | cons name rest =>
            by_cases hname : name.kind = .identifier
            · simp [Declaration.parts, Reader.identifier, Reader.token, Reader.name,
                Cursor.consume, hty, hname]
              omega
            · simp [Declaration.parts, Reader.identifier, Reader.token, Reader.name,
                Cursor.consume, hty, hname]
      · simp [Declaration.parts, Reader.identifier, Reader.token, Cursor.consume, hty]

/-- Parameters with commas between them, up to the first that has no comma behind it or to the
end of the list. -/
def Parameter.readAll (cursor : Cursor) : Except Diagnostic (List Parameter) × Cursor :=
  match cursor.peekKind? with
  | none | some .rightParen => (.ok [], cursor)
  | some _ =>
      match hparts : Declaration.parts.read cursor with
      | (.error d, cursor') => (.error d, cursor')
      | (.ok decl, cursor') =>
          match hcomma : cursor'.accept? .comma with
          | none => (.ok [⟨decl, none⟩], cursor')
          | some (comma, cursor'') =>
              have hle : cursor'.rest.length ≤ cursor.rest.length := by
                have := Declaration.length_read_parts cursor
                rwa [hparts] at this
              have hlt : cursor''.rest.length < cursor'.rest.length := by
                simp [Cursor.rest_of_accept? hcomma]
              match readAll cursor'' with
              | (.ok params, last) => (.ok (⟨decl, some comma⟩ :: params), last)
              | (.error d, last) => (.error d, last)
termination_by cursor.rest.length

namespace Parameter

def list : Reader (List Parameter) := ⟨readAll⟩

/-- The comma behind the last parameter. -/
def trailing? (params : List Parameter) : Option Token := params.getLast?.bind Parameter.comma

end Parameter

end StackScript
