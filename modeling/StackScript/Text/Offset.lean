/-! # Offsets into text

Positions in a text are counted in bytes of its UTF-8 encoding. An offset inside a character cuts
no text off. Lines are counted from one. -/

namespace StackScript.Text

/-- Number of bytes of a text. -/
def byteLength : List Char → Nat
  | [] => 0
  | c :: cs => c.utf8Size + byteLength cs

@[simp] theorem byteLength_nil : byteLength [] = 0 := rfl

@[simp] theorem byteLength_cons (c : Char) (cs : List Char) :
    byteLength (c :: cs) = c.utf8Size + byteLength cs := rfl

@[simp] theorem byteLength_append (cs ds : List Char) :
    byteLength (cs ++ ds) = byteLength cs + byteLength ds := by
  induction cs with
  | nil => simp
  | cons c cs ih => simp [ih, Nat.add_assoc]

/-- The text from an offset on, if the offset is a character boundary of the text. -/
def dropBytes? : Nat → List Char → Option (List Char)
  | 0, cs => some cs
  | _ + 1, [] => none
  | n + 1, c :: cs => if c.utf8Size ≤ n + 1 then dropBytes? (n + 1 - c.utf8Size) cs else none

/-- The text before an offset, if the offset is a character boundary of the text. -/
def takeBytes? : Nat → List Char → Option (List Char)
  | 0, _ => some []
  | _ + 1, [] => none
  | n + 1, c :: cs =>
      if c.utf8Size ≤ n + 1 then (takeBytes? (n + 1 - c.utf8Size) cs).map (c :: ·) else none

/-- The text between two offsets, if they are character boundaries in this order. -/
def slice? (cs : List Char) (start stop : Nat) : Option (List Char) :=
  if start ≤ stop then (dropBytes? start cs).bind (takeBytes? (stop - start)) else none

/-- Number of newlines that start before an offset. -/
def newlinesBefore : Nat → List Char → Nat
  | _, [] => 0
  | 0, _ :: _ => 0
  | n + 1, c :: cs => (if c = '\n' then 1 else 0) + newlinesBefore (n + 1 - c.utf8Size) cs

/-- The line that an offset lies on. An offset past the end lies on the last line. -/
def lineNumber (cs : List Char) (offset : Nat) : Nat := newlinesBefore offset cs + 1

end StackScript.Text
