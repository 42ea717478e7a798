/-! # Matching delimiters

Scans over any list whose items are classified as opening or closing delimiters, or neither. The
same scans serve the characters of a script and the tokens of an expression. -/

namespace StackScript

inductive Delimiter where
  | opening
  | closing
  | other
  deriving DecidableEq, Repr

/-- The first delimiter without a partner: a closing one before which nothing is open, or the
outermost opening one that is never closed. -/
inductive Imbalance where
  | unmatchedClose (index : Nat)
  | unclosed (index : Nat)
  deriving DecidableEq, Repr

def Imbalance.index : Imbalance → Nat
  | unmatchedClose index | unclosed index => index

namespace Delimiter

variable {α : Type}

/-- Classify by one opening and one closing item. -/
def between [DecidableEq α] (first last item : α) : Delimiter :=
  if item = first then opening else if item = last then closing else other

/-- Scan from an index on, with the indices of the delimiters still open, the innermost first. -/
def imbalanceFrom (classify : α → Delimiter) (index : Nat) (pending : List Nat) :
    List α → Option Imbalance
  | [] => pending.getLast?.map .unclosed
  | item :: items =>
      match classify item, pending with
      | opening, _ => imbalanceFrom classify (index + 1) (index :: pending) items
      | closing, [] => some (.unmatchedClose index)
      | closing, _ :: pending => imbalanceFrom classify (index + 1) pending items
      | other, _ => imbalanceFrom classify (index + 1) pending items

/-- What is wrong with the nesting of a list, if anything. -/
def imbalance? (classify : α → Delimiter) (items : List α) : Option Imbalance :=
  imbalanceFrom classify 0 [] items

/-- Index of the item that closes a group, seen from `depth` groups further in. -/
def findCloseFrom (classify : α → Delimiter) : (depth : Nat) → List α → Option Nat
  | _, [] => none
  | depth, item :: items =>
      match classify item, depth with
      | opening, depth => (findCloseFrom classify (depth + 1) items).map (· + 1)
      | closing, 0 => some 0
      | closing, depth + 1 => (findCloseFrom classify depth items).map (· + 1)
      | other, depth => (findCloseFrom classify depth items).map (· + 1)

/-- Index of the item that closes the group which was opened just before the list. -/
def findClose (classify : α → Delimiter) (items : List α) : Option Nat :=
  findCloseFrom classify 0 items

/-- Index of the partner of the opening item at an index. -/
def findPair (classify : α → Delimiter) (items : List α) (index : Nat) : Option Nat :=
  match items.drop index with
  | [] => none
  | item :: rest =>
      if classify item = opening then (findClose classify rest).map (index + 1 + ·) else none

/-- Whether the first and the last item are a pair that encloses all the others. -/
def isWrapped (classify : α → Delimiter) (items : List α) : Bool :=
  2 ≤ items.length && findPair classify items 0 == some (items.length - 1)

/-- Nesting depth of each item, starting at `depth`. A delimiter has the depth of the group that
it stands in, so both of a pair have the same. -/
def depthsFrom (classify : α → Delimiter) : (depth : Nat) → List α → List Nat
  | _, [] => []
  | depth, item :: items =>
      match classify item with
      | opening => depth :: depthsFrom classify (depth + 1) items
      | closing => (depth - 1) :: depthsFrom classify (depth - 1) items
      | other => depth :: depthsFrom classify depth items

/-- Nesting depth of each item. -/
def depths (classify : α → Delimiter) (items : List α) : List Nat := depthsFrom classify 0 items

/-- Round brackets in text. -/
def parenthesis : Char → Delimiter := between '(' ')'

/-- Curly brackets in text. -/
def brace : Char → Delimiter := between '\x7b' '\x7d'

end Delimiter

end StackScript
