import StackScript.Bytes

/-! # The variable store

Values of variables by slot number. The store grows up to the highest slot written; slots below
it that were never written hold nothing. -/

namespace StackScript

structure VariableStore where
  slots : List (Option Bytes) := []
  deriving DecidableEq, Repr

namespace VariableStore

/-- Number of slots that the store has grown to, written or not. -/
def size (store : VariableStore) : Nat := store.slots.length

def isEmpty (store : VariableStore) : Bool := store.size == 0

/-- The bytes in a slot. -/
def get? (store : VariableStore) (slot : Nat) : Option Bytes := store.slots[slot]?.join

def isAllocated (store : VariableStore) (slot : Nat) : Bool := (store.get? slot).isSome

def write (store : VariableStore) (slot : Nat) (value : Bytes) : VariableStore :=
  { slots := (store.slots ++ List.replicate (slot + 1 - store.size) none).set slot (some value) }

/-- The value in a slot, if it was written with the given width. -/
def read? (store : VariableStore) (slot width : Nat) : Option Bytes :=
  (store.get? slot).filter fun value => value.length == width

end VariableStore

end StackScript
