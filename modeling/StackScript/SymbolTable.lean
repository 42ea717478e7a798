import StackScript.Diagnostic
import StackScript.Ty

/-! # Variables and their slots

Each variable of a program lives in a slot, whose number is the operand of the instructions that
load and store it. A new variable gets the lowest free slot. -/

namespace StackScript

structure Symbol where
  name : String
  ty : Ty
  deriving DecidableEq, Repr

/-- Number of slots that a table starts with. -/
def initialSlots : Nat := 10

/-- A slot number is a byte. -/
def maxSlots : Nat := 256

structure SymbolTable where
  slots : List (Option Symbol) := List.replicate initialSlots none
  deriving DecidableEq, Repr

namespace SymbolTable

/-- The live variables by slot number. -/
def live (table : SymbolTable) : List (UInt8 × Symbol) :=
  table.slots.zipIdx.filterMap fun (symbol?, index) =>
    symbol?.map fun symbol => (UInt8.ofNat index, symbol)

/-- Slot and symbol of a live variable. -/
def lookup? (table : SymbolTable) (name : String) : Option (UInt8 × Symbol) :=
  table.live.find? fun (_, symbol) => symbol.name == name

def findSlot? (table : SymbolTable) (name : String) : Option UInt8 :=
  (table.lookup? name).map Prod.fst

/-- The variable in a slot. -/
def get? (table : SymbolTable) (slot : UInt8) : Option Symbol := table.slots[slot.toNat]?.join

/-- Number of live variables. -/
def size (table : SymbolTable) : Nat := (table.slots.filter Option.isSome).length

def isEmpty (table : SymbolTable) : Bool := table.size == 0

/-- Give a new variable the lowest free slot. -/
def declare (table : SymbolTable) (name : String) (ty : Ty) : Except Cause (UInt8 × SymbolTable) :=
  if (table.findSlot? name).isSome then .error (.duplicateIdentifier name)
  else
    match table.slots.findIdx? Option.isNone with
    | some index => .ok (UInt8.ofNat index, ⟨table.slots.set index (some ⟨name, ty⟩)⟩)
    | none =>
        if table.slots.length < maxSlots then
          .ok (UInt8.ofNat table.slots.length, ⟨table.slots ++ [some ⟨name, ty⟩]⟩)
        else
          .error .tooManyVariables

/-- Release a slot. Its variable, if it had one, is handed back. -/
def free (table : SymbolTable) (slot : UInt8) : Option Symbol × SymbolTable :=
  (table.get? slot, ⟨table.slots.set slot.toNat none⟩)

end SymbolTable

end StackScript
