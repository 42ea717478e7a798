import StackScript.Bytecode.Instr

/-! # Types and the type registry

A type is known by its name; size and alignment are kept for the host. Programs may use the types
that are registered before they are compiled. -/

namespace StackScript

structure Ty where
  name : String
  size : Nat
  alignment : Nat
  deriving DecidableEq, Repr

namespace Ty

def int32 : Ty := ⟨"int32", 4, 4⟩

def float : Ty := ⟨"float", 4, 4⟩

/-- The type of what leaves no value. -/
def void : Ty := ⟨"void", 0, 0⟩

def isVoid (ty : Ty) : Bool := ty.name == void.name

/-- The instruction that converts a value of one type to another. Only integers and floats can be
converted into each other. -/
def castInstr? (source target : Ty) : Option Instr :=
  if source.name = int32.name ∧ target.name = float.name then some .intToFloat
  else if source.name = float.name ∧ target.name = int32.name then some .floatToInt
  else none

end Ty

/-- The refusal of a second type of the same name. -/
structure DuplicateType where
  name : String
  deriving DecidableEq, Repr

def DuplicateType.message (e : DuplicateType) : String :=
  "type with specifier '" ++ e.name ++ "' already registered"

/-- The registered types, in the order of their registration. -/
structure Registry where
  types : List Ty := []
  deriving DecidableEq, Repr

namespace Registry

def empty : Registry := {}

/-- The types that every host offers. -/
def builtins : Registry := ⟨[Ty.int32, Ty.float, Ty.void]⟩

def lookup? (registry : Registry) (name : String) : Option Ty :=
  registry.types.find? fun ty => ty.name == name

def isRegistered (registry : Registry) (name : String) : Bool := (registry.lookup? name).isSome

/-- Add a type. A name that is taken keeps its type. -/
def register (registry : Registry) (ty : Ty) : Except DuplicateType Registry :=
  if registry.isRegistered ty.name then .error ⟨ty.name⟩
  else .ok ⟨registry.types ++ [ty]⟩

/-- Add types one after the other and pass over those whose name is taken. -/
def registerAll (registry : Registry) (types : List Ty) : Registry :=
  types.foldl (fun r ty => (r.register ty).toOption.getD r) registry

def size (registry : Registry) : Nat := registry.types.length

def isEmpty (registry : Registry) : Bool := registry.size == 0

/-- The registered names in alphabetical order. -/
def names (registry : Registry) : List String :=
  (registry.types.map Ty.name).mergeSort fun a b => decide (a ≤ b)

end Registry

end StackScript
