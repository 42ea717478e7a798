/-! # Command line arguments -/

namespace StackScript

inductive Command where
  /-- Compile scripts and say which of them are right. -/
  | check (paths : List String)
  /-- Compile and run a script, then show its variables. -/
  | run (path : String)
  /-- Compile a script into a file of bytecode. -/
  | build (path : String) (output : Option String)
  /-- List bytecode, or that of a script. -/
  | disassemble (path : String)
  /-- Ask for scripts to check. -/
  | shell
  | version
  deriving DecidableEq, Repr

namespace Command

/-- One argument of a command. -/
inductive Argument where
  | path (text : String)
  /-- The output option, with its value if that is part of the argument. -/
  | output (value : Option String)
  /-- Everything behind it is a path. -/
  | escape
  | unknown
  deriving DecidableEq, Repr

/-- Read one argument. A dash by itself is a path. -/
def Argument.ofText (text : String) : Argument :=
  match text.toList with
  | ['-', '-'] => .escape
  | '-' :: '-' :: option =>
      let name := option.takeWhile (· != '=')
      if name = "output".toList then
        match option.drop name.length with
        | [] => .output none
        | _ :: value => .output (some (String.ofList value))
      else .unknown
  | ['-', 'o'] => .output none
  | '-' :: 'o' :: '=' :: value => .output (some (String.ofList value))
  | '-' :: 'o' :: value => .output (some (String.ofList value))
  | '-' :: _ :: _ => .unknown
  | _ => .path text

/-- The paths and the output path given to a command. -/
structure Operands where
  paths : List String := []
  output : Option String := none
  deriving DecidableEq, Repr

/-- Set the output path, which can be done once only. -/
def Operands.setOutput? (operands : Operands) (value : String) : Option Operands :=
  if operands.output.isSome ∨ value = "" then none else some { operands with output := some value }

/-- Read the arguments of a command. While the output option waits for its value, the next argument
has to be that value and must not look like an option. -/
def operands? (operands : Operands) (waiting : Bool) : List String → Option Operands
  | [] => if waiting then none else some operands
  | arg :: args =>
      match waiting, Argument.ofText arg with
      | true, .path value | false, .output (some value) =>
          (operands.setOutput? value).bind fun operands => operands? operands false args
      | true, _ | false, .unknown => none
      | false, .output none => operands? operands true args
      | false, .path path => operands? { operands with paths := operands.paths ++ [path] } false args
      | false, .escape => some { operands with paths := operands.paths ++ args }

/-- Read a command line. Paths must not be empty. -/
def ofArguments? : List String → Option Command
  | [] => none
  | name :: args =>
      if name = "--version" ∨ name.toList.take 2 = ['-', 'V'] then some .version
      else
        match operands? {} false args with
        | none => none
        | some operands =>
            if "" ∈ operands.paths then none
            else
              match name, operands.paths, operands.output with
              | "check", path :: paths, none => some (.check (path :: paths))
              | "run", [path], none => some (.run path)
              | "build", [path], output => some (.build path output)
              | "dis", [path], none => some (.disassemble path)
              | "shell", [], none => some .shell
              | _, _, _ => none

end Command

end StackScript
