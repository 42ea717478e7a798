import StackScript.Binary32.Shortest
import StackScript.Bytecode.Listing
import StackScript.CommandLine.Arguments
import StackScript.CommandLine.Inspect
import StackScript.Context
import StackScript.Machine.Vm

/-! # Commands

What each command prints and writes, as a function of the files that it can read. -/

namespace StackScript

/-- Why a command fails. -/
inductive Failure where
  /-- A script could not be read. -/
  | source (error : FileError)
  | compile (error : Diagnostic)
  | runtime (fault : Fault)
  /-- Bytecode could not be read or written. -/
  | bytecode (error : FileError)
  | check (failed total : Nat)
  deriving DecidableEq, Repr

namespace Failure

/-- The error as it is told for a file among others. -/
def message : Failure → String
  | source error | bytecode error => error.message
  | compile error => error.message
  | runtime fault => fault.report
  | check failed total => toString failed ++ " of " ++ toString total ++ " files failed to compile"

/-- The error in full. -/
def inspect : Failure → String
  | source error => error.inspect
  | compile error => error.inspect
  | runtime fault => Inspect.tuple "Runtime" [fault.inspect]
  | bytecode error => Inspect.tuple "Io" [error.inspect]
  | check failed total => Text.quoted (message (check failed total))

end Failure

/-- The end of a command: its exit code and what it printed. -/
structure Report where
  exit : Nat := 0
  out : String := ""
  err : String := ""
  deriving DecidableEq, Repr

namespace Report

def failed (failure : Failure) (out : String) : Report :=
  { exit := 1, out, err := "Error: " ++ failure.inspect ++ "\n" }

/-- The report of a command that prints a text or fails before it prints anything. -/
def ofResult : Except Failure String → Report
  | .ok out => { out }
  | .error failure => failed failure ""

/-- The report on arguments that make no command. -/
def usage : Report :=
  { exit := 2
    err := "usage: sgl check FILES... | run FILE | build FILE [-o OUTPUT] | dis FILE | shell\n" }

def version : Report := { out := "sgl 0.1.0\n" }

end Report

namespace Command

/-- Read access to files. -/
abbrev Files := String → Except FileError Bytes

/-- Compile the script in a file. -/
def compileFile (files : Files) (path : String) : Except Failure Compilation := do
  let bytes ← (files path).mapError .source
  match String.fromUTF8? ⟨bytes.toArray⟩ with
  | none => .error (.source .notText)
  | some text => (compile Registry.builtins text).mapError .compile

/-- What is said of a script: whether it is right, and the line that tells so. -/
def checkFile (files : Files) (path : String) : Bool × String :=
  match compileFile files path with
  | .ok _ => (true, path ++ ": ok\n")
  | .error failure => (false, path ++ ": " ++ failure.message ++ "\n")

def checkFiles (files : Files) (paths : List String) : Report :=
  let results := paths.map (checkFile files)
  let out := String.join (results.map Prod.snd)
  let failures := (results.filter fun (ok, _) => !ok).length
  if failures = 0 then { out } else Report.failed (.check failures paths.length) out

/-- The line that shows a variable. One that was never written holds zero. -/
def variableLine (vm : Vm) (slot : UInt8) (symbol : Symbol) : String :=
  let cell := (vm.store.read? slot.toNat Cell.width).elim 0 Cell.ofBytes
  let value :=
    if symbol.ty.name = Ty.int32.name then toString cell.toInt
    else if symbol.ty.name = Ty.float.name then Binary32.toText cell
    else "?"
  symbol.name ++ ": " ++ symbol.ty.name ++ " = " ++ value ++ "\n"

/-- Run a script and show its variables. -/
def runFile (files : Files) (path : String) : Except Failure String := do
  let compilation ← compileFile files path
  let vm := (Vm.new none).run compilation.bytecode
  vm.outcome.mapError .runtime
  return String.join (compilation.symbols.live.map fun (slot, symbol) => variableLine vm slot symbol)

/-- Extension of scripts. -/
def sourceExtension : String := "sgl"

/-- Extension of files of bytecode. -/
def bytecodeExtension : String := "sglc"

/-- Where the bytecode of a script goes, and the bytecode. -/
def buildFile (files : Files) (path : String) (output : Option String) :
    Except Failure (String × Bytes) := do
  let compilation ← compileFile files path
  return (output.getD (Path.withExtension path bytecodeExtension), compilation.bytecode)

/-- What is said once bytecode was written. -/
def built (target : String) (bytecode : Bytes) : String :=
  "wrote " ++ toString bytecode.length ++ " bytes to " ++ target ++ "\n"

/-- The listing of a script's bytecode, or of the bytecode in a file of any other extension. -/
def disassembleFile (files : Files) (path : String) : Except Failure String := do
  let bytecode ←
    if Path.extension? path = some sourceExtension then
      (·.bytecode) <$> compileFile files path
    else
      (files path).mapError .bytecode
  return listing bytecode

/-! ## The shell -/

def prompt : String := "file (or quit)> "

/-- The answer to a line, unless it ends the shell. -/
def shellAnswer? (files : Files) (line : List Char) : Option String :=
  let name := String.ofList (Text.trim line)
  if name = "" then some ""
  else if name = "quit" then none
  else some (checkFile files name).2

/-- The lines of a text. A line break at the end starts no further line. -/
def inputLines : List Char → List (List Char)
  | [] => []
  | '\n' :: cs => [] :: inputLines cs
  | [c] => [[c]]
  | c :: '\n' :: cs => [c] :: inputLines cs
  | c :: cs =>
      match inputLines cs with
      | line :: rest => (c :: line) :: rest
      | [] => [[c]]

/-- Everything that the shell prints when it is given some lines. -/
def shellOutput (files : Files) : List (List Char) → String
  | [] => prompt
  | line :: lines =>
      match shellAnswer? files line with
      | none => prompt
      | some answer => prompt ++ answer ++ shellOutput files lines

/-! ## Commands in a directory -/

/-- Carry out a command in a directory held in memory. -/
def execute (command : Command) (dir : Directory) (input : List Char) : Report × Directory :=
  match command with
  | .check paths => (checkFiles dir.read paths, dir)
  | .run path => (Report.ofResult (runFile dir.read path), dir)
  | .build path output =>
      match buildFile dir.read path output with
      | .error failure => (Report.failed failure "", dir)
      | .ok (target, bytecode) =>
          match dir.write target bytecode with
          | .error error => (Report.failed (.bytecode error) "", dir)
          | .ok dir => ({ out := built target bytecode }, dir)
  | .disassemble path => (Report.ofResult (disassembleFile dir.read path), dir)
  | .shell => ({ out := shellOutput dir.read (inputLines input) }, dir)
  | .version => (Report.version, dir)

/-- Carry out a command line. -/
def executeArguments (args : List String) (dir : Directory) (input : List Char) :
    Report × Directory :=
  match ofArguments? args with
  | none => (Report.usage, dir)
  | some command => command.execute dir input

end Command

end StackScript
