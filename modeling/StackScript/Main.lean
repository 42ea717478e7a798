import StackScript.CommandLine.Session

/-! # The program

Reads the files that a command names, carries the command out and prints its report. -/

namespace StackScript.Program

/-- The number of an error, which may come with its sign changed. -/
def errorNumber (code : UInt32) : Nat := code.toInt32.toInt.natAbs

/-- The errors of the system that a command tells apart. -/
def fileError : IO.Error → FileError
  | .noFileOrDirectory .. => .notFound
  | .inappropriateType _ code details =>
      match errorNumber code with
      | 20 => .notADirectory
      | 21 => .isADirectory
      | n => .system n "Uncategorized" details
  | .invalidArgument _ code details =>
      match errorNumber code with
      | 36 => .nameTooLong
      | n => .system n "InvalidInput" details
  | .permissionDenied _ code _ =>
      .system (errorNumber code) "PermissionDenied" "Permission denied"
  | error => .unusable "Other" (toString error)

def readFile (path : String) : IO (Except FileError Bytes) := do
  match ← (IO.FS.readBinFile path).toBaseIO with
  | .ok contents => return .ok contents.toList
  | .error error => return .error (fileError error)

/-- Read the files at some paths. -/
def readFiles (paths : List String) : IO Command.Files := do
  let contents ← paths.mapM fun path => return (path, ← readFile path)
  return fun path => (contents.lookup path).getD (.error .notFound)

def print (report : Report) : IO UInt32 := do
  (← IO.getStdout).putStr report.out
  (← IO.getStderr).putStr report.err
  return report.exit.toUInt32

def build (path : String) (output : Option String) : IO UInt32 := do
  match Command.buildFile (← readFiles [path]) path output with
  | .error failure => print (.failed failure "")
  | .ok (target, bytecode) =>
      match ← (IO.FS.writeBinFile target ⟨bytecode.toArray⟩).toBaseIO with
      | .error error => print (.failed (.bytecode (fileError error)) "")
      | .ok () => print { out := Command.built target bytecode }

/-- Prompt for lines until one ends the shell or there are no more. -/
partial def shell (input output : IO.FS.Stream) : IO UInt32 := do
  output.putStr Command.prompt
  output.flush
  let line := (← input.getLine).toList
  if line.isEmpty then return 0
  let files ← readFiles [String.ofList (Text.trim line)]
  match Command.shellAnswer? files line with
  | none => return 0
  | some answer =>
      output.putStr answer
      shell input output

def run (command : Command) : IO UInt32 := do
  match command with
  | .check paths => print (Command.checkFiles (← readFiles paths) paths)
  | .run path => print (.ofResult (Command.runFile (← readFiles [path]) path))
  | .build path output => build path output
  | .disassemble path => print (.ofResult (Command.disassembleFile (← readFiles [path]) path))
  | .shell => shell (← IO.getStdin) (← IO.getStdout)
  | .version => print .version

end StackScript.Program

def main (args : List String) : IO UInt32 := do
  match StackScript.Command.ofArguments? args with
  | none => StackScript.Program.print .usage
  | some command => StackScript.Program.run command
