import StackScript.Bytes
import StackScript.CommandLine.Path
import StackScript.Text.Offset
import StackScript.Text.Quoted

/-! # Files

The errors that reading and writing files can end in, and a working directory held in memory. -/

namespace StackScript

/-- What is wrong with a file: the system refuses it, or its contents or name are not usable. -/
inductive FileError where
  | system (code : Nat) (kind message : String)
  | unusable (kind message : String)
  deriving DecidableEq, Repr

namespace FileError

def notFound : FileError := system 2 "NotFound" "No such file or directory"

def notADirectory : FileError := system 20 "NotADirectory" "Not a directory"

def isADirectory : FileError := system 21 "IsADirectory" "Is a directory"

def nameTooLong : FileError := system 36 "InvalidFilename" "File name too long"

def nulInName : FileError :=
  unusable "InvalidInput" "file name contained an unexpected NUL byte"

def notText : FileError := unusable "InvalidData" "stream did not contain valid UTF-8"

def message : FileError → String
  | system code _ message => message ++ " (os error " ++ toString code ++ ")"
  | unusable _ message => message

/-- The error with all its parts. -/
def inspect : FileError → String
  | system code kind message =>
      "Os \x7b code: " ++ toString code ++ ", kind: " ++ kind ++ ", message: " ++
        Text.quoted message ++ " \x7d"
  | unusable kind message =>
      "Error \x7b kind: " ++ kind ++ ", message: " ++ Text.quoted message ++ " \x7d"

end FileError

inductive Entry where
  | file (contents : Bytes)
  | directory
  deriving DecidableEq, Repr

/-- A working directory: what lies at each path below it, as a list of names. Of what is outside of
it nothing is known: no file is found there, and one that is written there is out of sight. -/
structure Directory where
  entries : List (List (List Char) × Entry) := []
  deriving DecidableEq, Repr

namespace Directory

/-- What lies at a path below the directory. A path that others go through is a directory. -/
def entry? (dir : Directory) (names : List (List Char)) : Option Entry :=
  if names = [] then some .directory
  else
    match dir.entries.find? fun (path, _) => path == names with
    | some (_, entry) => some entry
    | none =>
        if dir.entries.any fun (path, _) => names.isPrefixOf path then some .directory else none

/-- A place that a path leads to: below the working directory, or outside of it. -/
abbrev Place := Option (List (List Char))

/-- What lies at a place. -/
def at? (dir : Directory) : Place → Option Entry
  | some names => dir.entry? names
  | none => some .directory

/-- Most bytes that the name of a file can have. -/
def maxNameLength : Nat := 255

/-- Most bytes that a path can have. -/
def maxPathLength : Nat := 4095

/-- Refuse paths that cannot lead anywhere. -/
def checkPath (path : String) : Except FileError Unit :=
  if '\x00' ∈ path.toList then .error .nulInName
  else if maxPathLength < path.utf8ByteSize then .error .nameTooLong
  else .ok ()

/-- Refuse names that no file can have. -/
def checkName (name : List Char) : Except FileError Unit :=
  if maxNameLength < Text.byteLength name then .error .nameTooLong else .ok ()

/-- Go from a place, which must be a directory, to the place with the given name in it. -/
def descend (dir : Directory) (place : Place) (name : List Char) : Except FileError Place :=
  match dir.at? place with
  | none => .error .notFound
  | some (.file _) => .error .notADirectory
  | some .directory =>
      if name = [] ∨ name = ['.'] then .ok place
      else if name = ['.', '.'] then
        match place with
        | none | some [] => .ok none
        | some names => .ok (some names.dropLast)
      else do
        checkName name
        match place with
        | none => .error .notFound
        | some names => .ok (some (names ++ [name]))

/-- Follow the names of a path. -/
def follow (dir : Directory) (place : Place) : List (List Char) → Except FileError Place
  | [] => .ok place
  | name :: names => do
      let place ← dir.descend place name
      dir.follow place names

/-- Where a path starts. -/
def startOf (path : String) : Place := if path.toList.head? = some '/' then none else some []

/-- The contents of a file. -/
def read (dir : Directory) (path : String) : Except FileError Bytes := do
  checkPath path
  let place ← dir.follow (startOf path) (Path.segments path.toList)
  match dir.at? place with
  | none => .error .notFound
  | some .directory => .error .isADirectory
  | some (.file contents) => .ok contents

/-- Names that cannot be the name of a file to be written. -/
def isDirectoryName (name : List Char) : Bool := name = [] || name = ['.'] || name = ['.', '.']

/-- Put a file in place of whatever was at a path. -/
def insert (dir : Directory) (names : List (List Char)) (contents : Bytes) : Directory :=
  ⟨dir.entries.filter (fun (path, _) => path != names) ++ [(names, .file contents)]⟩

/-- Write a file. The directory it goes to must exist. Slashes behind the last name ask for a
directory, whatever that name is. -/
def write (dir : Directory) (path : String) (contents : Bytes) : Except FileError Directory := do
  checkPath path
  let segments := Path.segments path.toList
  let slashes := (segments.reverse.takeWhile (· = [])).length
  let names := segments.take (segments.length - slashes)
  let name := names.getLast?.getD []
  let parent ← dir.follow (startOf path) (names.dropLast ++ [['.']])
  if isDirectoryName name || slashes != 0 then .error .isADirectory
  else do
    checkName name
    match parent with
    | none => .ok dir
    | some names =>
        let target := names ++ [name]
        if dir.entry? target = some .directory then .error .isADirectory
        else .ok (dir.insert target contents)

end Directory

end StackScript
