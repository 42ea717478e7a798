/-! # Paths

A path is a sequence of names with slashes between them. -/

namespace StackScript.Path

/-- The names between the slashes. Two slashes side by side, and one at either end, have an empty
name beside them. -/
def segments : List Char → List (List Char)
  | [] => [[]]
  | '/' :: cs => [] :: segments cs
  | c :: cs =>
      match segments cs with
      | segment :: rest => (c :: segment) :: rest
      | [] => [[c]]

/-- The last name of a path, provided that it leads to something in a directory. -/
def fileName? (path : String) : Option (List Char) :=
  let names := (segments path.toList).filter fun s => s != [] && s != ['.']
  names.getLast?.filter fun s => s != ['.', '.']

/-- A file name cut at its last dot. A dot at the very start does not count. -/
def splitName (name : List Char) : List Char × Option (List Char) :=
  let extension := (name.reverse.takeWhile (· != '.')).reverse
  let stem := name.take (name.length - extension.length - 1)
  if stem = [] then (name, none) else (stem, some extension)

/-- What stands behind the last dot of the file name. -/
def extension? (path : String) : Option String :=
  (fileName? path).bind fun name => (splitName name).2.map String.ofList

/-- The path up to the dot before its extension. -/
def clearExtension (path : String) : String :=
  match extension? path with
  | none => path
  | some extension => String.ofList (path.toList.take (path.length - extension.length))

/-- Put an extension behind the stem of the file name. A path without a file name stays as it is. -/
def setExtension (path extension : String) : String :=
  if (fileName? path).isNone then path
  else
    let name := (path.toList.reverse.takeWhile (· != '/')).reverse
    let parent := path.toList.take (path.length - name.length)
    String.ofList (parent ++ (splitName name).1) ++ "." ++ extension

/-- The path with another extension in place of its own. Where two dots are all that is left without
the old one, the path leads to the directory above and takes no extension. -/
def withExtension (path extension : String) : String :=
  setExtension (clearExtension path) extension

end StackScript.Path
