import ControlScript.Inclusion

/-!
# Files

What a program sees of a file system: for every path either what is found there, under the name
that is the same for all paths to it, or why nothing is.
-/

namespace ControlScript

/-! ## 1. Access -/

/-- Why a path leads to nothing that can be read. -/
inductive AccessError where
  | notFound
  | notDirectory
  | isDirectory
  | nameTooLong
  | notText
  | other (reason : String)
deriving DecidableEq

namespace AccessError

/-- The text of an error. -/
def message : AccessError → String
  | notFound => "No such file or directory (os error 2)"
  | notDirectory => "Not a directory (os error 20)"
  | isDirectory => "Is a directory (os error 21)"
  | nameTooLong => "File name too long (os error 36)"
  | notText => "stream did not contain valid UTF-8"
  | other reason => reason

end AccessError

/-- What a file holds: a text, or bytes that are none. -/
inductive FileContent where
  | text (text : String)
  | binary (size : Nat)
deriving DecidableEq

namespace FileContent

/-- The content of a file with the given bytes. -/
def ofBytes (bytes : ByteArray) : FileContent :=
  match String.fromUTF8? bytes with
  | some s => text s
  | none => binary bytes.size

/-- The number of bytes of a file. -/
def size : FileContent → Nat
  | text s => s.utf8ByteSize
  | binary n => n

/-- The text of a file. -/
def read : FileContent → Except AccessError String
  | text s => .ok s
  | binary _ => .error .notText

end FileContent

/-- What is found at a path. -/
inductive DiskItem where
  | file (content : FileContent)
  | directory
deriving DecidableEq

/-- An item and its name, the absolute path without detours. -/
structure DiskEntry where
  name : String
  item : DiskItem
deriving DecidableEq

/-- A file system, as a function from paths. -/
abbrev Disk := String → Except AccessError DiskEntry

namespace Disk

/-- A file system of which only some paths are known; at other paths nothing is found. -/
def ofList (known : List (String × Except AccessError DiskEntry)) : Disk := fun path =>
  (List.lookup path known).getD (.error .notFound)

/-- The number of bytes at a path; a directory counts none. -/
def size (disk : Disk) (path : String) : Except AccessError Nat := do
  match (← disk path).item with
  | .file content => return content.size
  | .directory => return 0

/-- The text of the file at a path. -/
def readText (disk : Disk) (path : String) : Except AccessError String := do
  match (← disk path).item with
  | .file content => content.read
  | .directory => throw .isDirectory

/-! ## 2. Included files -/

/-- Whether a path begins at the root of the file system. -/
def isAbsolute (path : String) : Bool := path.toList.head? = some '/'

/-- A path as seen from a directory. -/
def join (directory path : String) : String :=
  if isAbsolute path || directory.isEmpty then path
  else if directory.toList.getLast? = some '/' then directory ++ path
  else directory ++ "/" ++ path

/-- Where an included file is looked for: an absolute path only there, any other path from the
    working directory and then from each of the given directories. -/
def candidates (directories : List String) (path : String) : List String :=
  if isAbsolute path then [path] else path :: directories.map (join · path)

/-- The included texts that are found in the given directories.  The first candidate that is a file
    counts, whether it can be read or not. -/
def texts (disk : Disk) (directories : List String) : TextSource := fun path =>
  let found := (candidates directories path).findSome? fun candidate =>
    match disk candidate with
    | .ok ⟨name, .file content⟩ => some (candidate, name, content)
    | _ => none
  match found with
  | none => .error (.notFound path ("." :: directories))
  | some (candidate, name, content) =>
    match content.read with
    | .ok text => .ok ⟨name, text⟩
    | .error error => .error (.unreadable candidate error.message)

end Disk

end ControlScript
