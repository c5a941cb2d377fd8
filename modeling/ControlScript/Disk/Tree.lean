import ControlScript.Disk
import ControlScript.Pieces

/-!
# File trees

A file system as a value: directories with named entries, and a working directory.  A path is
walked step by step from the root or from the working directory.  Paths and the names in them have
a greatest length, in bytes, beyond which nothing is looked up.
-/

namespace ControlScript

/-- A file, or a directory with its entries. -/
inductive FileTree where
  | file (content : FileContent)
  | directory (entries : List (String × FileTree))

namespace FileTree

/-! ## 1. Building -/

/-- A directory without entries. -/
def empty : FileTree := directory []

/-- The entries of a directory; a file has none. -/
def entries : FileTree → List (String × FileTree)
  | file _ => []
  | directory entries => entries

/-- Puts a tree at the place that the given names lead to; directories on the way are made. -/
def insert (item : FileTree) : List String → FileTree → FileTree
  | [], _ => item
  | name :: rest, tree =>
      let inner := insert item rest ((List.lookup name tree.entries).getD empty)
      directory ((name, inner) :: tree.entries.filter (·.1 ≠ name))

/-! ## 2. Walking -/

/-- A place in a tree: the names and items on the way there, innermost first. -/
abbrev Trail := List (String × FileTree)

/-- The item at a place. -/
def itemAt (root : FileTree) (trail : Trail) : FileTree := (trail.head?.map (·.2)).getD root

/-- The absolute path of a place. -/
def nameOf (trail : Trail) : String := "/" ++ "/".intercalate (trail.reverse.map (·.1))

/-- The greatest number of bytes of a path. -/
def maxPathSize : Nat := 4095

/-- The greatest number of bytes of a name in a path. -/
def maxNameSize : Nat := 255

/-- One step of a path.  Only from a directory does a step lead anywhere, even the step that stays;
    the step up from the root stays at the root. -/
def step (root : FileTree) (trail : Trail) (name : String) : Except AccessError Trail :=
  match root.itemAt trail with
  | file _ => .error .notDirectory
  | directory entries =>
      if name = "" ∨ name = "." then .ok trail
      else if name = ".." then .ok trail.tail
      else if name.utf8ByteSize > maxNameSize then .error .nameTooLong
      else
        match List.lookup name entries with
        | some item => .ok ((name, item) :: trail)
        | none => .error .notFound

/-- The place that a path leads to, seen from a working directory. -/
def walk (root : FileTree) (working : Trail) (path : String) : Except AccessError Trail :=
  if path.isEmpty then .error .notFound
  else if path.utf8ByteSize > maxPathSize then .error .nameTooLong
  else
    (stringPieces '/' path).foldlM root.step (if Disk.isAbsolute path then [] else working)

/-- The file system of a tree, seen from the working directory with the given absolute path. -/
def disk (root : FileTree) (working : String) : Disk := fun path => do
  let start ← root.walk [] working
  let trail ← root.walk start path
  match root.itemAt trail with
  | file content => return ⟨nameOf trail, .file content⟩
  | directory _ => return ⟨nameOf trail, .directory⟩

end FileTree

end ControlScript
