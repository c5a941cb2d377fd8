import ControlScript.Agenda.Json
import ControlScript.Canonical
import ControlScript.Disk
import ControlScript.Json.Text
import ControlScript.Manifest.Json
import ControlScript.Reading

/-!
# Commands

What can be done with a control script in a file: check it, print it in canonical form or compare
it with that form, and dump its agenda as JSON.  A command is a function of what it finds on disk.
-/

namespace ControlScript

namespace Command

/-! ## 1. Requests -/

/-- The files of a command and the settings of reading. -/
structure Request where
  file : String
  manifest : String
  directories : List String := []
  settings : Reading.Settings := {}
deriving DecidableEq

/-- What is done with the agenda of a script. -/
inductive Action where
  | check
  | print (indent : Nat) (compare : Bool)
  | dump (compact : Bool)
deriving DecidableEq

/-- A request with the directories of an include path behind its own; the parts of the path are
    separated by colons, and empty parts do not count. -/
def Request.withIncludePath (request : Request) (path : Option String) : Request :=
  match path with
  | none => request
  | some path =>
    let parts := (stringPieces ':' path).filter (!·.isEmpty)
    { request with directories := request.directories ++ parts }

/-! ## 2. Failures -/

/-- The greatest number of bytes of a control script. -/
def sizeLimit : Nat := 16 * 1024 * 1024

/-- Why a command fails.  A fault comes with the text that it points into, if that can be read. -/
inductive Failure where
  | noWorkspace (error : ManifestError)
  | inaccessible (path : String) (error : AccessError)
  | tooLarge (path : String) (size : Nat)
  | unreadable (path : String) (error : AccessError)
  | faulty (fault : Fault) (source : Option String)
  | notCanonical (path : String)
deriving DecidableEq

/-- The text of a failure. -/
def Failure.message : Failure → String
  | noWorkspace error => s!"Error: {error.message}"
  | inaccessible path error => s!"Cannot access file '{path}': {error.message}"
  | tooLarge path size =>
      s!"Source file '{path}' is too large ({size} bytes, max {sizeLimit} bytes)"
  | unreadable path error => s!"Error reading file '{path}': {error.message}"
  | faulty fault source => fault.diagnostic.render source
  | notCanonical path => s!"{path} is not in canonical form"

/-! ## 3. Compiling -/

/-- A script that was read. -/
structure Compiled where
  workspace : Workspace
  source : String
  agenda : Agenda

/-- The workspace of the manifest at a path. -/
def loadWorkspace (disk : Disk) (path : String) : Except Failure Workspace :=
  match disk.readText path with
  | .error error => .error (.noWorkspace (.unreadable path error.message))
  | .ok text => (Workspace.ofManifestText text).mapError .noWorkspace

/-- The text of the control script at a path. -/
def loadSource (disk : Disk) (path : String) : Except Failure String := do
  let size ← (disk.size path).mapError (.inaccessible path)
  if size > sizeLimit then
    throw (.tooLarge path size)
  (disk.readText path).mapError (.unreadable path)

/-- The text that a fault points into: the script itself, or an included file. -/
def faultSource (disk : Disk) (file source : String) (fault : Fault) : Option String :=
  if fault.position.file = file then some source
  else (disk.readText fault.position.file).toOption

/-- Reads the manifest and the script of a request. -/
def compile (disk : Disk) (request : Request) : Except Failure Compiled := do
  let workspace ← loadWorkspace disk request.manifest
  let source ← loadSource disk request.file
  let ctx : Reading.Context := ⟨workspace, disk.texts request.directories, request.settings⟩
  match Reading.parse ctx request.file source with
  | .ok agenda => return ⟨workspace, source, agenda⟩
  | .error fault => throw (.faulty fault (faultSource disk request.file source fault))

/-! ## 4. Reports -/

/-- What a command has to say when it succeeds: a line, a whole text, or nothing. -/
inductive Report where
  | line (text : String)
  | whole (text : String)
  | silent
deriving DecidableEq

/-- The line about a script that is accepted. -/
def acceptance (file : String) (count : Nat) : String :=
  let ending := if count = 1 then "" else "s"
  s!"{file}: ok ({count} statement{ending})"

/-- Carries out a command. -/
def run (disk : Disk) (action : Action) (request : Request) : Except Failure Report := do
  let compiled ← compile disk request
  match action with
  | .check => return .line (acceptance request.file (Agenda.count compiled.agenda))
  | .print indent compare =>
    let layout : Canonical.Layout := { indentWidth := indent }
    let text := Canonical.text compiled.workspace layout request.settings.entry compiled.agenda
    if !compare then
      return .whole text
    if text ≠ compiled.source then
      throw (.notCanonical request.file)
    return .silent
  | .dump compact =>
    let tree := Agenda.toJson compiled.workspace compiled.agenda
    return .line (if compact then tree.compact else tree.pretty)

end Command

end ControlScript
