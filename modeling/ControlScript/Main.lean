import ControlScript.Command.Outcome

/-!
# The program

The outer layer of the command line.  A command is a function of a file system of which only some
paths are known; when it fails because of a path that was not looked up, that path is looked up and
the command is carried out again.
-/

namespace ControlScript.Command

/-- The paths that a failure may be owed to, if nothing is known about them. -/
def Failure.paths (request : Request) : Failure → List String
  | noWorkspace (.unreadable path _) => [path]
  | inaccessible path _ => [path]
  | faulty ⟨.notIncluded (.notFound path _), _⟩ _ => Disk.candidates request.directories path
  | _ => []

/-- The number of a system error, which may be reported as the complement of its opposite. -/
def errorNumber (code : UInt32) : Nat := min code.toNat (UInt32.size - code.toNat)

/-- The error that an operation on a file reports. -/
def accessError : IO.Error → AccessError
  | .noFileOrDirectory .. => .notFound
  | .inappropriateType _ code details | .invalidArgument _ code details =>
    match errorNumber code with
    | 20 => .notDirectory
    | 21 => .isDirectory
    | 36 => .nameTooLong
    | n => .other s!"{details} (os error {n})"
  | .permissionDenied .. => .other "Permission denied (os error 13)"
  | error => .other (toString error)

/-- What the file of a given name holds; reading a directory is how directories are told. -/
def readItem (name : String) : IO (Except AccessError DiskItem) := do
  try
    return .ok (.file (.ofBytes (← IO.FS.readBinFile name)))
  catch error =>
    match accessError error with
    | .isDirectory => return .ok .directory
    | other => return .error other

/-- What the file system has at a path. -/
def lookUp (path : String) : IO (Except AccessError DiskEntry) := do
  match ← readItem path with
  | .error error => return .error error
  | .ok item => return .ok ⟨(← IO.FS.realPath path).toString, item⟩

/-- Carries out a command and looks up the paths that it turns out to need. -/
partial def settle (action : Action) (request : Request)
    (known : List (String × Except AccessError DiskEntry)) : IO (Except Failure Report) := do
  let result := run (.ofList known) action request
  let wanted := match result with
    | .ok _ => []
    | .error failure =>
      (failure.paths request).filter fun path => (List.lookup path known).isNone
  if wanted.isEmpty then
    return result
  let mut known := known
  for path in wanted do
    let found ← lookUp path
    known := (path, found) :: known
    if let .ok entry := found then
      known := known ++ [(entry.name, found)]
  settle action request known

/-- The outcome of a command line. -/
def perform (arguments : List String) : IO Outcome := do
  match ofArguments arguments with
  | .error stop => return stop.outcome
  | .ok (action, request) =>
    let includePath ← IO.getEnv "CONTROLFILE_INCLUDE_PATH"
    return outcome (← settle action (request.withIncludePath includePath) [])

end ControlScript.Command

/-- Runs the command line. -/
def main (arguments : List String) : IO UInt32 := do
  let outcome ← ControlScript.Command.perform arguments
  (← IO.getStdout).putStr outcome.output
  (← IO.getStderr).putStr outcome.errors
  return outcome.exitCode.toUInt32
