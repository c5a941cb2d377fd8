import ControlScript.Command

/-!
# Arguments

The command line: a verb, and behind it in any order the file, options with a value and flags.  A
value follows its option or is attached to it; two hyphens end the options.  An argument that begins
with a hyphen is never the value of an option, unless it is the hyphen alone.
-/

namespace ControlScript.Command

/-! ## 1. Verbs and switches -/

/-- What the first argument asks for. -/
inductive Verb where
  | check
  | print
  | dump
deriving DecidableEq

namespace Verb

/-- The verb of a given name. -/
def ofName? : String → Option Verb
  | "check" => some check
  | "print" => some print
  | "dump" => some dump
  | _ => none

end Verb

/-- An option or a flag. -/
inductive Switch where
  | manifest
  | directory
  | entry
  | maxDepth
  | indent
  | compare
  | compact
  | help
deriving DecidableEq

namespace Switch

/-- Whether a value belongs to a switch. -/
def takesValue : Switch → Bool
  | manifest | directory | entry | maxDepth | indent => true
  | compare | compact | help => false

/-- The switch of a long name; some belong to one verb only. -/
def ofLongName? (verb : Verb) : String → Option Switch
  | "registry" => some manifest
  | "include-dir" => some directory
  | "entry" => some entry
  | "max-depth" => some maxDepth
  | "indent" => if verb = .print then some indent else none
  | "check" => if verb = .print then some compare else none
  | "compact" => if verb = .dump then some compact else none
  | "help" => some help
  | _ => none

/-- The switch of a letter. -/
def ofLetter? : Char → Option Switch
  | 'r' => some manifest
  | 'I' => some directory
  | 'h' => some help
  | _ => none

end Switch

/-! ## 2. Collected arguments -/

/-- Why the arguments give no command. -/
inductive Stop where
  | usage
  | help
  | version
deriving DecidableEq

/-- The exit code that goes with a reason: asking for information is no failure. -/
def Stop.exitCode : Stop → Nat
  | usage => 2
  | help | version => 0

/-- The arguments that are given so far. -/
structure Arguments where
  file : Option String := none
  manifest : Option String := none
  directories : List String := []
  entry : Option String := none
  maxDepth : Option Nat := none
  indent : Option Nat := none
  compare : Bool := false
  compact : Bool := false
deriving DecidableEq

/-- A natural number below `2 ^ 64`: decimal digits, perhaps behind a plus sign. -/
def number? (text : String) : Option Nat :=
  let digits := match text.toList with
    | '+' :: rest => rest
    | all => all
  let n := Decimal.ofDigits digits
  if !digits.isEmpty && digits.all Char.isDigit && n < UInt64.size then some n else none

/-- A value for something that may be given once. -/
def once {α : Type} (old : Option α) (new : Option α) : Except Stop (Option α) :=
  match old, new with
  | none, some value => .ok (some value)
  | _, _ => .error .usage

/-- A path, which is not empty. -/
def path? (text : String) : Option String := if text.isEmpty then none else some text

namespace Arguments

/-- Adds an argument that belongs to no option. -/
def addFile (args : Arguments) (text : String) : Except Stop Arguments := do
  return { args with file := ← once args.file (path? text) }

/-- Adds the value of an option. -/
def addValue (args : Arguments) (text : String) : Switch → Except Stop Arguments
  | .manifest => do return { args with manifest := ← once args.manifest (path? text) }
  | .directory =>
    match path? text with
    | some directory => .ok { args with directories := args.directories ++ [directory] }
    | none => .error .usage
  | .entry => do return { args with entry := ← once args.entry (some text) }
  | .maxDepth => do return { args with maxDepth := ← once args.maxDepth (number? text) }
  | .indent => do return { args with indent := ← once args.indent (number? text) }
  | .compare | .compact | .help => .error .usage

/-- Adds a flag, which may be given once. -/
def addFlag (args : Arguments) : Switch → Except Stop Arguments
  | .compare => if args.compare then .error .usage else .ok { args with compare := true }
  | .compact => if args.compact then .error .usage else .ok { args with compact := true }
  | .help => .error .help
  | _ => .error .usage

end Arguments

/-! ## 3. Reading arguments -/

/-- What a single argument is. -/
inductive Token where
  | plain
  | endOfOptions
  | switch (switch : Switch) (attached : Option String)
  | unknown
deriving DecidableEq

/-- The letters of a switch and what is attached to them, behind the first equals sign. -/
def splitAttached (text : List Char) : String × Option String :=
  let name := text.takeWhile (· != '=')
  match text.dropWhile (· != '=') with
  | [] => (.ofList name, none)
  | _ :: value => (.ofList name, some (.ofList value))

/-- What stands behind the letter of an option, where an equals sign may come first. -/
def attachedValue : List Char → Option String
  | [] => none
  | '=' :: value => some (.ofList value)
  | value => some (.ofList value)

/-- What an argument is to a verb.  Behind the letter of a flag nothing counts any more. -/
def token (verb : Verb) (argument : String) : Token :=
  match argument.toList with
  | ['-', '-'] => .endOfOptions
  | '-' :: '-' :: text =>
      let (name, attached) := splitAttached text
      match Switch.ofLongName? verb name with
      | some switch => .switch switch attached
      | none => .unknown
  | '-' :: letter :: text =>
      match Switch.ofLetter? letter with
      | some switch => .switch switch (if switch.takesValue then attachedValue text else none)
      | none => .unknown
  | _ => .plain

/-- Whether an argument can be the value of the option in front of it. -/
def canBeValue (argument : String) : Bool :=
  argument.toList.head? ≠ some '-' || argument = "-"

/-- Collects the arguments behind a verb; `pending` is an option that waits for its value. -/
def collect (verb : Verb) :
    (args : Arguments) → (pending : Option Switch) → List String → Except Stop Arguments
  | args, none, [] => .ok args
  | _, some _, [] => .error .usage
  | args, some switch, argument :: rest => do
      if !canBeValue argument then
        throw .usage
      collect verb (← args.addValue argument switch) none rest
  | args, none, argument :: rest =>
      match token verb argument with
      | .plain => do collect verb (← args.addFile argument) none rest
      | .endOfOptions => rest.foldlM Arguments.addFile args
      | .switch switch none =>
          if switch.takesValue then collect verb args (some switch) rest
          else do collect verb (← args.addFlag switch) none rest
      | .switch switch (some value) => do collect verb (← args.addValue value switch) none rest
      | .unknown => .error .usage

/-- The command that the collected arguments ask for. -/
def Arguments.command (args : Arguments) (verb : Verb) : Except Stop (Action × Request) :=
  match args.file, args.manifest with
  | some file, some manifest =>
    let action := match verb with
      | .check => Action.check
      | .print => .print (args.indent.getD 2) args.compare
      | .dump => .dump args.compact
    let defaults : Reading.Settings := {}
    let settings : Reading.Settings :=
      ⟨args.entry.getD defaults.entry, args.maxDepth.getD defaults.maxDepth⟩
    .ok (action, ⟨file, manifest, args.directories, settings⟩)
  | _, _ => .error .usage

/-- What the names behind a request for help ask for: nothing, a verb, or help itself. -/
def helpOn : List String → Stop
  | [] => .help
  | [name] => if name = "help" ∨ (Verb.ofName? name).isSome then .help else .usage
  | _ => .usage

/-- What an argument in the place of a verb asks for. -/
def withoutVerb (argument : String) : Stop :=
  match argument.toList with
  | '-' :: '-' :: name =>
      if name = "help".toList then .help
      else if name = "version".toList then .version
      else .usage
  | '-' :: 'h' :: _ => .help
  | '-' :: 'V' :: _ => .version
  | _ => .usage

/-- The command that a command line asks for. -/
def ofArguments : List String → Except Stop (Action × Request)
  | [] => .error .usage
  | first :: rest =>
      match Verb.ofName? first with
      | some verb => do (← collect verb {} none rest).command verb
      | none => .error (if first = "help" then helpOn rest else withoutVerb first)

end ControlScript.Command
