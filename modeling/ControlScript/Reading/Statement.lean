import ControlScript.Agenda
import ControlScript.Reading.Keywords
import ControlScript.Reading.Variables

/-!
# Reading statements

Statements, agendas and include directives read each other.  The recursion goes down by levels: an
agenda body or an included text is one level deeper than the statement or the directive that it
belongs to, and how many levels there may be is a setting.  Within a level every statement takes
text, so the text bounds their number.

How deep reading has come, and which files are open, is a state that is kept up to date on the
way.  Entering a level and opening a file are undone on leaving, but not after a fault.
-/

namespace ControlScript.Reading

open Scan

/-! ## 1. Settings and state -/

/-- The method that a control script consists of, and the number of levels below it. -/
structure Settings where
  entry : String := "Arts"
  maxDepth : Nat := 64
deriving DecidableEq

/-- What control scripts are read against. -/
structure Context where
  workspace : Workspace
  texts : TextSource
  settings : Settings := {}

/-- The number of levels that are entered, and the files that are open, outermost first. -/
structure Nesting where
  depth : Nat := 0
  files : List String := []
deriving DecidableEq

/-- The state of reading: the cursor in the innermost open file, and the nesting. -/
structure Progress where
  cursor : Cursor := .start "" []
  nesting : Nesting := {}
deriving DecidableEq

/-- A reader of some part of a control script. -/
abbrev Read := EStateM Fault Progress

/-- A scan at the cursor of the innermost file. -/
def scan {α : Type} (x : Scan α) : Read α := fun s =>
  match x.run s.cursor with
  | .ok a c => .ok a { s with cursor := c }
  | .error f c => .error f { s with cursor := c }

/-- Where the statements of an agenda end. -/
inductive Terminator where
  | brace
  | endOfText
deriving DecidableEq

/-! ## 2. Levels and files -/

/-- Enters a level, for the statement or the directive at `here`. -/
def enter (settings : Settings) (here : Position) : Read Unit := do
  if (← get).nesting.depth ≥ settings.maxDepth then
    throw ⟨.nestingTooDeep settings.maxDepth, here⟩
  modify fun s => { s with nesting.depth := s.nesting.depth + 1 }

/-- Leaves a level. -/
def leave : Read Unit := modify fun s => { s with nesting.depth := s.nesting.depth - 1 }

/-- Opens a file and moves to its beginning. -/
def openFile (text : IncludedText) : Read Unit := modify fun s =>
  { cursor := .start text.name text.text.toList
    nesting := { s.nesting with files := s.nesting.files ++ [text.name] } }

/-- Closes the innermost file and goes back to a cursor in the one around it. -/
def closeFile (outer : Cursor) : Read Unit := modify fun s =>
  { cursor := outer, nesting := { s.nesting with files := s.nesting.files.dropLast } }

/-! ## 3. Statements -/

/-- What stands in an agenda before its body is read. -/
inductive Head where
  | inclusion (path : String) (here : Position)
  | call (call : Call)
deriving DecidableEq

/-- An include directive, or the name of a method and its variables. -/
def head (w : Workspace) : Scan Head := do
  let here ← position
  let name ← requiredName .methodName
  if name = includeDirective then
    skipBlanks
    return .inclusion (← Literal.string) here
  match w.methods.find? name with
  | none => throw ⟨.unknownMethod name, here⟩
  | some base =>
    skipBlanks
    let bound ← bindVariables w base
    return .call ⟨bound.method, here, bound.outputs, bound.inputs⟩

/-- Whether the body of a call is in braces.  It has to be, unless everything in it may be left
    out. -/
def openBrace (method : Method) : Scan Bool := do
  skipBlanks
  let braced := (← peek) = some '\x7b' || !method.allDefaulted
  if braced then
    expect '\x7b'
  return braced

/-- The body of a call.  An agenda in braces is read one level deeper, by `nested`. -/
def statement (ctx : Context) (nested : Terminator → Read Agenda) (call : Call) :
    Read Statement := do
  let method := ctx.workspace.methods.get call.method
  let braced ← scan (openBrace method)
  let found ←
    if method.takesAgenda then
      if braced then do
        enter ctx.settings call.position
        let body ← nested .brace
        leave
        pure (Statement.agenda call body)
      else pure (Statement.agenda call [])
    else do
      pure (Statement.keywords call (← scan (bindKeywords method braced call.position)))
  if braced then
    scan (expect '\x7d')
  return found

/-! ## 4. Agendas -/

/-- The statements of an included text, which is read one level deeper, by `nested`.  A file that
    is open cannot be included. -/
def inclusion (ctx : Context) (nested : Terminator → Read Agenda) (path : String)
    (here : Position) : Read Agenda := do
  match ctx.texts path with
  | .error error => throw ⟨.notIncluded error, here⟩
  | .ok text =>
    let outer ← get
    let files := outer.nesting.files
    if text.name ∈ files then
      throw ⟨.includeCycle text.name (files ++ [text.name]), here⟩
    enter ctx.settings here
    openFile text
    let found ← nested .endOfText
    closeFile outer.cursor
    leave
    return found

/-- Whether the next thing is the end of the agenda. -/
def atTerminator : Terminator → Scan Bool
  | .brace => do return (← current) = '\x7d'
  | .endOfText => do return (← get).atEnd

/-- One turn of reading an agenda: a statement, or the statements of an included text, in front of
    which stand those of `found`, last first. -/
def agendaTurn (ctx : Context) (nested : Terminator → Read Agenda) (terminator : Terminator)
    (found : Agenda) : Read (Turn Agenda Agenda) := do
  scan skipBlanks
  if ← scan (atTerminator terminator) then
    return .done found.reverse
  match ← scan (head ctx.workspace) with
  | .inclusion path here =>
    let included ← inclusion ctx nested path here
    return .again (included.reverse ++ found)
  | .call call =>
    let next ← statement ctx nested call
    return .again (next :: found)

/-- The statements up to the terminator. -/
def agendaBy (ctx : Context) (nested : Terminator → Read Agenda) (terminator : Terminator) :
    Read Agenda := do
  takeTurns (agendaTurn ctx nested terminator) (scan (fail .endOfText)) (← get).cursor.rest []

/-- An agenda with at most `levels` levels below it.  Entering a level fails before the levels are
    used up, as long as they are not fewer than the settings allow. -/
def agenda (ctx : Context) : (levels : Nat) → Terminator → Read Agenda
  | 0 => agendaBy ctx fun _ => scan (fail (.nestingTooDeep ctx.settings.maxDepth))
  | levels + 1 => agendaBy ctx (agenda ctx levels)

end ControlScript.Reading
