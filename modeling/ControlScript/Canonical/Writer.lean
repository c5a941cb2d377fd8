import ControlScript.Canonical

/-!
# Writing canonical text

Canonical text is written from its beginning to its end.  A writer knows the level that it is on and
how much of the current line is written; it indents a line when the first character of the line is
written, and whether the bindings of a statement fit is decided before that.
-/

namespace ControlScript.Canonical

/-! ## 1. Writers -/

/-- The text that is written so far, and where the writer is in it. -/
structure Writer where
  layout : Layout
  output : String := ""
  level : Nat := 0
  atLineStart : Bool := true
  lineLength : Nat := 0

namespace Writer

/-- Goes one level down; the lines that follow are indented further. -/
def indent (out : Writer) : Writer := { out with level := out.level + 1 }

/-- Goes one level up, but not above the outermost one. -/
def dedent (out : Writer) : Writer := { out with level := out.level - 1 }

/-- The indentation of a line, at its start only. -/
def writeIndent (out : Writer) : Writer :=
  if out.atLineStart then
    let width := out.level * out.layout.indentWidth
    { out with
      output := out.output ++ .ofList (List.replicate width ' ')
      lineLength := width
      atLineStart := false }
  else out

/-- Writes a text, with the indentation if the line is empty; no text needs no indentation. -/
def write (out : Writer) (text : String) : Writer :=
  if text.isEmpty then out
  else
    let out := out.writeIndent
    { out with output := out.output ++ text, lineLength := out.lineLength + text.length }

/-- Ends a line. -/
def newline (out : Writer) : Writer :=
  { out with output := out.output ++ "\n", atLineStart := true, lineLength := 0 }

/-- Writes a text and ends the line. -/
def writeln (out : Writer) (text : String) : Writer := (out.write text).newline

/-- Whether a text would make the current line too long. -/
def wouldExceed (out : Writer) (additional : Nat) : Bool :=
  let current := if out.atLineStart then out.level * out.layout.indentWidth else out.lineLength
  out.layout.lineLength < current + additional

/-! ## 2. Blocks -/

/-- A block: its head, what is inside, and the brace that closes it. -/
def block (out : Writer) (head : String) (inside : Writer → Writer) : Writer :=
  (inside (out.writeln (head ++ " \x7b")).indent).dedent.writeln "\x7d"

/-- The block of an agenda; without statements it is on one line. -/
def agendaBlock (out : Writer) (head : String) (body : Agenda) (inside : Writer → Writer) :
    Writer :=
  if body.isEmpty then out.writeln (head ++ " \x7b\x7d") else out.block head inside

/-- A statement with keywords; without values there are no braces. -/
def keywords (out : Writer) (head : String) (values : List Value) (bindings : List String) :
    Writer :=
  if values.isEmpty then out.writeln head
  else
    let inLine := head ++ " \x7b " ++ ", ".intercalate bindings ++ " \x7d"
    let singleLine :=
      match out.layout.keywords with
      | .inline => true
      | .multiline => false
      | .auto => !out.wouldExceed inLine.length
    if singleLine then out.writeln inLine
    else out.block head fun out => bindings.foldl writeln out

mutual

/-- Writes a statement. -/
def statement (w : Workspace) (s : Statement) (out : Writer) : Writer :=
  match s with
  | .keywords call values =>
      let keywords := (w.methods.get call.method).keywords
      out.keywords (head w call) values (List.zipWith binding keywords values)
  | .agenda call body => out.agendaBlock (head w call) body (statements w body)

/-- Writes one statement after the other. -/
def statements (w : Workspace) (a : List Statement) (out : Writer) : Writer :=
  match a with
  | [] => out
  | s :: rest => statements w rest (statement w s out)

end

end Writer

/-! ## 3. Scripts -/

/-- The text that is written for an agenda as the body of `entry`. -/
def print (w : Workspace) (layout : Layout) (entry : String) (agenda : Agenda) : String :=
  let out : Writer := { layout }
  (out.agendaBlock entry agenda (Writer.statements w agenda)).output

end ControlScript.Canonical
