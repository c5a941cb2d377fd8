import ControlScript.Pieces
import ControlScript.Position

/-!
# Diagnostics

A report that a control script is not accepted: the kind of fault, a message, and the position that
the message is about.  A report has a one-line text, and a rendering that quotes the line of source
it points into.
-/

namespace ControlScript

/-! ## 1. Kinds of faults -/

/-- What sort of fault a report is about. -/
inductive FaultKind where
  | unexpectedCharacter
  | illegalLineBreak
  | malformed
  | unknownMethod
  | unknownVariable
  | wrongGroup
  | unknownKeyword
  | endOfText
  | wrongEntry
  | includeUnavailable
  | includeCycle
  | nestingTooDeep
deriving DecidableEq

namespace FaultKind

/-- The heading of a report. -/
def label : FaultKind → String
  | unexpectedCharacter => "Unexpected character"
  | illegalLineBreak => "Illegal line break"
  | malformed => "Parse error"
  | unknownMethod => "Unknown method"
  | unknownVariable => "Unknown workspace variable"
  | wrongGroup => "Wrong workspace variable group"
  | unknownKeyword => "Unknown keyword"
  | endOfText => "Unexpected end of file"
  | wrongEntry => "Wrong entry point"
  | includeUnavailable => "Include file not found"
  | includeCycle => "Include cycle"
  | nestingTooDeep => "Nesting too deep"

/-- The stable identifier of a kind of fault. -/
def code : FaultKind → String
  | unexpectedCharacter => "controlfile::unexpected_char"
  | illegalLineBreak => "controlfile::illegal_linebreak"
  | malformed => "controlfile::parse_error"
  | unknownMethod => "controlfile::unknown_method"
  | unknownVariable => "controlfile::unknown_wsv"
  | wrongGroup => "controlfile::wrong_wsv_group"
  | unknownKeyword => "controlfile::unexpected_keyword"
  | endOfText => "controlfile::eot"
  | wrongEntry => "controlfile::wrong_entry_point"
  | includeUnavailable => "controlfile::include_not_found"
  | includeCycle => "controlfile::include_cycle"
  | nestingTooDeep => "controlfile::nesting_too_deep"

/-- Advice on the faults that have a usual cause. -/
def help? : FaultKind → Option String
  | illegalLineBreak => some "strings and numbers must fit on one line"
  | wrongGroup => some "generic methods take the group of their first variable"
  | includeUnavailable =>
      some "add the directory holding the file to the include search path"
  | _ => none

end FaultKind

/-- A report; only faults that concern no text have no position. -/
structure Diagnostic where
  kind : FaultKind
  message : String
  position : Option Position
deriving DecidableEq

namespace Diagnostic

/-- The one-line text of a report. -/
def text (d : Diagnostic) : String := s!"{d.kind.label}: {d.message}"

/-! ## 2. Quoting a line of source -/

/-- A line without a carriage return at its end. -/
def dropReturn (line : List Char) : List Char :=
  if line.getLast? = some '\r' then line.dropLast else line

/-- The lines of a text, in which a line feed ends a line and a carriage return right in front of
    it belongs to the line end.  A text that ends with a line feed has no further, empty line. -/
def linesOf (text : List Char) : List (List Char) :=
  let found := pieces '\n' text
  let ended := found.dropLast.map dropReturn
  match found.getLast? with
  | some (c :: rest) => ended ++ [c :: rest]
  | _ => ended

/-- The escape sequences that colour a rendering; all of them are empty in plain text. -/
structure Palette where
  red : String := ""
  cyan : String := ""
  bold : String := ""
  reset : String := ""

namespace Palette

/-- No colours. -/
def plain : Palette := {}

/-- The colours of a terminal. -/
def terminal : Palette where
  red := "\x1b[31m"
  cyan := "\x1b[36m"
  bold := "\x1b[1m"
  reset := "\x1b[0m"

end Palette

/-- A text of `n` blanks. -/
def blanks (n : Nat) : String := .ofList (List.replicate n ' ')

/-- The quoted line with its number in the margin, and a caret under the given column. -/
def quote (p : Palette) (line column : Nat) (text : List Char) : String :=
  let number := String.ofList (Nat.toDigits 10 line)
  let margin := blanks number.length
  s!"  {p.cyan}{margin} |{p.reset}\n" ++
  s!"  {p.cyan}{number} |{p.reset} {String.ofList text}\n" ++
  s!"  {p.cyan}{margin} |{p.reset} {blanks (column - 1)}{p.red}^{p.reset}\n"

/-- A report for the reader of a terminal: heading, position, and the line of `source` that the
    position points into, where there is one. -/
def renderWith (p : Palette) (d : Diagnostic) (source : Option String) : String :=
  let heading := s!"{p.bold}{p.red}{d.kind.label}{p.reset}{p.bold}: {d.message}{p.reset}\n"
  match d.position with
  | none => heading
  | some position =>
    let arrow := s!"  {p.cyan}-->{p.reset} {position.text}\n"
    let line := source.bind fun s => (linesOf s.toList)[position.line - 1]?
    heading ++ arrow ++ (line.map (quote p position.line position.column)).getD ""

/-- A report in plain text. -/
def render (d : Diagnostic) (source : Option String) : String := d.renderWith .plain source

end Diagnostic

end ControlScript
