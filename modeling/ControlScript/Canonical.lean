import ControlScript.Agenda

/-!
# Canonical text

The canonical text of an agenda is a control script again: a statement to a line, every level
indented by the same width, all values written out.  A text is a list of lines, each of which knows
its level, so what a line looks like depends on nothing that was written before it.
-/

namespace ControlScript.Canonical

/-! ## 1. Settings -/

/-- How keywords are laid out: on the line of their method or each on a line of its own. -/
inductive KeywordLayout where
  | auto
  | inline
  | multiline
deriving DecidableEq

/-- The measures of a text. -/
structure Layout where
  indentWidth : Nat := 2
  lineLength : Nat := 100
  keywords : KeywordLayout := .auto
deriving DecidableEq

/-! ## 2. Lines -/

/-- A line and the number of blocks that are open around it. -/
structure Line where
  level : Nat
  text : String
deriving DecidableEq

/-- The length of a line, indentation included. -/
def Layout.lineWidth (layout : Layout) (line : Line) : Nat :=
  line.level * layout.indentWidth + line.text.length

/-- A line as it is written. -/
def Layout.render (layout : Layout) (line : Line) : String :=
  .ofList (List.replicate (line.level * layout.indentWidth) ' ') ++ line.text ++ "\n"

/-- A block: its head, the lines inside, and the line that closes it. -/
def block (level : Nat) (head : String) (inside : List Line) : List Line :=
  ⟨level, head ++ " \x7b"⟩ :: inside ++ [⟨level, "\x7d"⟩]

/-- A block that shows at once when there is nothing inside. -/
def agendaBlock (level : Nat) (head : String) (inside : List Line) : List Line :=
  if inside.isEmpty then [⟨level, head ++ " \x7b\x7d"⟩] else block level head inside

/-! ## 3. Statements -/

/-- The name and the variables of a call.  A generic method is called by its own name, which its
    first variable resolves again. -/
def head (w : Workspace) (call : Call) : String :=
  let name := (w.methods.calledAs call.method).name
  let names := (call.outputs ++ call.inputs).map fun id => (w.vars.get id).name
  if names.isEmpty then name else name ++ "(" ++ ", ".intercalate names ++ ")"

/-- A keyword and its value. -/
def binding (keyword : Keyword) (value : Value) : String := keyword.name ++ " = " ++ value.text

/-- Whether bindings go on the line of their method. -/
def Layout.inLine (layout : Layout) (line : Line) : Bool :=
  match layout.keywords with
  | .auto => layout.lineWidth line ≤ layout.lineLength
  | .inline => true
  | .multiline => false

/-- The lines of a statement whose bindings are given; without bindings there are no braces. -/
def keywordLines (layout : Layout) (level : Nat) (head : String) (bindings : List String) :
    List Line :=
  if bindings.isEmpty then [⟨level, head⟩]
  else
    let inLine : Line := ⟨level, head ++ " \x7b " ++ ", ".intercalate bindings ++ " \x7d"⟩
    if layout.inLine inLine then [inLine]
    else block level head (bindings.map (Line.mk (level + 1)))

mutual

/-- The lines of a statement. -/
def statementLines (w : Workspace) (layout : Layout) (level : Nat) : Statement → List Line
  | .keywords call values =>
      let keywords := (w.methods.get call.method).keywords
      keywordLines layout level (head w call) (List.zipWith binding keywords values)
  | .agenda call body =>
      agendaBlock level (head w call) (agendaLines w layout (level + 1) body)

/-- The lines of the statements of an agenda. -/
def agendaLines (w : Workspace) (layout : Layout) (level : Nat) : List Statement → List Line
  | [] => []
  | s :: rest => statementLines w layout level s ++ agendaLines w layout level rest

end

/-! ## 4. Scripts -/

/-- The lines of the control script that calls `entry` with a given agenda. -/
def lines (w : Workspace) (layout : Layout) (entry : String) (agenda : Agenda) : List Line :=
  agendaBlock 0 entry (agendaLines w layout 1 agenda)

/-- The canonical text of an agenda. -/
def text (w : Workspace) (layout : Layout) (entry : String) (agenda : Agenda) : String :=
  String.join ((lines w layout entry agenda).map layout.render)

end ControlScript.Canonical
