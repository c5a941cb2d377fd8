import ControlScript.Literal

/-!
# Primitives

Everything that a script is read with on the level of characters, as data: what can be done with a
cursor, and the scans of blanks, names and literals.
-/

namespace ControlScript

/-- Something that can be done with a cursor. -/
inductive Primitive where
  | current
  | peek
  | advance
  | advanceLine
  | clearLineBreak
  | skipBlanks
  | name
  | expect (c : Char)
  | string
  | wholeNumeral
  | decimalNumeral
  | integer
  | float
  | stringList
  | integerList
  | floatList
  | value (kind : ValueKind)

namespace Primitive

/-- What a primitive finds. -/
def Found : Primitive → Type
  | current => Char
  | peek => Option Char
  | advance | advanceLine | clearLineBreak | skipBlanks | expect _ => Unit
  | name | string => String
  | wholeNumeral => WholeNumeral
  | decimalNumeral => DecimalNumeral
  | integer => Int64
  | float => Binary64
  | stringList => List String
  | integerList => List Int64
  | floatList => List Binary64
  | value _ => Value

/-- The scan that a primitive stands for. -/
def scan : (p : Primitive) → Scan p.Found
  | current => Scan.current
  | peek => Scan.peek
  | advance => Scan.advance
  | advanceLine => (modify Cursor.advanceLine : Scan Unit)
  | clearLineBreak => (modify Cursor.clearLineBreak : Scan Unit)
  | skipBlanks => Scan.skipBlanks
  | name => Scan.name
  | expect c => Scan.expect c
  | string => Literal.string
  | wholeNumeral => Literal.wholeNumeral
  | decimalNumeral => Literal.decimalNumeral
  | integer => Literal.integer
  | float => Literal.float
  | stringList => Literal.list Literal.string
  | integerList => Literal.list Literal.integer
  | floatList => Literal.list Literal.float
  | value kind => Literal.value kind

end Primitive

/-- The cursor that a scan leaves, whether it has found something or failed. -/
def Scan.left {α : Type} (x : Scan α) (c : Cursor) : Cursor :=
  match x c with
  | .ok _ c' => c'
  | .error _ c' => c'

/-- The cursor that a run of primitives leaves; each begins where the one in front of it ended or
    failed. -/
def Primitive.run (calls : List Primitive) (c : Cursor) : Cursor :=
  calls.foldl (fun c p => p.scan.left c) c

end ControlScript
