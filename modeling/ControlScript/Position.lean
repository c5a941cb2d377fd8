/-!
# Positions

Where something stands in a text: lines and columns count from one, and a column is one character.
A place is found by walking over the text in front of it.
-/

namespace ControlScript

/-- A line and a column of some text. -/
structure Place where
  line : Nat := 1
  column : Nat := 1
deriving DecidableEq

namespace Place

/-- The place behind a character: a line feed leads to the next line. -/
def after (p : Place) (c : Char) : Place :=
  if c = '\n' then ⟨p.line + 1, 1⟩ else ⟨p.line, p.column + 1⟩

/-- The place behind a run of characters. -/
def afterAll (p : Place) (text : List Char) : Place := text.foldl after p

@[simp] theorem afterAll_nil (p : Place) : p.afterAll [] = p := rfl

@[simp] theorem afterAll_cons (p : Place) (c : Char) (text : List Char) :
    p.afterAll (c :: text) = (p.after c).afterAll text := rfl

/-- Walking over two runs is walking over the first and then over the second. -/
theorem afterAll_append (p : Place) (s t : List Char) :
    p.afterAll (s ++ t) = (p.afterAll s).afterAll t := List.foldl_append

end Place

/-- A place in a named file. -/
structure Position where
  file : String
  line : Nat
  column : Nat
deriving DecidableEq

namespace Position

/-- The position one column further on the same line. -/
def nextColumn (p : Position) : Position := { p with column := p.column + 1 }

/-- A position as text: file, line and column. -/
def text (p : Position) : String := s!"{p.file}:{p.line}:{p.column}"

end Position

end ControlScript
