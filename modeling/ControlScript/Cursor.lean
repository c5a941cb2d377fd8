import ControlScript.Position

/-!
# Cursors

A cursor walks over a text and never shows a line feed: whenever it moves, it also passes the line
feeds behind the characters that it moves over, and remembers whether there were any.  A scanner
can so tell that a literal was broken by the end of a line.
-/

namespace ControlScript

/-- What is left of a text, where that stands, and whether the last move passed a line feed. -/
structure Cursor where
  file : String
  rest : List Char
  place : Place
  lineBreak : Bool
deriving DecidableEq

namespace Cursor

/-! ## 1. Moving -/

/-- The number of line feeds at the beginning of a text. -/
def feeds (text : List Char) : Nat := (text.takeWhile (· == '\n')).length

/-- Moves over `n` characters, line feeds included. -/
def move (c : Cursor) (n : Nat) : Cursor :=
  let passed := c.rest.take n
  { c with
    rest := c.rest.drop n
    place := c.place.afterAll passed
    lineBreak := passed.getLast? == some '\n' }

/-- Moves over `n` characters of the line and over the line feeds behind them. -/
def advanceBy (c : Cursor) (n : Nat) : Cursor := c.move (n + feeds (c.rest.drop n))

/-- A cursor at the first character of a text that is no line feed. -/
def start (file : String) (text : List Char) : Cursor :=
  { move ⟨file, text, {}, false⟩ (feeds text) with lineBreak := false }

/-- Moves over one character; at the end of the text there is none left to move over. -/
def advance (c : Cursor) : Cursor := c.advanceBy 1

/-- The number of characters that are left of the current line. -/
def lineLength (text : List Char) : Nat := (text.takeWhile (· != '\n')).length

/-- Moves to the next line that is not empty. -/
def advanceLine (c : Cursor) : Cursor := c.advanceBy (lineLength c.rest)

/-- Forgets that the last move passed a line feed. -/
def clearLineBreak (c : Cursor) : Cursor := { c with lineBreak := false }

/-! ## 2. Looking -/

/-- The next character, if the text has not ended. -/
def peek (c : Cursor) : Option Char := c.rest.head?

/-- Whether the text has ended. -/
def atEnd (c : Cursor) : Bool := c.rest.isEmpty

/-- The position of the next character. -/
def position (c : Cursor) : Position := ⟨c.file, c.place.line, c.place.column⟩

end Cursor

end ControlScript
