import ControlScript.Cursor

/-!
# Cursors over bytes

A cursor as it can be kept over the bytes of a text: the text stays whole, an offset into its bytes
says which character is next, and lines and columns are counted in thirty-two bits.  The offset, the
line and the column are kept apart from each other, and each routine changes them on its own.
-/

namespace ControlScript

/-- A text, the offset of the next character in it, and how lines and columns are counted so far. -/
structure ByteCursor where
  file : String
  source : String
  offset : String.Pos.Raw := 0
  line : UInt32 := 1
  column : UInt32 := 1
  lineBreak : Bool := false

namespace ByteCursor

/-! ## 1. Looking -/

/-- The text in front of the offset. -/
def passed (b : ByteCursor) : String := String.Pos.Raw.extract b.source 0 b.offset

/-- The text from the offset on.  It is empty where no character begins. -/
def rest (b : ByteCursor) : String := b.offset.extract b.source b.source.rawEndPos

/-- The next character, if the text has not ended. -/
def peek (b : ByteCursor) : Option Char := b.rest.toList.head?

/-- What is next in a text is in front of its end. -/
theorem lt_of_peek {b : ByteCursor} {c : Char} (h : b.peek = some c) :
    b.offset.byteIdx < b.source.utf8ByteSize := by
  rw [← Nat.not_le]
  intro hle
  have hrest : b.rest = "" := if_pos hle
  rw [peek, hrest] at h
  cases h

/-! ## 2. Moving -/

/-- Forgets that the last move passed a line feed. -/
def clearLineBreak (b : ByteCursor) : ByteCursor := { b with lineBreak := false }

/-- Passes the line feeds that are next. -/
def passFeeds (b : ByteCursor) : ByteCursor :=
  if b.peek = some '\n' then
    passFeeds { b with
      offset := ⟨b.offset.byteIdx + 1⟩
      line := b.line + 1
      column := 1
      lineBreak := true }
  else b
termination_by b.source.utf8ByteSize - b.offset.byteIdx
decreasing_by
  rename_i h
  exact Nat.sub_lt_sub_left (lt_of_peek h) (Nat.lt_succ_self _)

/-- A cursor at the first character of a text that is no line feed. -/
def start (file source : String) : ByteCursor := (passFeeds { file, source }).clearLineBreak

/-- Moves over one character; at the end of the text there is none left to move over. -/
def advance (b : ByteCursor) : ByteCursor :=
  let b := b.clearLineBreak
  match b.peek with
  | some c => passFeeds { b with offset := b.offset + c, column := b.column + 1 }
  | none => b.passFeeds

/-- Moves to the next line that is not empty. -/
def advanceLine (b : ByteCursor) : ByteCursor :=
  let b := b.clearLineBreak
  let line := b.rest.toList.takeWhile (· != '\n')
  passFeeds { b with
    offset := b.offset + String.ofList line
    column := b.column + .ofNat line.length }

/-- The cursor that shows what is left of the text and where that is. -/
def view (b : ByteCursor) : Cursor where
  file := b.file
  rest := b.rest.toList
  place := ⟨b.line.toNat, b.column.toNat⟩
  lineBreak := b.lineBreak

end ByteCursor

/-! ## 3. Moves -/

/-- The three ways to change a cursor. -/
inductive Move where
  | advance
  | advanceLine
  | clearLineBreak
deriving DecidableEq

namespace Move

/-- What a move does to a cursor. -/
def onCursor (c : Cursor) : Move → Cursor
  | advance => c.advance
  | advanceLine => c.advanceLine
  | clearLineBreak => c.clearLineBreak

/-- What a move does to a cursor over bytes. -/
def onBytes (b : ByteCursor) : Move → ByteCursor
  | advance => b.advance
  | advanceLine => b.advanceLine
  | clearLineBreak => b.clearLineBreak

end Move

end ControlScript
