import ControlScript.Cursor
import ControlScript.Fault

/-!
# Scanning

A scan reads something at a cursor and moves the cursor behind it, or it fails.  A scan that fails
leaves the cursor where the fault was found, so a caller can see how far it came.  This module has
the scans that all others are made of: single characters, blanks and comments, names, and the
repetition of a scan.
-/

namespace ControlScript

/-- A scan with a result in `α`. -/
abbrev Scan := EStateM Fault Cursor

namespace Scan

/-! ## 1. Characters -/

/-- The next character, if the text has not ended. -/
def peek : Scan (Option Char) := do return (← get).peek

/-- The position of the next character. -/
def position : Scan Position := do return (← get).position

/-- Whether the last move passed a line feed. -/
def lineBroken : Scan Bool := do return (← get).lineBreak

/-- Fails at the next character. -/
def fail {α : Type} (cause : Cause) : Scan α := do throw ⟨cause, ← position⟩

/-- The next character, which has to be there. -/
def current : Scan Char := do
  match ← peek with
  | some c => return c
  | none => fail .endOfText

/-- Moves over one character. -/
def advance : Scan Unit := modify Cursor.advance

/-- Moves over a given character, which has to be there. -/
def expect (c : Char) : Scan Unit := do
  let found ← current
  if found ≠ c then
    fail (.unexpected (.character c) found)
  advance

/-- The longest run of characters with a property that line feeds do not have.  The cursor stays
    as it is when there is no such character. -/
def takeWhile (p : Char → Bool) : Scan (List Char) := do
  let taken := (← get).rest.takeWhile p
  if taken.isEmpty then
    return []
  modify (·.advanceBy taken.length)
  return taken

/-! ## 2. Blanks and comments -/

/-- The characters that separate tokens. -/
def isBlank (c : Char) : Bool := c = ' ' || c = '\t' || c = '\r' || c = '\n'

/-- The number of characters that blanks and comments take up at the beginning of a text, added to
    `n`.  A comment begins with a number sign and ends with its line. -/
def countBlanks (n : Nat) (inComment : Bool) : List Char → Nat
  | [] => n
  | c :: rest =>
      if inComment then countBlanks (n + 1) (c != '\n') rest
      else if c = '#' then countBlanks (n + 1) true rest
      else if isBlank c then countBlanks (n + 1) false rest
      else n

/-- Moves over blanks and comments, if there are any. -/
def skipBlanks : Scan Unit := modify fun c =>
  match countBlanks 0 false c.rest with
  | 0 => c
  | n => c.move n

/-! ## 3. Names -/

/-- The characters of names: letters and digits of ASCII, and the underscore. -/
def isNameChar (c : Char) : Bool := c.isAlphanum || c = '_'

/-- A name, which is empty when no name begins here.  The end of a line ends a name. -/
def name : Scan String := do return .ofList (← takeWhile isNameChar)

/-- A name that has to be there. -/
def requiredName (expected : Expected) : Scan String := do
  let found ← name
  if found.isEmpty then
    fail (.unexpected expected (← current))
  return found

end Scan

/-! ## 4. Repetition -/

/-- What comes after one turn of a repetition. -/
inductive Turn (σ β : Type) where
  | again (state : σ)
  | done (result : β)

/-- Takes turns until one of them is the last.  Every turn but the last takes at least one
    character, so a text is long enough to count them; `stuck` is for a turn that does not. -/
def takeTurns {ε ρ σ β : Type} (turn : σ → EStateM ε ρ (Turn σ β)) (stuck : EStateM ε ρ β)
    (text : List Char) (state : σ) : EStateM ε ρ β := do
  match ← turn state with
  | .done result => return result
  | .again next =>
    match text with
    | [] => stuck
    | _ :: fewer => takeTurns turn stuck fewer next

/-- Repeats a scan that takes at least one character in every turn but the last. -/
def Scan.repeat {σ β : Type} (turn : σ → Scan (Turn σ β)) (state : σ) : Scan β := do
  takeTurns turn (fail .endOfText) (← get).rest state

end ControlScript
