import ControlScript.Scan
import ControlScript.Value

/-!
# Literals

Scans for the literals of the control language: strings, whole numbers, numbers with a fraction or
an exponent, and lists of these.  A literal of one line never goes on in the next: the end of a
line ends a number that is complete and is a fault in one that is not, and in a string.
-/

namespace ControlScript.Literal

open Scan

/-! ## 1. Strings -/

/-- The characters between two double quotes on one line, as they are. -/
def string : Scan String := do
  let opening ← position
  expect '"'
  if ← lineBroken then
    throw ⟨.lineBreak .string, opening.nextColumn⟩
  let body ← takeWhile fun c => c != '"' && c != '\n'
  if !body.isEmpty && (← lineBroken) then
    throw ⟨.lineBreak .string, { opening with column := opening.column + 1 + body.length }⟩
  expect '"'
  return .ofList body

/-! ## 2. Numbers -/

/-- A sign, if there is one; the number has to follow on the same line. -/
def sign? : Scan (Option Sign) := do
  match (← peek).bind Sign.ofChar? with
  | none => return none
  | some sign =>
    let here ← position
    advance
    if ← lineBroken then
      throw ⟨.lineBreak .sign, here.nextColumn⟩
    return some sign

/-- The longest run of decimal digits. -/
def digits : Scan (List Char) := takeWhile Char.isDigit

/-- A whole number as it is written. -/
def wholeNumeral : Scan WholeNumeral := do
  let sign ← sign?
  let first ← current
  if !first.isDigit then
    fail (.unexpected .digit first)
  return ⟨sign, ← digits⟩

/-- A point and the digits behind it, if there is a point.  A line may end in the point of a number
    that has digits in front of it. -/
def fraction? (whole : List Char) : Scan (Option (List Char)) := do
  if (← peek) ≠ some '.' then
    return none
  let here ← position
  advance
  if ← lineBroken then
    if whole.isEmpty then
      throw ⟨.lineBreak .point, here.nextColumn⟩
    return some []
  return some (← digits)

/-- An exponent and its mark, if there is a mark. -/
def exponent? : Scan (Option (Char × WholeNumeral)) := do
  match ← peek with
  | none => return none
  | some mark =>
    if mark ≠ 'e' ∧ mark ≠ 'E' then
      return none
    let here ← position
    advance
    if ← lineBroken then
      throw ⟨.lineBreak .exponentMark, here.nextColumn⟩
    return some (mark, ← wholeNumeral)

/-- A number as it is written.  It ends with the line once it has a digit. -/
def decimalNumeral : Scan DecimalNumeral := do
  let start ← position
  let sign ← sign?
  let whole ← digits
  if !whole.isEmpty && (← lineBroken) then
    return ⟨sign, whole, none, none⟩
  let fraction ← fraction? whole
  if fraction.isSome && (← lineBroken) then
    return ⟨sign, whole, fraction, none⟩
  if whole.isEmpty && (fraction.getD []).isEmpty then
    throw ⟨.noDigit, start⟩
  return ⟨sign, whole, fraction, ← exponent?⟩

/-- An integer of sixty-four bits. -/
def integer : Scan Int64 := do
  let start ← position
  let numeral ← wholeNumeral
  match numeral.value? with
  | some n => return n
  | none => throw ⟨.integerOutOfRange (.ofList numeral.chars), start⟩

/-- A finite double. -/
def float : Scan Binary64 := do
  let start ← position
  let numeral ← decimalNumeral
  match numeral.value? with
  | some x => return x
  | none => throw ⟨.numberOutOfRange (.ofList numeral.chars), start⟩

/-! ## 3. Lists -/

/-- Items in brackets, with a comma between neighbours and none behind the last. -/
def list {α : Type} (item : Scan α) : Scan (List α) := do
  expect '['
  skipBlanks
  let items ← Scan.repeat (σ := List α) (fun found => do
    if (← current) = ']' then
      return .done found.reverse
    if !found.isEmpty then
      expect ','
      skipBlanks
    let next ← item
    skipBlanks
    return .again (next :: found)) []
  advance
  return items

/-! ## 4. Values -/

/-- A value of a given kind. -/
def value : ValueKind → Scan Value
  | .string => Value.string <$> string
  | .integer => Value.integer <$> integer
  | .float => Value.float <$> float
  | .stringList => Value.stringList <$> list string
  | .integerList => Value.integerList <$> list integer
  | .floatList => Value.floatList <$> list float

end ControlScript.Literal
