import ControlScript.Json
import ControlScript.Scan

/-!
# Reading JSON

A strict reader: one value and nothing behind it but blanks, no control characters and no unpaired
surrogates in strings, no zeros in front of a number, no comma behind the last item.
-/

namespace ControlScript.Json

/-- A reader of a part of a JSON text; what is left of the text is its state. -/
abbrev Reader := EStateM Unit (List Char)

namespace Reader

/-! ## 1. Characters -/

/-- Fails; a text that is not JSON needs no further explanation. -/
def refuse {α : Type} : Reader α := throw ()

/-- The next character, if the text has not ended. -/
def peek : Reader (Option Char) := do return (← get).head?

/-- Takes one character. -/
def next : Reader Char := do
  match ← get with
  | [] => refuse
  | c :: rest =>
    set rest
    return c

/-- Takes a given character. -/
def expect (c : Char) : Reader Unit := do
  if (← next) ≠ c then
    refuse

/-- Takes the longest run of characters with a property. -/
def takeWhile (p : Char → Bool) : Reader (List Char) := do
  let text ← get
  set (text.dropWhile p)
  return text.takeWhile p

/-- Takes the blanks that may stand between the parts of a value. -/
def skipBlanks : Reader Unit :=
  modify (·.dropWhile fun c => c = ' ' || c = '\t' || c = '\r' || c = '\n')

/-- Takes a given word. -/
def word (text : String) : Reader Unit := text.toList.forM expect

/-! ## 2. Strings -/

/-- The value of a hexadecimal digit. -/
def hexValue? (c : Char) : Option Nat :=
  if c.isDigit then some (c.toNat - '0'.toNat)
  else if 'a' ≤ c ∧ c ≤ 'f' then some (c.toNat - 'a'.toNat + 10)
  else if 'A' ≤ c ∧ c ≤ 'F' then some (c.toNat - 'A'.toNat + 10)
  else none

/-- A hexadecimal digit. -/
def hexDigit : Reader Nat := do
  match hexValue? (← next) with
  | some n => return n
  | none => refuse

/-- A number of four hexadecimal digits. -/
def codeUnit : Reader Nat := do
  let a ← hexDigit
  let b ← hexDigit
  let c ← hexDigit
  let d ← hexDigit
  return ((a * 16 + b) * 16 + c) * 16 + d

/-- The character of an escape with hexadecimal digits: one code unit, or a surrogate pair that is
    written as two escapes. -/
def unicodeEscape : Reader Char := do
  let unit ← codeUnit
  if 0xD800 ≤ unit ∧ unit < 0xDC00 then
    expect '\\'
    expect 'u'
    let low ← codeUnit
    if 0xDC00 ≤ low ∧ low < 0xE000 then
      return .ofNat (0x10000 + (unit - 0xD800) * 0x400 + (low - 0xDC00))
    refuse
  if 0xDC00 ≤ unit ∧ unit < 0xE000 then
    refuse
  return .ofNat unit

/-- The character of an escape, behind its backslash. -/
def escape : Reader Char := do
  match ← next with
  | '\"' => return '\"'
  | '\\' => return '\\'
  | '/' => return '/'
  | 'b' => return '\x08'
  | 'f' => return '\x0c'
  | 'n' => return '\n'
  | 'r' => return '\r'
  | 't' => return '\t'
  | 'u' => unicodeEscape
  | _ => refuse

/-- The characters of a string, behind its opening quote. -/
def stringBody : Reader String := do
  takeTurns (σ := List Char) (fun found => do
    match ← next with
    | '\"' => return .done (.ofList found.reverse)
    | '\\' => return .again ((← escape) :: found)
    | c =>
      if c.toNat < 0x20 then
        refuse
      return .again (c :: found)) refuse (← get) []

/-! ## 3. Numbers -/

/-- At least one decimal digit. -/
def digits : Reader (List Char) := do
  let found ← takeWhile Char.isDigit
  if found.isEmpty then
    refuse
  return found

/-- Digits before the point: a zero stands alone. -/
def wholeDigits : Reader (List Char) := do
  let found ← digits
  if found.length > 1 ∧ found.head? = some '0' then
    refuse
  return found

/-- A sign of an exponent, if there is one. -/
def exponentSign : Reader (Option Sign) := do
  match (← peek).bind Sign.ofChar? with
  | some sign =>
    let _ ← next
    return some sign
  | none => return none

/-- A number; without a fraction and an exponent it is an integer. -/
def number : Reader Json := do
  let mut sign : Option Sign := none
  if (← peek) = some '-' then
    let _ ← next
    sign := some .minus
  let whole ← wholeDigits
  let mut fraction : Option (List Char) := none
  if (← peek) = some '.' then
    let _ ← next
    fraction := some (← digits)
  let mut exponent : Option (Char × WholeNumeral) := none
  if (← peek) = some 'e' ∨ (← peek) = some 'E' then
    let mark ← next
    let exponentSign ← exponentSign
    exponent := some (mark, ⟨exponentSign, ← digits⟩)
  if fraction.isNone ∧ exponent.isNone then
    return .integer (WholeNumeral.mk sign whole).toInt
  match (DecimalNumeral.mk sign whole fraction exponent).value? with
  | some x => return .float x
  | none => refuse

/-! ## 4. Values -/

/-- Items up to a closing bracket, with a comma between neighbours. -/
def items {α : Type} (closing : Char) (item : Reader α) : Reader (List α) := do
  skipBlanks
  if (← peek) = some closing then
    let _ ← next
    return []
  takeTurns (σ := List α) (fun found => do
    let found := (← item) :: found
    skipBlanks
    let c ← next
    if c = closing then
      return .done found.reverse
    if c ≠ ',' then
      refuse
    return .again found) refuse (← get) []

/-- A name, a colon and a value. -/
def namedField (value : Reader Json) : Reader (String × Json) := do
  skipBlanks
  expect '\"'
  let name ← stringBody
  skipBlanks
  expect ':'
  return (name, ← value)

/-- A value that is nested less than `depth` deep. -/
def value : (depth : Nat) → Reader Json
  | 0 => refuse
  | depth + 1 => do
    skipBlanks
    match ← peek with
    | some '\x7b' =>
      let _ ← next
      return .object (← items '\x7d' (namedField (value depth)))
    | some '[' =>
      let _ ← next
      return .array (← items ']' (value depth))
    | some '\"' =>
      let _ ← next
      return .string (← stringBody)
    | some 't' =>
      word "true"
      return .bool true
    | some 'f' =>
      word "false"
      return .bool false
    | some 'n' =>
      word "null"
      return .null
    | _ => number

end Reader

/-- The depth to which the values of a JSON text may be nested. -/
def maxDepth : Nat := 128

/-- The value of a JSON text. -/
def ofText? (text : String) : Option Json :=
  match (Reader.value maxDepth <* Reader.skipBlanks).run text.toList with
  | .ok value [] => some value
  | _ => none

end ControlScript.Json
