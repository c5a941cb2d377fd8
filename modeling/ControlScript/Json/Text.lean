import ControlScript.Json

/-!
# JSON as text

A compact form on one line, and a form with one item to a line.  Both escape only what has to be
escaped: double quotes, backslashes and control characters.
-/

namespace ControlScript.Json

/-! ## 1. Strings and numbers -/

/-- Doubles in JSON are positional from `10 ^ (-5)` up to `10 ^ 16`, positive exponents carry their
    sign, and of two equally near shortest numbers the even one is written. -/
def floatStyle : Binary64.Style := ⟨-5, true, .even⟩

/-- A hexadecimal digit in lower case. -/
def hexDigit (n : Nat) : Char := Nat.digitChar n

/-- A character inside a JSON string. -/
def escape (c : Char) : List Char :=
  match c with
  | '\"' => ['\\', '\"']
  | '\\' => ['\\', '\\']
  | '\n' => ['\\', 'n']
  | '\r' => ['\\', 'r']
  | '\t' => ['\\', 't']
  | '\x08' => ['\\', 'b']
  | '\x0c' => ['\\', 'f']
  | c =>
      if c.toNat < 0x20 then
        ['\\', 'u', '0', '0', hexDigit (c.toNat / 16), hexDigit (c.toNat % 16)]
      else [c]

/-- A string as a JSON literal. -/
def quoted (text : String) : String := "\"" ++ .ofList (text.toList.flatMap escape) ++ "\""

/-- An integer as a JSON literal. -/
def integerText (n : Int) : String :=
  .ofList ((if n < 0 then ['-'] else []) ++ Decimal.digitsOf n.natAbs)

/-! ## 2. The compact form -/

mutual

/-- A value without any blanks between its parts. -/
def compact : Json → String
  | null => "null"
  | bool b => if b then "true" else "false"
  | integer n => integerText n
  | float x => .ofList (floatStyle.text x)
  | string text => quoted text
  | array items => "[" ++ ",".intercalate (compactItems items) ++ "]"
  | object fields => "\x7b" ++ ",".intercalate (compactFields fields) ++ "\x7d"

/-- The items of an array, each as text. -/
def compactItems : List Json → List String
  | [] => []
  | item :: rest => compact item :: compactItems rest

/-- The fields of an object, each as text. -/
def compactFields : List (String × Json) → List String
  | [] => []
  | (name, value) :: rest => (quoted name ++ ":" ++ compact value) :: compactFields rest

end

/-! ## 3. The form with one item to a line -/

/-- The end of a line and the blanks that begin the next one, two for every level. -/
def newLine (level : Nat) : String := "\n" ++ .ofList (List.replicate (2 * level) ' ')

/-- Items between brackets, each on a line of its own one level further in. -/
def enclose (opening closing : String) (level : Nat) (items : List String) : String :=
  if items.isEmpty then opening ++ closing
  else
    let inner := newLine (level + 1)
    opening ++ inner ++ ("," ++ inner).intercalate items ++ newLine level ++ closing

mutual

/-- A value with one item to a line, on a line that is indented by `level`. -/
def prettyAt (level : Nat) : Json → String
  | array items => enclose "[" "]" level (prettyItems (level + 1) items)
  | object fields => enclose "\x7b" "\x7d" level (prettyFields (level + 1) fields)
  | null => "null"
  | bool b => if b then "true" else "false"
  | integer n => integerText n
  | float x => .ofList (floatStyle.text x)
  | string text => quoted text

/-- The items of an array, each as text. -/
def prettyItems (level : Nat) : List Json → List String
  | [] => []
  | item :: rest => prettyAt level item :: prettyItems level rest

/-- The fields of an object, each as text. -/
def prettyFields (level : Nat) : List (String × Json) → List String
  | [] => []
  | (name, value) :: rest => (quoted name ++ ": " ++ prettyAt level value) :: prettyFields level rest

end

/-- A value with one item to a line. -/
def pretty (value : Json) : String := prettyAt 0 value

end ControlScript.Json
