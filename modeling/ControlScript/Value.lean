import ControlScript.Binary64.Text
import ControlScript.Numeral

/-!
# Keyword values

A keyword takes a string, an integer, a double, or a list of one of these.  Every value has a text,
and the texts are literals of the control language: reading one back gives the value again.
-/

namespace ControlScript

/-! ## 1. Kinds -/

/-- The kind of value that a keyword takes. -/
inductive ValueKind where
  | string
  | integer
  | float
  | stringList
  | integerList
  | floatList
deriving DecidableEq

namespace ValueKind

/-- All kinds, in the order in which they are listed. -/
def all : List ValueKind := [string, integer, float, stringList, integerList, floatList]

/-- The name of a kind, as registries spell it. -/
def name : ValueKind → String
  | string => "String"
  | integer => "Integer"
  | float => "Float"
  | stringList => "StringList"
  | integerList => "IntegerList"
  | floatList => "FloatList"

/-- The kind of a given name. -/
def ofName? (name : String) : Option ValueKind := all.find? (·.name = name)

/-- Whether the values of a kind are lists. -/
def isList : ValueKind → Bool
  | stringList | integerList | floatList => true
  | string | integer | float => false

/-- Every kind is found by its name. -/
theorem ofName?_name (kind : ValueKind) : ofName? kind.name = some kind := by
  cases kind <;> decide

end ValueKind

/-! ## 2. Values -/

/-- The value of a keyword. -/
inductive Value where
  | string (text : String)
  | integer (n : Int64)
  | float (x : Binary64)
  | stringList (items : List String)
  | integerList (items : List Int64)
  | floatList (items : List Binary64)
deriving DecidableEq

namespace Value

/-- The kind of a value. -/
def kind : Value → ValueKind
  | string _ => .string
  | integer _ => .integer
  | float _ => .float
  | stringList _ => .stringList
  | integerList _ => .integerList
  | floatList _ => .floatList

/-- Values agree when they are of one kind and equal item by item; doubles are compared as numbers,
    so the two zeros agree. -/
def agrees : Value → Value → Bool
  | float x, float y => x.numericallyEqual y
  | floatList xs, floatList ys =>
      xs.length == ys.length && (xs.zip ys).all fun (x, y) => x.numericallyEqual y
  | v, w => v = w

/-! ## 3. Texts -/

/-- Doubles in control text are positional from `10 ^ (-4)` up to `10 ^ 16`, their exponents carry
    no plus sign, and of two equally near shortest numbers the upper one is written. -/
def floatStyle : Binary64.Style := ⟨-4, false, .up⟩

/-- A string literal: the characters as they are, between double quotes. -/
def quoted (text : String) : String := "\"" ++ text ++ "\""

/-- An integer literal. -/
def integerText (n : Int64) : String := .ofList (WholeNumeral.ofInt n.toInt).chars

/-- A number literal. -/
def floatText (x : Binary64) : String := .ofList (floatStyle.text x)

/-- A list literal. -/
def bracketed (items : List String) : String := "[" ++ ", ".intercalate items ++ "]"

/-- The text of a value: a literal of its kind. -/
def text : Value → String
  | string s => quoted s
  | integer n => integerText n
  | float x => floatText x
  | stringList items => bracketed (items.map quoted)
  | integerList items => bracketed (items.map integerText)
  | floatList items => bracketed (items.map floatText)

end Value

end ControlScript
