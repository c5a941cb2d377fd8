import ControlScript.Binary64.Text

/-!
# JSON values

The tree of a JSON text.  Fields are kept as they were written, repeated names included, so a
reader can refuse them; an object that is built for output has its fields in the order of their
names and no name twice.
-/

namespace ControlScript

/-- A JSON value. -/
inductive Json where
  | null
  | bool (b : Bool)
  | integer (n : Int)
  | float (x : Binary64)
  | string (text : String)
  | array (items : List Json)
  | object (fields : List (String × Json))

namespace Json

/-! ## 1. Objects for output -/

/-- Puts a field in its place among fields that are in order; a field of that name is replaced. -/
def insertField (name : String) (value : Json) : List (String × Json) → List (String × Json)
  | [] => [(name, value)]
  | (other, old) :: rest =>
      if name < other then (name, value) :: (other, old) :: rest
      else if name = other then (name, value) :: rest
      else (other, old) :: insertField name value rest

/-- The object with the given fields; of two fields of one name the later one counts. -/
def ofFields (fields : List (String × Json)) : Json :=
  object (fields.foldl (fun sorted (name, value) => insertField name value sorted) [])

/-- Text as a JSON value, and null for its absence. -/
def ofString? (text : Option String) : Json := (text.map string).getD null

/-- A double as a JSON value; only finite doubles are numbers in JSON. -/
def ofBinary64 (x : Binary64) : Json := if x.isFinite then float x else null

end Json

end ControlScript
