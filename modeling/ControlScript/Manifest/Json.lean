import ControlScript.Json.Reader
import ControlScript.Manifest

/-!
# Manifests as JSON

The records of a manifest are JSON objects with no fields but the expected ones and none of them
twice.  A record may as well be an array of its fields in order, in which the last ones may be left
out.  Lists, flags and defaults may be missing, but null stands only for what is optional.
-/

namespace ControlScript

namespace Manifest

/-! ## 1. Records -/

/-- The fields of a record in the order of `names`; a field that is missing is none. -/
def recordFields? (names : List String) : Json → Option (List (Option Json))
  | .object fields =>
      if fields.all (fun (name, _) => name ∈ names)
          && (firstRepeated? [] (fields.map (·.1))).isNone then
        some (names.map fun name => List.lookup name fields)
      else none
  | .array items =>
      if items.length ≤ names.length then
        some (items.map some ++ List.replicate (names.length - items.length) none)
      else none
  | _ => none

/-- A text. -/
def text? : Json → Option String
  | .string text => some text
  | _ => none

/-- A flag. -/
def flag? : Json → Option Bool
  | .bool b => some b
  | _ => none

/-- A list of items of one form. -/
def list? {α : Type} (item? : Json → Option α) : Json → Option (List α)
  | .array items => items.mapM item?
  | _ => none

/-- An item for which null stands when there is none. -/
def nullable? {α : Type} (item? : Json → Option α) : Json → Option (Option α)
  | .null => some none
  | value => (item? value).map some

/-- The value of a field that has to be there. -/
def required? {α : Type} (item? : Json → Option α) (field : Option Json) : Option α :=
  field.bind item?

/-- The value of a field that may be missing. -/
def withDefault? {α : Type} (default : α) (item? : Json → Option α) : Option Json → Option α
  | some value => item? value
  | none => some default

/-! ## 2. Entries -/

/-- A variable: `name`, `group`. -/
def variableEntry? (value : Json) : Option VariableEntry := do
  match ← recordFields? ["name", "group"] value with
  | [name, group] => return ⟨← required? text? name, ← required? text? group⟩
  | _ => none

/-- A keyword: `name`, `kind`, `default`. -/
def keywordEntry? (value : Json) : Option KeywordEntry := do
  match ← recordFields? ["name", "kind", "default"] value with
  | [name, kind, default] =>
    return {
      name := ← required? text? name
      kind := ← required? text? kind
      default := ← withDefault? none (nullable? text?) default }
  | _ => none

/-- A specialization: `group`, `outputs`, `inputs`, `keywords`. -/
def specializationEntry? (value : Json) : Option SpecializationEntry := do
  match ← recordFields? ["group", "outputs", "inputs", "keywords"] value with
  | [group, outputs, inputs, keywords] =>
    return {
      group := ← required? text? group
      outputs := ← withDefault? [] (list? text?) outputs
      inputs := ← withDefault? [] (list? text?) inputs
      keywords := ← withDefault? none (nullable? (list? keywordEntry?)) keywords }
  | _ => none

/-- A method: `name`, `outputs`, `inputs`, `keywords`, `agenda`, `specializations`. -/
def methodEntry? (value : Json) : Option MethodEntry := do
  match ← recordFields? ["name", "outputs", "inputs", "keywords", "agenda", "specializations"]
    value with
  | [name, outputs, inputs, keywords, agenda, specializations] =>
    return {
      name := ← required? text? name
      outputs := ← withDefault? [] (list? text?) outputs
      inputs := ← withDefault? [] (list? text?) inputs
      keywords := ← withDefault? [] (list? keywordEntry?) keywords
      agenda := ← withDefault? false flag? agenda
      specializations := ← withDefault? [] (list? specializationEntry?) specializations }
  | _ => none

/-! ## 3. Manifests -/

/-- A manifest: `groups`, `variables`, `methods`. -/
def ofJson? (value : Json) : Option Manifest := do
  match ← recordFields? ["groups", "variables", "methods"] value with
  | [groups, vars, methods] =>
    return {
      groups := ← withDefault? [] (list? text?) groups
      vars := ← withDefault? [] (list? variableEntry?) vars
      methods := ← withDefault? [] (list? methodEntry?) methods }
  | _ => none

/-- The manifest that a JSON text holds. -/
def ofText? (text : String) : Option Manifest := (Json.ofText? text).bind ofJson?

end Manifest

/-- The workspace that a manifest in JSON form describes. -/
def Workspace.ofManifestText (text : String) : Except ManifestError Workspace :=
  match Manifest.ofText? text with
  | some manifest => manifest.build
  | none => .error .malformed

end ControlScript
