/-!
# Included texts

An include directive names a path.  Where texts come from is a function from paths to texts, so a
reader of control scripts works in the same way with files and with texts kept in memory.
-/

namespace ControlScript

/-- A text found for a path, under the name that its positions and the include chain show. -/
structure IncludedText where
  name : String
  text : String
deriving DecidableEq

/-- Why no text was found for a path. -/
inductive InclusionError where
  | notFound (path : String) (searched : List String)
  | unreadable (path reason : String)
deriving DecidableEq

namespace InclusionError

/-- The text of a failure. -/
def message : InclusionError → String
  | notFound path searched =>
      let places := ", ".intercalate searched
      s!"Cannot find include file `{path}`. Searched: {places}."
  | unreadable path reason => s!"Cannot read include file `{path}`: {reason}"

end InclusionError

/-- Where included texts come from. -/
abbrev TextSource := String → Except InclusionError IncludedText

namespace TextSource

/-- Texts kept in memory, each under its path. -/
def ofList (texts : List (String × String)) : TextSource := fun path =>
  match List.lookup path texts with
  | some text => .ok ⟨path, text⟩
  | none => .error (.notFound path ["<memory>"])

end TextSource

end ControlScript
