import ControlScript.Literal

/-!
# Binding keywords

The keywords of a method stand between braces as name, equals sign and literal, in any order; a
comma may stand behind each.  A method with a single keyword needs no name for it when the literal
does not begin with a letter.  Keywords that are left out have their defaults.
-/

namespace ControlScript.Reading

open Scan

/-- The values that are bound so far, by the names of their keywords. -/
abbrev Bindings := List (String × Value)

/-- A keyword may be bound only once. -/
def checkUnset (bound : Bindings) (keyword : Keyword) (here : Position) : Scan Unit :=
  if (List.lookup keyword.name bound).isSome then
    throw ⟨.keywordAlreadySet keyword.name, here⟩
  else return ()

/-- The only keyword of a method, if the next character is no letter and so begins its literal. -/
def unnamed? (method : Method) : Scan (Option Keyword) := do
  match method.keywords with
  | [keyword] => return if (← current).isAlpha then none else some keyword
  | _ => return none

/-- The keyword that is bound next; the cursor moves to its literal. -/
def nextKeyword (method : Method) (bound : Bindings) : Scan Keyword := do
  let here ← position
  match ← unnamed? method with
  | some keyword =>
    checkUnset bound keyword here
    return keyword
  | none =>
    let name ← requiredName .keywordName
    match method.keywords.find? (·.name = name) with
    | none => throw ⟨.unknownKeyword method.name name, here⟩
    | some keyword =>
      checkUnset bound keyword here
      skipBlanks
      expect '='
      skipBlanks
      return keyword

/-- The bindings up to the closing brace. -/
def bindings (method : Method) : Scan Bindings := do
  skipBlanks
  Scan.repeat (σ := Bindings) (fun bound => do
    if (← current) = '\x7d' then
      return .done bound
    let keyword ← nextKeyword method bound
    let value ← Literal.value keyword.kind
    skipBlanks
    if (← peek) = some ',' then
      advance
      skipBlanks
    return .again ((keyword.name, value) :: bound)) []

/-- A literal that is the whole of a text, blanks apart. -/
def wholeLiteral (kind : ValueKind) : Scan Value := do
  let value ← Literal.value kind
  skipBlanks
  match ← peek with
  | none => return value
  | some c => fail (.unexpected .endOfValue c)

/-- The default of a keyword, for a statement at `here`. -/
def defaultValue (method : Method) (keyword : Keyword) (here : Position) : Except Fault Value :=
  match keyword.default with
  | none => .error ⟨.keywordNotSet keyword.name method.name, here⟩
  | some literal =>
    let file := s!"<default of {method.name}.{keyword.name}>"
    match (wholeLiteral keyword.kind).run (.start file literal.toList) with
    | .ok value _ => .ok value
    | .error fault _ =>
      .error ⟨.badDefault literal keyword.name method.name keyword.kind fault.cause, here⟩

/-- The values of all keywords of a method in the order of their declaration. -/
def complete (method : Method) (bound : Bindings) (here : Position) : Except Fault (List Value) :=
  method.keywords.mapM fun keyword =>
    match List.lookup keyword.name bound with
    | some value => .ok value
    | none => defaultValue method keyword here

/-- The values of the keywords for a statement at `here`; without braces all are left out. -/
def bindKeywords (method : Method) (braced : Bool) (here : Position) : Scan (List Value) := do
  let bound ← if braced then bindings method else pure []
  ofExcept (complete method bound here)

end ControlScript.Reading
