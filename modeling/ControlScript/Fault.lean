import ControlScript.Diagnostic
import ControlScript.Inclusion
import ControlScript.Method

/-!
# Faults of control scripts

Everything that can be wrong with a control script, as a cause.  The wording of a cause and the
kind of fault that it is reported as are functions of the cause alone.
-/

namespace ControlScript

/-- What should have stood where another character stands. -/
inductive Expected where
  | character (c : Char)
  | digit
  | methodName
  | variableName
  | keywordName
  | endOfValue
  | endOfMethod (name : String)
deriving DecidableEq

/-- The part of a literal that a line may not end in or behind. -/
inductive Unbroken where
  | string
  | sign
  | point
  | exponentMark
deriving DecidableEq

/-- Why a control script is not accepted. -/
inductive Cause where
  | unexpected (expected : Expected) (found : Char)
  | lineBreak (place : Unbroken)
  | endOfText
  | noDigit
  | integerOutOfRange (spelling : String)
  | numberOutOfRange (spelling : String)
  | keywordAlreadySet (keyword : String)
  | keywordNotSet (keyword method : String)
  | badDefault (literal keyword method : String) (kind : ValueKind) (cause : Cause)
  | unknownMethod (name : String)
  | noVariant (method : String) (group : Group)
  | unknownVariable (name : String)
  | wrongGroup (name : String) (actual : Group) (method : String) (expected : Group)
  | unknownKeyword (method keyword : String)
  | startsWithInclude (entry : String)
  | wrongEntryMethod (entry name : String)
  | entryWithoutAgenda (name : String)
  | notIncluded (error : InclusionError)
  | includeCycle (file : String) (chain : List String)
  | nestingTooDeep (limit : Nat)
deriving DecidableEq

/-- A cause and the position that it is reported at. -/
structure Fault where
  cause : Cause
  position : Position
deriving DecidableEq

/-! ## 1. Wording -/

/-- The name that starts an include directive. -/
def includeDirective : String := "INCLUDE"

/-- The message about a character that stands where something else is expected. -/
def Expected.message (found : Char) : Expected → String
  | character c => s!"Expected '{c}', but got '{found}'."
  | digit => s!"Expected digit, but got '{found}'."
  | methodName => s!"Expected a method name, but got '{found}'."
  | variableName => s!"Expected a workspace variable name, but got '{found}'."
  | keywordName => s!"Expected a keyword name, but got '{found}'."
  | endOfValue => s!"Unexpected '{found}' after the value."
  | endOfMethod name => s!"Unexpected '{found}' after the end of {name}."

/-- The message about a line that ends inside a literal. -/
def Unbroken.message : Unbroken → String
  | string => "Line break before end of String."
  | sign => "Line break after sign."
  | point => "Line break after decimal point."
  | exponentMark => "Line break after e/E."

namespace Cause

/-- The message of a cause. -/
def message : Cause → String
  | unexpected expected found => expected.message found
  | lineBreak place => place.message
  | endOfText => "Unexpected end of text."
  | noDigit => "Numeric must contain at least one digit."
  | integerOutOfRange spelling => s!"Integer {spelling} is out of range."
  | numberOutOfRange spelling => s!"Numeric {spelling} is out of range."
  | keywordAlreadySet keyword => s!"Keyword {keyword} was already set."
  | keywordNotSet keyword method => s!"Required keyword {keyword} of method {method} was not set."
  | badDefault literal keyword method kind cause =>
      s!"Default value {literal} of keyword {keyword} of method {method} is not a valid " ++
        s!"{kind.name}: {cause.message}"
  | unknownMethod name => s!"Unknown method `{name}`."
  | noVariant method group => s!"Method `{method}` has no variant for group `{group.name}`."
  | unknownVariable name => s!"Unknown workspace variable `{name}`."
  | wrongGroup name actual method expected =>
      s!"Workspace variable `{name}` has group {actual.name}, " ++
        s!"but method {method} expects group {expected.name} here."
  | unknownKeyword method keyword => s!"Method {method} has no keyword {keyword}."
  | startsWithInclude entry =>
      s!"The control file must start with {entry}, not with {includeDirective}."
  | wrongEntryMethod entry name => s!"The outermost method must be {entry}, but it is {name}."
  | entryWithoutAgenda name => s!"Entry point {name} must take an agenda body."
  | notIncluded error => error.message
  | includeCycle file chain =>
      let links := " -> ".intercalate chain
      s!"File {file} is included recursively ({links})."
  | nestingTooDeep limit =>
      s!"Agenda bodies and includes are nested deeper than {limit} levels."

/-! ## 2. Reports -/

/-- The kind of fault that a cause is reported as. -/
def kind : Cause → FaultKind
  | unexpected .. => .unexpectedCharacter
  | lineBreak _ => .illegalLineBreak
  | endOfText => .endOfText
  | noDigit | integerOutOfRange _ | numberOutOfRange _ => .malformed
  | keywordAlreadySet _ | keywordNotSet .. | badDefault .. => .malformed
  | unknownMethod _ | noVariant .. => .unknownMethod
  | unknownVariable _ => .unknownVariable
  | wrongGroup .. => .wrongGroup
  | unknownKeyword .. => .unknownKeyword
  | startsWithInclude _ | wrongEntryMethod .. | entryWithoutAgenda _ => .wrongEntry
  | notIncluded _ => .includeUnavailable
  | includeCycle .. => .includeCycle
  | nestingTooDeep _ => .nestingTooDeep

end Cause

/-- The report of a fault. -/
def Fault.diagnostic (f : Fault) : Diagnostic := ⟨f.cause.kind, f.cause.message, some f.position⟩

end ControlScript
