import ControlScript.Method

/-!
# Refused registrations

Why a registry refuses a declaration, and the message that says so.
-/

namespace ControlScript

/-- The reason why a method or a variable cannot be registered. -/
inductive RegistryError where
  | methodExists (name : String)
  | variableExists (name : String)
  | agendaWithKeywords (method : String)
  | keywordRepeated (method keyword : String)
  | notGeneric (method : String)
  | notConcrete (specialization : String)
  | slotCountDiffers (base specialization : String)
  | specializationExists (base : String) (group : Group)
deriving DecidableEq

namespace RegistryError

/-- The text of a refusal. -/
def message : RegistryError → String
  | methodExists name => s!"method `{name}` is already registered"
  | variableExists name => s!"workspace variable `{name}` is already registered"
  | agendaWithKeywords method =>
      s!"method `{method}` takes an agenda body and cannot declare keywords"
  | keywordRepeated method keyword =>
      s!"method `{method}` declares keyword `{keyword}` more than once"
  | notGeneric method => s!"method `{method}` is not generic and cannot be specialized"
  | notConcrete specialization =>
      s!"specialization `{specialization}` still declares a polymorphic slot"
  | slotCountDiffers base specialization =>
      s!"specialization `{specialization}` of `{base}` declares a different number of slots"
  | specializationExists base group =>
      s!"method `{base}` already has a specialization for group `{group.name}`"

end RegistryError

end ControlScript
