import ControlScript.Value

/-!
# Workspace methods

A method is what a control script calls: it binds workspace variables to its output and input
slots, and its body is either a set of keyword values or an agenda.  A slot that takes variables
of any group makes the method generic; such a method is called through a specialization.
-/

namespace ControlScript

/-- The group of a workspace variable, which says what the variable holds. -/
structure Group where
  name : String
deriving DecidableEq, Hashable

/-- What a slot of a method accepts. -/
inductive Slot where
  | only (group : Group)
  | anyGroup
deriving DecidableEq

/-- A named setting of a method.  The default, if there is one, is a literal of the keyword's kind
    in its written form. -/
structure Keyword where
  name : String
  kind : ValueKind
  default : Option String
deriving DecidableEq

/-- The declaration of a method. -/
structure Method where
  name : String := ""
  outputs : List Slot := []
  inputs : List Slot := []
  keywords : List Keyword := []
  takesAgenda : Bool := false
deriving DecidableEq

namespace Method

/-- The slots of a method: outputs first, then inputs. -/
def slots (m : Method) : List Slot := m.outputs ++ m.inputs

/-- The number of variables that a call of the method binds. -/
def slotCount (m : Method) : Nat := m.slots.length

/-- Whether some slot accepts every group. -/
def isGeneric (m : Method) : Bool := m.slots.contains .anyGroup

/-- The place of a keyword among the keywords of the method. -/
def keywordIndex? (m : Method) (name : String) : Option Nat := m.keywords.findIdx? (·.name = name)

/-- Whether every keyword may be left out. -/
def allDefaulted (m : Method) : Bool := m.keywords.all (·.default.isSome)

/-- The name under which a specialization is listed. -/
def specializedName (base : String) (group : Group) : String := base ++ "_" ++ group.name

end Method

end ControlScript
