import ControlScript.RegistryError

/-!
# Workspace variables

The variables that methods read and write, in the order of their registration; the place of a
variable is its id, and no two variables have one name.
-/

namespace ControlScript

/-- The id of a registered variable: its place in the registry. -/
structure VariableId where
  index : Nat
deriving DecidableEq

/-- The declaration of a variable. -/
structure Variable where
  name : String := ""
  group : Group := ⟨""⟩
deriving DecidableEq

/-- The registered variables, in the order of their ids. -/
structure VariableRegistry where
  entries : List Variable := []
deriving DecidableEq

namespace VariableRegistry

/-- The number of registered variables. -/
def size (r : VariableRegistry) : Nat := r.entries.length

/-- The variable of a given id. -/
def get? (r : VariableRegistry) (id : VariableId) : Option Variable := r.entries[id.index]?

/-- The variable of a given id; an id that is not in use stands for a variable without a name. -/
def get (r : VariableRegistry) (id : VariableId) : Variable := (r.get? id).getD {}

/-- The variable of a given name. -/
def find? (r : VariableRegistry) (name : String) : Option VariableId :=
  (r.entries.findIdx? (·.name = name)).map .mk

/-- All ids in use, in order. -/
def ids (r : VariableRegistry) : List VariableId := (List.range r.size).map .mk

/-- Registers a variable under its name. -/
def insert (r : VariableRegistry) (v : Variable) :
    Except RegistryError (VariableId × VariableRegistry) :=
  if (r.find? v.name).isSome then .error (.variableExists v.name)
  else .ok (⟨r.size⟩, ⟨r.entries ++ [v]⟩)

end VariableRegistry

end ControlScript
