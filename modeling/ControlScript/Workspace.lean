import ControlScript.Method.Registry
import ControlScript.Variable

/-!
# Workspaces

The methods and the variables that control scripts can refer to.
-/

namespace ControlScript

/-- The names that a control script is read against. -/
structure Workspace where
  methods : MethodRegistry := {}
  vars : VariableRegistry := {}
deriving DecidableEq

end ControlScript
