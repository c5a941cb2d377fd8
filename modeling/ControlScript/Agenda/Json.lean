import ControlScript.Agenda
import ControlScript.Json

/-!
# Agendas as JSON

An agenda is an array of statements, in which methods and variables have their names.  A statement
has the values of its keywords by name, or an agenda of its own.
-/

namespace ControlScript

/-- A value as JSON; lists are arrays. -/
def Value.toJson : Value → Json
  | string text => .string text
  | integer n => .integer n.toInt
  | float x => .ofBinary64 x
  | stringList items => .array (items.map .string)
  | integerList items => .array (items.map fun n => .integer n.toInt)
  | floatList items => .array (items.map .ofBinary64)

/-- The names of variables, as JSON. -/
def VariableRegistry.namesToJson (r : VariableRegistry) (ids : List VariableId) : Json :=
  .array (ids.map fun id => .string (r.get id).name)

/-- The fields that every statement has: the method by the name under which it is listed, the
    generic method that it specializes, the position, and the variables. -/
def Call.fields (w : Workspace) (call : Call) : List (String × Json) :=
  [("method", .string (w.methods.get call.method).name),
   ("generic", .ofString? ((w.methods.baseOf? call.method).map fun id => (w.methods.get id).name)),
   ("position", .string call.position.text),
   ("outputs", w.vars.namesToJson call.outputs),
   ("inputs", w.vars.namesToJson call.inputs)]

/-- The values of the keywords of a method, by name. -/
def Method.valuesToJson (method : Method) (values : List Value) : Json :=
  .ofFields (List.zipWith (fun keyword value => (keyword.name, value.toJson)) method.keywords values)

mutual

/-- A statement as JSON. -/
def Statement.toJson (w : Workspace) : Statement → Json
  | .keywords call values =>
      .ofFields (call.fields w ++
        [("keywords", (w.methods.get call.method).valuesToJson values)])
  | .agenda call body => .ofFields (call.fields w ++ [("agenda", .array (Agenda.toJsonItems w body))])

/-- The statements of an agenda, each as JSON. -/
def Agenda.toJsonItems (w : Workspace) : List Statement → List Json
  | [] => []
  | s :: rest => s.toJson w :: Agenda.toJsonItems w rest

end

/-- An agenda as JSON. -/
def Agenda.toJson (w : Workspace) (agenda : Agenda) : Json := .array (toJsonItems w agenda)

end ControlScript
