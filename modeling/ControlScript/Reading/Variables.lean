import ControlScript.Scan
import ControlScript.Workspace

/-!
# Binding variables

The variables of a call stand in parentheses behind the name of the method, one for every slot.  A
method without slots needs no parentheses.  A generic method is resolved by the group of the first
variable, and from then on the slots of the specialization count.
-/

namespace ControlScript.Reading

open Scan

/-- A method and the variables that are bound to its slots. -/
structure Binding where
  method : MethodId
  outputs : List VariableId
  inputs : List VariableId
deriving DecidableEq

/-- The specialization of a generic method for the group of the variable at `here`. -/
def specialize (methods : MethodRegistry) (base : MethodId) (group : Group) (here : Position) :
    Scan MethodId :=
  match methods.resolve? base group with
  | some id => return id
  | none => throw ⟨.noVariant (methods.get base).name group, here⟩

/-- The slot at `index` has to accept the variable at `here`. -/
def checkSlot (method : Method) (index : Nat) (var : Variable) (here : Position) : Scan Unit :=
  match method.slots[index]? with
  | some (.only group) =>
      if group = var.group then return ()
      else throw ⟨.wrongGroup var.name var.group method.name group, here⟩
  | _ => return ()

/-- The registered variable whose name is next. -/
def registeredVariable (vars : VariableRegistry) : Scan VariableId := do
  let here ← position
  let name ← requiredName .variableName
  match vars.find? name with
  | some id => return id
  | none => throw ⟨.unknownVariable name, here⟩

/-- Variables for the slots from `index` on.  The method is known from the first variable on. -/
def bindSlots (w : Workspace) (base : MethodId) :
    (index : Nat) → (slots : List Slot) → (known : Option MethodId) →
      Scan (MethodId × List VariableId)
  | _, [], known => return (known.getD base, [])
  | index, _ :: slots, known => do
      if index > 0 then
        expect ','
        skipBlanks
      let here ← position
      let id ← registeredVariable w.vars
      let var := w.vars.get id
      let method ← match known with
        | some method => pure method
        | none => specialize w.methods base var.group here
      checkSlot (w.methods.get method) index var here
      skipBlanks
      let (method, ids) ← bindSlots w base (index + 1) slots (some method)
      return (method, id :: ids)

/-- The variables of a call of the method `base`, and the method that is meant. -/
def bindVariables (w : Workspace) (base : MethodId) : Scan Binding := do
  let generic := w.methods.get base
  if generic.slotCount = 0 then
    if (← peek) = some '(' then
      advance
      skipBlanks
      expect ')'
    return ⟨base, [], []⟩
  expect '('
  skipBlanks
  let known := if generic.isGeneric then none else some base
  let (method, ids) ← bindSlots w base 0 generic.slots known
  expect ')'
  let outputs := (w.methods.get method).outputs.length
  return ⟨method, ids.take outputs, ids.drop outputs⟩

end ControlScript.Reading
