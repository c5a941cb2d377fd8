import ControlScript.Position
import ControlScript.Workspace

/-!
# Agendas

An agenda is a sequence of bound statements: every statement calls a registered method, the
variables are bound to its slots, and its body is either a value for every keyword or an agenda of
its own.
-/

namespace ControlScript

/-- The call of a method: the method that is meant, where it is called, and the variables that are
    bound to its slots. -/
structure Call where
  method : MethodId
  position : Position
  outputs : List VariableId
  inputs : List VariableId
deriving DecidableEq

/-- A statement: a call with the values of the keywords, in the order of their declaration, or
    with an agenda. -/
inductive Statement where
  | keywords (call : Call) (values : List Value)
  | agenda (call : Call) (body : List Statement)

/-- A sequence of statements. -/
abbrev Agenda := List Statement

/-- Two calls bind the same: position apart, they are equal. -/
def Call.bindsLike (c d : Call) : Bool :=
  c.method = d.method && c.outputs = d.outputs && c.inputs = d.inputs

/-- The call of a statement. -/
def Statement.call : Statement → Call
  | keywords call _ => call
  | agenda call _ => call

mutual

/-- Two statements agree: they have the same form, their calls are alike in the given sense, and
    their values or agendas agree. -/
def Statement.agreesBy (alike : Call → Call → Bool) : Statement → Statement → Bool
  | .keywords c vs, .keywords d ws =>
      alike c d && vs.length == ws.length && (vs.zip ws).all fun (v, w) => v.agrees w
  | .agenda c body, .agenda d other => alike c d && Agenda.agreesBy alike body other
  | _, _ => false

/-- Two agendas agree statement by statement. -/
def Agenda.agreesBy (alike : Call → Call → Bool) : List Statement → List Statement → Bool
  | [], [] => true
  | s :: rest, t :: others => s.agreesBy alike t && Agenda.agreesBy alike rest others
  | _, _ => false

end

namespace Agenda

/-- Two agendas bind the same methods, variables and values, wherever their statements stand. -/
def bindsLike (a b : Agenda) : Bool := agreesBy Call.bindsLike a b

/-- Two agendas agree, positions included. -/
def agrees (a b : Agenda) : Bool := agreesBy (fun c d => c = d) a b

end Agenda

mutual

/-- The number of statements that a statement consists of, itself included. -/
def Statement.count : Statement → Nat
  | .keywords _ _ => 1
  | .agenda _ body => 1 + Agenda.count body

/-- The number of statements of an agenda on all levels. -/
def Agenda.count : List Statement → Nat
  | [] => 0
  | s :: rest => s.count + Agenda.count rest

end

end ControlScript
