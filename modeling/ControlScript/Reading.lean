import ControlScript.Reading.Statement

/-!
# Reading control scripts

A control script is a single statement of the entry method, whose agenda is what the script means.
-/

namespace ControlScript.Reading

open Scan

/-! ## 1. Scripts -/

/-- Blanks, and then the end of the text. -/
def endOfScript (entry : String) : Scan Unit := do
  skipBlanks
  match ← peek with
  | none => return ()
  | some c => fail (.unexpected (.endOfMethod entry) c)

/-- The agenda of a control script.  Whatever was read before, reading starts afresh. -/
def script (ctx : Context) (file : String) (source : String) : Read Agenda := do
  let entry := ctx.settings.entry
  set { cursor := .start file source.toList, nesting := { depth := 0, files := [file] } : Progress }
  scan skipBlanks
  match ← scan (head ctx.workspace) with
  | .inclusion _ here => throw ⟨.startsWithInclude entry, here⟩
  | .call call =>
    let outermost ← statement ctx (agenda ctx ctx.settings.maxDepth) call
    let name := (ctx.workspace.methods.get call.method).name
    if name ≠ entry then
      throw ⟨.wrongEntryMethod entry name, call.position⟩
    scan (endOfScript name)
    match outermost with
    | .agenda _ body => return body
    | .keywords _ _ => throw ⟨.entryWithoutAgenda name, call.position⟩

/-- The agenda of a control script, or its first fault. -/
def parse (ctx : Context) (file : String) (source : String) : Except Fault Agenda :=
  match (script ctx file source).run {} with
  | .ok found _ => .ok found
  | .error fault _ => .error fault

/-! ## 2. Several scripts -/

/-- Reads scripts one after the other; each begins in the state that the one before has left. -/
def readAll (ctx : Context) (state : Progress) :
    List (String × String) → List (Except Fault Agenda)
  | [] => []
  | (file, source) :: others =>
      match (script ctx file source).run state with
      | .ok found after => .ok found :: readAll ctx after others
      | .error fault after => .error fault :: readAll ctx after others

end ControlScript.Reading
