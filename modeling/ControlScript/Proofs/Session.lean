import ControlScript.Proofs.Termination

/-!
# Scripts read one after the other

One reader may be used for many scripts.  A script that is refused leaves levels entered and files
open, in whatever agenda or included text the fault was found; the next script is read as if nothing
had been read before.  What is read without a fault leaves the levels and the files as it has found
them, so behind an accepted script no level is entered and the script is all that is open.
-/

namespace ControlScript.Reading

variable {ctx : Context} {s s' : Progress}

/-! ## 1. Starting afresh -/

/-- A script sets the state that it is read in. -/
theorem script_afresh (ctx : Context) (file source : String) (s s' : Progress) :
    script ctx file source s = script ctx file source s' := by
  have hset : ∀ start t : Progress, (set start : Read PUnit) t = .ok ⟨⟩ start := fun _ _ => rfl
  rw [script, bind_of_ok (hset _ s), bind_of_ok (hset _ s')]

/-- The answer for a script is the same in every state. -/
theorem parse_of_script {file source : String} :
    (∀ {a}, script ctx file source s = .ok a s' → parse ctx file source = .ok a) ∧
      ∀ {f}, script ctx file source s = .error f s' → parse ctx file source = .error f := by
  constructor
  · intro a h
    rw [script_afresh ctx file source s {}] at h
    exact parse_eq_ok_iff.2 ⟨s', h⟩
  · intro f h
    rw [script_afresh ctx file source s {}] at h
    unfold parse
    rw [EStateM.run, h]

theorem readAll_cons (ctx : Context) (s : Progress) (file source : String)
    (others : List (String × String)) : readAll ctx s ((file, source) :: others) =
      match (script ctx file source).run s with
      | .ok a t => .ok a :: readAll ctx t others
      | .error f t => .error f :: readAll ctx t others := by rfl

theorem readAll_eq_map (ctx : Context) (s : Progress) (scripts : List (String × String)) :
    readAll ctx s scripts = scripts.map fun (file, source) => parse ctx file source := by
  induction scripts generalizing s with
  | nil => rfl
  | cons first others ih =>
    obtain ⟨file, source⟩ := first
    show _ = parse ctx file source :: others.map _
    rw [readAll_cons]
    -- whether the first script is accepted or not, the others are read in the state behind it
    cases h : (script ctx file source).run s with
    | ok a t => rw [parse_of_script.1 h, ← ih t]
    | error f t => rw [parse_of_script.2 h, ← ih t]

/-! ## 2. What is left behind -/

/-- What is read without a fault leaves the levels and the open files as it has found them. -/
structure LeavesNesting (ctx : Context) : Prop where
  head : ∀ {found : Head} {s s' : Progress}, scan (head ctx.workspace) s = .ok found s' →
    s'.nesting = s.nesting
  statement : ∀ {levels : Nat} {call : Call} {found : Statement} {s s' : Progress},
    statement ctx (agenda ctx levels) call s = .ok found s' → s'.nesting = s.nesting
  agenda : ∀ {levels : Nat} {terminator : Terminator} {found : Agenda} {s s' : Progress},
    agenda ctx levels terminator s = .ok found s' → s'.nesting = s.nesting
  inclusion : ∀ {levels : Nat} {path : String} {here : Position} {found : Agenda}
    {s s' : Progress},
    inclusion ctx (Reading.agenda ctx levels) path here s = .ok found s' → s'.nesting = s.nesting

theorem leavesNesting (ctx : Context) : LeavesNesting ctx where
  head := by
    intro found s s' h
    obtain ⟨c, -, rfl⟩ := scan_eq_ok_iff.1 h
    rfl
  statement := fun h => (agenda_restores ctx _ _).statement h
  agenda := fun {_ _ _ s _} h => (agenda_restores ctx _ (levelsLeft ctx s + 1)).nesting
    (Nat.lt_succ_self _) h
  inclusion := fun h => (agenda_restores ctx _ _).inclusion h

theorem nesting_of_script {file source : String} {a : Agenda}
    (h : script ctx file source s = .ok a s') : s'.nesting = ⟨0, [file]⟩ := by
  obtain ⟨call, u, t, -, hread, -, -, rfl⟩ := script_eq_ok_iff.1 h
  exact (leavesNesting ctx).statement hread

/-- A reader can be used again.  Every script of a sequence has the answer that a fresh reader
    gives, whichever of them are refused; and nothing that is read without a fault changes the
    nesting, so that behind an accepted script only the script is open. -/
theorem answers_are_independent (ctx : Context) :
    (∀ (s : Progress) (scripts : List (String × String)),
      readAll ctx s scripts = scripts.map fun (file, source) => parse ctx file source) ∧
    LeavesNesting ctx ∧
    ∀ (file source : String) (a : Agenda) (s s' : Progress),
      script ctx file source s = .ok a s' → s'.nesting = ⟨0, [file]⟩ :=
  ⟨readAll_eq_map ctx, leavesNesting ctx, fun _ _ _ _ _ h => nesting_of_script h⟩

-- the first script is refused with the only level entered, which the second one needs again
example : (readAll { Context.small with settings.maxDepth := 1 } {}
    [("a", "Arts \x7b Oops"), ("b", "Arts \x7b\x7d")]).map Except.isOk = [false, true] := by
  decide +kernel

end ControlScript.Reading
