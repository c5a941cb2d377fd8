import ControlScript.Proofs.Canonical.Statements
import ControlScript.Proofs.Nesting

/-!
# Canonical texts are read back

The canonical text of an agenda that was read is read again, as the same agenda elsewhere, and its
canonical text is the text again.  It includes nothing, so it does not matter which texts there are;
and it takes at most one level more than the script that the agenda is from.
-/

namespace ControlScript

open Grammar Canonical

/-! ## 1. Positions do not show -/

mutual

theorem statementLines_unplaced (w : Workspace) (layout : Layout) (level : Nat) (s : Statement) :
    statementLines w layout level s.unplaced = statementLines w layout level s := by
  match s with
  | .keywords call values => rfl
  | .agenda call body =>
    rw [Statement.unplaced, statementLines, agendaLines_unplaced w layout (level + 1) body,
      statementLines]
    rfl

theorem agendaLines_unplaced (w : Workspace) (layout : Layout) (level : Nat) (a : List Statement) :
    agendaLines w layout level (Agenda.unplaced a) = agendaLines w layout level a := by
  match a with
  | [] => rfl
  | s :: a =>
    rw [Agenda.unplaced, agendaLines, statementLines_unplaced w layout level s,
      agendaLines_unplaced w layout level a, agendaLines]

end

theorem text_unplaced (w : Workspace) (layout : Layout) (entry : String) (a : Agenda) :
    Canonical.text w layout entry (Agenda.unplaced a) = Canonical.text w layout entry a := by
  rw [Canonical.text, Canonical.lines, agendaLines_unplaced, Canonical.text, Canonical.lines]

/-! ## 2. Scripts -/

section Scripts

variable {w : Workspace} {texts texts' : TextSource} {entry : String}

/-- A call of an entry method, which has no slots, is written with its name only. -/
theorem head_eq_entry (hr : w.methods.Sound)
    (hentry : ∀ e ∈ w.methods.entries, e.method.name = entry → e.method.slotCount = 0)
    {base : MethodId} {text rest : List Char} {call : Call} (h : CallText w base text rest call)
    (hname : (w.methods.get call.method).name = entry) : Canonical.head w call = entry := by
  cases h with
  | @mk _ _ _ _ name ids method _ _ hfind _ _ hres =>
    obtain ⟨e, he, -, -⟩ := Reading.entry_of_resolves hr hfind hres
    have hmethod := MethodRegistry.get_of_entry he
    have hnone : ids = [] := by
      have hslots := hentry e (List.mem_of_getElem? he) (hmethod ▸ hname)
      rw [← hmethod] at hslots
      rw [← List.length_eq_zero_iff, ← hres.groups.length_eq]
      exact hslots
    subst hnone
    -- a generic method would be resolved by a variable
    have hordinary : (w.methods.get base).isGeneric = false := by
      by_contra hgeneric
      obtain ⟨id, hid, -⟩ := hres.specialized (by simpa using hgeneric)
      exact absurd hid (by simp)
    obtain rfl := hres.ordinary hordinary
    have hhead : Canonical.head w ⟨method, .nowhere, [].take (w.methods.get method).outputs.length,
        [].drop (w.methods.get method).outputs.length⟩ = name := by
      simp [Canonical.head, calledAs_of_resolves hfind hres]
    obtain ⟨m, hbase, rfl⟩ := MethodRegistry.entry_of_find? hfind
    rw [hhead, ← hname, MethodRegistry.get_of_entry hbase]

/-- A statement begins with its call. -/
theorem Grammar.StatementText.call {nested : Phrase Agenda} {text rest : List Char} {s : Statement}
    (h : StatementText w nested text rest s) : ∃ base t, CallText w base text t s.call := by
  cases h with
  | @mk _ t _ _ base _ _ hcall _ hbody =>
    refine ⟨base, t, ?_⟩
    cases hbody with
    | bareKeywords _ _ _ _ => exact hcall
    | bareAgenda _ _ _ => exact hcall
    | keywords _ _ _ _ => exact hcall
    | agenda _ _ => exact hcall

/-- The canonical text of an agenda is a script of a method that is written as the entry method. -/
theorem scriptText_of_writable (hr : w.methods.Sound)
    (hnamed : ∀ e ∈ w.methods.entries, e.method.KeywordsNamed) {call : Call} {a : Agenda}
    (hwritable : (Statement.agenda call a).Writable w) {levels : Nat}
    (hlevels : (Statement.agenda call a).depth ≤ levels) (hhead : Canonical.head w call = entry)
    (hname : (w.methods.get call.method).name = entry) (layout : Layout) {files : List String} :
    ScriptText w (AgendaText w texts levels files) entry (Canonical.text w layout entry a).toList
      a := by
  have hlines : Canonical.lines w layout entry a = statementLines w layout 0 (.agenda call a) := by
    rw [statementLines, hhead, Canonical.lines]
  obtain ⟨t, hblanks, hstatement⟩ := statement_reread hr hnamed _ hwritable hlevels 0 []
  rw [toList_text, hlines, ← List.append_nil (written _ _)]
  exact .mk hblanks hstatement (blanks_feed _) hname

/-- The canonical text of the agenda of a script is a script with that agenda, one level higher. -/
theorem scriptText_canonical (hr : w.methods.Sound)
    (hentry : ∀ e ∈ w.methods.entries, e.method.name = entry → e.method.slotCount = 0)
    (hnamed : ∀ e ∈ w.methods.entries, e.method.KeywordsNamed) {levels : Nat}
    {files files' : List String} {source : List Char} {a : Agenda}
    (h : ScriptText w (AgendaText w texts levels files) entry source a) (layout : Layout) :
    ScriptText w (AgendaText w texts' (levels + 1) files') entry
      (Canonical.text w layout entry a).toList a := by
  cases h with
  | @mk _ _ call _ hstatement _ hname =>
    obtain ⟨base, rest, hcall⟩ := hstatement.call
    have hhead : Canonical.head w call = entry := head_eq_entry hr hentry hcall hname
    obtain ⟨hwritable, hdepth⟩ := writable_of_statementText writable_of_agendaText hstatement
    exact scriptText_of_writable hr hnamed hwritable hdepth hhead hname layout

end Scripts

namespace Reading

/-- What is read is read back from its canonical text, with one level more or any greater number of
    levels and whichever texts can be included, and then the canonical text is the same. -/
theorem canonical_text_rereads {ctx : Context} {file source : String} {a : Agenda}
    (hmethods : ctx.workspace.methods.Built)
    (hentry : ∀ e ∈ ctx.workspace.methods.entries,
      e.method.name = ctx.settings.entry → e.method.slotCount = 0)
    (hnamed : ∀ e ∈ ctx.workspace.methods.entries, e.method.KeywordsNamed)
    (h : parse ctx file source = .ok a) (layout : Layout) (file' : String) :
    ∃ b, (∀ (texts : TextSource) (maxDepth : Nat), ctx.settings.maxDepth < maxDepth →
        parse ((ctx.finding texts).bounded maxDepth) file'
          (Canonical.text ctx.workspace layout ctx.settings.entry a) = .ok b) ∧
      Agenda.unplaced b = Agenda.unplaced a ∧ Agenda.bindsLike a b = true ∧
      Canonical.text ctx.workspace layout ctx.settings.entry b
        = Canonical.text ctx.workspace layout ctx.settings.entry a := by
  have hr := hmethods.sound
  -- one level more is enough, even where no text is found
  let refusing : TextSource := fun path => .error (.notFound path [])
  let lowest := (ctx.finding refusing).bounded (ctx.settings.maxDepth + 1)
  have hscript : ScriptText ctx.workspace (Body lowest file') ctx.settings.entry
      (Canonical.text ctx.workspace layout ctx.settings.entry a).toList (Agenda.unplaced a) := by
    rw [← text_unplaced]
    exact scriptText_canonical hr hentry hnamed (scriptText_of_ok hr h) layout
  have hr' : lowest.workspace.methods.Sound := hr
  obtain ⟨b, hb, hsame⟩ := ok_of_scriptText hr' hscript
  refine ⟨b, ?_, hsame, ?_, ?_⟩
  · intro texts maxDepth hdepth
    have hfound : ∀ {path found}, refusing path = .ok found → texts path = .ok found := by
      intro path found hnever
      cases hnever
    exact @parse_of_finding (ctx.finding refusing) texts _ _ hfound hdepth _ _ _ hb
  · exact Agenda.bindsLike_of_unplaced_eq hsame.symm (literate_of_parse hr h)
  · rw [← text_unplaced, hsame, text_unplaced]

/-- A script of the small workspace with a call of a generic method, with an agenda without braces
    and with a default is read back from its canonical text, which takes one level more. -/
theorem canonical_text_rereads_copy : Workspace.small.methods.Built ∧
    (∀ e ∈ Workspace.small.methods.entries, e.method.name = "Arts" → e.method.slotCount = 0) ∧
    (∀ e ∈ Workspace.small.methods.entries, e.method.KeywordsNamed) ∧
    ∃ a b, parse (Context.small.bounded 1) "main" "Arts \x7b Copy(x, y) Arts Wait \x7d" = .ok a ∧
      Canonical.text .small {} "Arts" a
        = "Arts \x7b\n  Copy(x, y)\n  Arts \x7b\x7d\n  Wait \x7b time = 1.5 \x7d\n\x7d\n" ∧
      parse (Context.small.bounded 2) "again" (Canonical.text .small {} "Arts" a) = .ok b ∧
      Agenda.bindsLike a b = true ∧
      Canonical.text .small {} "Arts" b = Canonical.text .small {} "Arts" a := by
  have hentry : ∀ e ∈ Workspace.small.methods.entries,
      e.method.name = "Arts" → e.method.slotCount = 0 := by decide
  have hnamed : ∀ e ∈ Workspace.small.methods.entries, e.method.KeywordsNamed := by decide
  have hread : acceptsWith (Context.small.bounded 1) "main" "Arts \x7b Copy(x, y) Arts Wait \x7d"
      (fun a => Canonical.text .small {} "Arts" a
        = "Arts \x7b\n  Copy(x, y)\n  Arts \x7b\x7d\n  Wait \x7b time = 1.5 \x7d\n\x7d\n") = true := by
    decide +kernel
  obtain ⟨a, ha, htext⟩ := acceptsWith_iff.1 hread
  obtain ⟨b, hb, -, hbinds, hfixed⟩ := @canonical_text_rereads (Context.small.bounded 1) _ _ _
    Workspace.small_methods_built hentry hnamed ha {} "again"
  exact ⟨Workspace.small_methods_built, hentry, hnamed, a, b, ha, of_decide_eq_true htext,
    hb _ 2 (by decide), hbinds, hfixed⟩

end Reading

end ControlScript
