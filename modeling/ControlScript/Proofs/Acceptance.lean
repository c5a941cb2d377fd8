import ControlScript.Proofs.Reading

/-!
# Scripts without include directives

The language of the scripts that include nothing, with a grammar of its own that neither knows
directives nor files.  On texts in which the name of the directive does not occur, it is the grammar
of control scripts, and the reader accepts exactly the scripts that it derives.
-/

namespace ControlScript.Grammar

/-! ## 1. The grammar -/

/-- Statements, one behind the other. -/
inductive StatementsText (statement : Phrase Statement) : Phrase Agenda where
  | nil {text rest : List Char} : Blanks text rest → StatementsText statement text rest []
  | cons {text t₁ t₂ rest : List Char} {s : Statement} {others : Agenda} :
      Blanks text t₁ → statement t₁ t₂ s → StatementsText statement t₂ rest others →
        StatementsText statement text rest (s :: others)

/-- The bodies of agendas with at most `levels` agendas in braces one inside the other, themselves
    included. -/
def NestedText (w : Workspace) : (levels : Nat) → Phrase Agenda
  | 0 => fun _ _ _ => False
  | levels + 1 => StatementsText (StatementText w (NestedText w levels))

/-! ## 2. Texts without directives -/

section Congruence

variable {w : Workspace} {source : List Char}

/-- A directive contains its name. -/
theorem DirectiveText.spells {text rest : List Char} {path : String}
    (h : DirectiveText text rest path) (htext : text <:+ source) :
    includeDirective.toList <:+: source := by
  cases h with
  | mk hname _ _ =>
    rw [hname.run.spelled] at htext
    exact (List.prefix_append _ _).isInfix.trans htext.isInfix

variable {texts : TextSource}

/-- Where no directive can stand, agendas are statements only. -/
theorem nestedText_of_agendaText (hsource : ¬ includeDirective.toList <:+: source) {levels : Nat}
    {files : List String} {text rest : List Char} {a : Agenda} (htext : text <:+ source)
    (h : AgendaText w texts levels files text rest a) : NestedText w levels text rest a := by
  induction levels generalizing text rest a with
  | zero => exact h
  | succ levels ih =>
    have hproper : Phrase.Proper (StatementText w (AgendaText w texts levels files)) :=
      statementText_proper (agendaText_bounded levels files)
    have h' : SequenceText (StatementText w (AgendaText w texts levels files)) _ text rest a := h
    show StatementsText (StatementText w (NestedText w levels)) text rest a
    clear h
    induction h' with
    | nil hlast => exact .nil hlast
    | statement hnext hfirst _ ihothers =>
      have hbegin := hnext.suffix.trans htext
      exact .cons hnext (hfirst.mono ih hbegin) (ihothers ((hproper.suffix hfirst).trans hbegin))
    | directive hnext hfirst _ _ _ =>
      exact absurd (hfirst.spells (hnext.suffix.trans htext)) hsource

/-- Statements only are an agenda, whatever could be included and whichever files are open. -/
theorem agendaText_of_nestedText {levels : Nat} {files : List String} {text rest : List Char}
    {a : Agenda} (h : NestedText w levels text rest a) :
    AgendaText w texts levels files text rest a := by
  induction levels generalizing text rest a with
  | zero => exact h
  | succ levels ih =>
    have h' : StatementsText (StatementText w (NestedText w levels)) text rest a := h
    show SequenceText (StatementText w (AgendaText w texts levels files)) _ text rest a
    clear h
    induction h' with
    | nil hlast => exact .nil hlast
    | cons hnext hfirst _ ihothers =>
      refine .statement hnext (hfirst.mono ?_ hnext.suffix) ihothers
      exact fun _ h => ih h

end Congruence

/-- Without directives, scripts are what the grammar of statements only says. -/
theorem scriptText_iff_nestedText {w : Workspace} {texts : TextSource} {levels : Nat}
    {files : List String} {entry : String} {source : List Char} {a : Agenda}
    (hsource : ¬ includeDirective.toList <:+: source) :
    ScriptText w (AgendaText w texts levels files) entry source a ↔
      ScriptText w (NestedText w levels) entry source a := by
  constructor
  · rintro ⟨hblanks, hstatement, hlast, hname⟩
    refine .mk hblanks (hstatement.mono ?_ hblanks.suffix) hlast hname
    exact fun htext h => nestedText_of_agendaText hsource htext h
  · rintro ⟨hblanks, hstatement, hlast, hname⟩
    refine .mk hblanks (hstatement.mono ?_ hblanks.suffix) hlast hname
    exact fun _ h => agendaText_of_nestedText h

end ControlScript.Grammar

namespace ControlScript.Reading

open Grammar

/-! ## 3. Scripts -/

/-- The reader of scripts that include nothing is sound and complete for the grammar of such
    scripts, and the grammar derives no more than one agenda from a script. -/
theorem accepts_iff_derives {ctx : Context} {file source : String}
    (hmethods : ctx.workspace.methods.Built)
    (hsource : ¬ includeDirective.toList <:+: source.toList) :
    (∀ a, (∃ found, parse ctx file source = .ok found ∧ Agenda.unplaced found = a) ↔
      ScriptText ctx.workspace (NestedText ctx.workspace ctx.settings.maxDepth)
        ctx.settings.entry source.toList a) ∧
    ∀ a b,
      ScriptText ctx.workspace (NestedText ctx.workspace ctx.settings.maxDepth)
        ctx.settings.entry source.toList a →
      ScriptText ctx.workspace (NestedText ctx.workspace ctx.settings.maxDepth)
        ctx.settings.entry source.toList b → a = b := by
  have haccepts : ∀ a, (∃ found, parse ctx file source = .ok found ∧ Agenda.unplaced found = a) ↔
      ScriptText ctx.workspace (NestedText ctx.workspace ctx.settings.maxDepth)
        ctx.settings.entry source.toList a :=
    fun a => (exists_parse_iff hmethods.sound).trans (scriptText_iff_nestedText hsource)
  refine ⟨haccepts, fun a b ha hb => ?_⟩
  -- both agendas are the one that is read
  obtain ⟨found, hfound, rfl⟩ := (haccepts a).2 ha
  obtain ⟨found', hfound', rfl⟩ := (haccepts b).2 hb
  rw [hfound, Except.ok.injEq] at hfound'
  rw [hfound']

/-- A script of the small workspace is derived, since it is read. -/
theorem derives_copy : Workspace.small.methods.Built ∧
    ¬ includeDirective.toList <:+: "Arts \x7b Copy(x, y) # twice\n Wait \x7d".toList ∧
    ∃ a, ScriptText .small (NestedText .small 64) "Arts"
      "Arts \x7b Copy(x, y) # twice\n Wait \x7d".toList a ∧ Agenda.count a = 2 := by
  have hsource : ¬ includeDirective.toList <:+: "Arts \x7b Copy(x, y) # twice\n Wait \x7d".toList := by
    decide +kernel
  have hread : acceptsWith .small "main" "Arts \x7b Copy(x, y) # twice\n Wait \x7d"
      (fun a => Agenda.count (Agenda.unplaced a) = 2) = true := by decide +kernel
  obtain ⟨found, hfound, hcount⟩ := acceptsWith_iff.1 hread
  have hderives := (@accepts_iff_derives .small "main" _ Workspace.small_methods_built hsource).1
  exact ⟨Workspace.small_methods_built, hsource, _, (hderives _).1 ⟨found, hfound, rfl⟩,
    of_decide_eq_true hcount⟩

end ControlScript.Reading
