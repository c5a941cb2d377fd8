import ControlScript.Proofs.Canonical.Entry
import ControlScript.Proofs.Visits

/-!
# Levels of canonical texts

In a canonical text every agenda is in braces, so reading it takes one level for every agenda that
stands inside another, and one for the outermost.  A script may leave out the braces of an innermost
agenda that says nothing, so its canonical text may take a level more than the script did: with as
many levels as that, it is read; with any fewer, it is refused as nested too deep.
-/

namespace ControlScript.Reading

open Grammar Canonical

variable {ctx : Context} {file source : String} {s : Progress}

/-! ## 1. Braces in front of a place -/

/-- At the lines of a statement with an agenda, reading finds the braces of the agenda, and in them
    the lines of what the agenda consists of. -/
theorem inside?_of_lines (hr : ctx.workspace.methods.Sound) {layout : Layout} {level : Nat}
    {call : Call} {body : Agenda} {rest : List Char}
    (hwritable : (Statement.agenda call body).Writable ctx.workspace)
    (hs : trim s.cursor.rest = trim
      (written layout (statementLines ctx.workspace layout level (.agenda call body)) ++ rest)) :
    ∃ u close, inside? ctx s = some u ∧ NothingOpens close ∧
      trim u.cursor.rest
        = trim (written layout (agendaLines ctx.workspace layout (level + 1) body) ++ close) := by
  obtain ⟨⟨base, hcall⟩, hagenda, -⟩ := hwritable
  obtain ⟨text, close, hclose, hinside, hlines⟩ := @blanks_agendaBlock layout level
    (Canonical.head ctx.workspace call) (agendaLines ctx.workspace layout (level + 1) body) rest
  have hcall : CallText ctx.workspace base _ (' ' :: '\x7b' :: text) call :=
    hcall (wordEnds_cons (by decide) _)
  have hbrace : trim (' ' :: '\x7b' :: text) = '\x7b' :: text := by
    rw [trim_blank (by decide), trim_solid (by decide) (by decide)]
  -- the call is in front of the brace
  have hstart : s.cursor.pastBlanks.rest
      = (Canonical.head ctx.workspace call).toList ++ ' ' :: '\x7b' :: text := by
    rw [Cursor.rest_pastBlanks, hs, statementLines, hlines.trim_eq, callText_solid hcall]
  obtain ⟨c, hhead, hc⟩ := ok_of_callText hr (hstart ▸ hcall) (by rw [hbrace]; simp)
  rw [hbrace] at hc
  have hopen := openBrace_of_brace (ctx.workspace.methods.get call.method) hc
  refine ⟨_, close, inside?_eq_some_iff.2 ⟨_, c, _, hhead, hopen, hagenda, rfl⟩, ?_, ?_⟩
  · rw [NothingOpens, hclose.trim_eq, trim_solid (by decide) (by decide)]
    simp
  · show trim c.pastBlanks.advance.rest = _
    rw [rest_behind_brace hc, trim_dropFeeds, hinside.trim_eq]

/-- Where no level is left, a statement with an agenda in braces is refused. -/
theorem statement_tooDeep {nested : Terminator → Read Agenda} {u : Progress}
    (hinside : inside? ctx s = some u) (hlevel : ctx.settings.maxDepth ≤ s.nesting.depth) :
    ∃ call c, head ctx.workspace s.cursor.pastBlanks = .ok (.call call) c ∧
      Fails (statement ctx nested call) ⟨c, s.nesting⟩
        ⟨.nestingTooDeep ctx.settings.maxDepth, call.position⟩ := by
  obtain ⟨call, c, v, hhead, hopen, hagenda, -⟩ := inside?_eq_some_iff.1 hinside
  have hlevel : ctx.settings.maxDepth ≤ (Progress.mk v s.nesting).nesting.depth := hlevel
  exact ⟨call, c, hhead, statement_fails hopen hagenda ⟨_, bind_of_error (enter_of_le hlevel)⟩⟩

/-! ## 2. Too few levels -/

/-- A script is refused because it is nested too deep. -/
def TooDeep (ctx : Context) (file source : String) : Prop :=
  ∃ f, parse ctx file source = .error f ∧ f.cause.kind = .nestingTooDeep

instance : Decidable (TooDeep ctx file source) :=
  match h : parse ctx file source with
  | .ok _ => isFalse fun ⟨_, hf, _⟩ => nomatch h.symm.trans hf
  | .error f => decidable_of_iff (f.cause.kind = .nestingTooDeep)
    ⟨fun hkind => ⟨f, h, hkind⟩, fun ⟨_, hf, hkind⟩ => Except.error.inj (h.symm.trans hf) ▸ hkind⟩

section TooDeep

variable {layout : Layout}

mutual

/-- Reading that comes to the lines of a statement is refused if there is no level left for one of
    the agendas in it. -/
theorem statement_of_few_levels (hr : ctx.workspace.methods.Sound)
    (hnamed : ∀ e ∈ ctx.workspace.methods.entries, e.method.KeywordsNamed) (t : Statement)
    (hwritable : t.Writable ctx.workspace) {terminator : Terminator} {s : Progress}
    (hs : Visits ctx file source terminator s) {level : Nat} {rest : List Char}
    (hlines : trim s.cursor.rest
      = trim (written layout (statementLines ctx.workspace layout level t) ++ rest))
    (hfew : ctx.settings.maxDepth < s.nesting.depth + t.depth) : TooDeep ctx file source := by
  match t with
  | .keywords call values =>
    -- no agenda, and reading has not come too deep so far
    have hdepth := hs.depth_le
    rw [Statement.depth] at hfew
    omega
  | .agenda call body =>
    obtain ⟨u, close, hinside, hclose, hu⟩ := inside?_of_lines hr hwritable hlines
    by_cases hlevel : s.nesting.depth < ctx.settings.maxDepth
    · have hfew' : ctx.settings.maxDepth < u.nesting.depth + Agenda.depth body := by
        rw [Statement.depth] at hfew
        rw [nesting_of_inside? hinside]
        show _ < s.nesting.depth + 1 + _
        omega
      exact agenda_of_few_levels hr hnamed body hwritable.2.2 (hs.inside hlevel hinside) hclose hu
        hfew'
    · obtain ⟨call', c, hhead, hfails⟩ := statement_tooDeep hinside (Nat.le_of_not_lt hlevel)
      exact ⟨_, hs.parse_eq (agendaTurn_fails_of_statement hhead hfails), rfl⟩

theorem agenda_of_few_levels (hr : ctx.workspace.methods.Sound)
    (hnamed : ∀ e ∈ ctx.workspace.methods.entries, e.method.KeywordsNamed) (a : List Statement)
    (hwritable : Agenda.Writable ctx.workspace a) {terminator : Terminator} {s : Progress}
    (hs : Visits ctx file source terminator s) {level : Nat} {rest : List Char}
    (hrest : NothingOpens rest)
    (hlines : trim s.cursor.rest
      = trim (written layout (agendaLines ctx.workspace layout level a) ++ rest))
    (hfew : ctx.settings.maxDepth < s.nesting.depth + Agenda.depth a) : TooDeep ctx file source := by
  match a with
  | [] =>
    have hdepth := hs.depth_le
    rw [Agenda.depth] at hfew
    omega
  | t :: others =>
    rw [agendaLines, written_append, List.append_assoc] at hlines
    by_cases hfirst : ctx.settings.maxDepth < s.nesting.depth + t.depth
    · exact statement_of_few_levels hr hnamed t hwritable.1 hs hlines hfirst
    -- the first statement is read, and the levels are used up behind it
    have hdepth := hs.depth_le
    have hlevels : s.nesting.depth + (ctx.settings.maxDepth - s.nesting.depth)
        = ctx.settings.maxDepth := by omega
    have hfits : t.depth ≤ ctx.settings.maxDepth - s.nesting.depth := by omega
    obtain ⟨text, hblanks, hstatement⟩ := @statement_reread _ ctx.texts s.nesting.files layout hr
      hnamed t hwritable.1 _ hfits level
      (written layout (agendaLines ctx.workspace layout level others) ++ rest)
    have hopens : NothingOpens ('\n' :: (written layout (agendaLines ctx.workspace layout level others)
        ++ rest)) := by
      rw [NothingOpens, trim_blank (by decide)]
      exact agendaLines_nothingOpens hr hnamed hwritable.2 level hrest
    have htext : trim s.cursor.rest = text := by
      rw [hlines, hblanks.trim_eq, statementText_solid hstatement]
    obtain ⟨found, u, hturn, -, hu, hnesting⟩ := turn_of_part hr (reader_nests hr hlevels) rfl
      (.statement hstatement) htext hopens []
    rw [trim_blank (by decide)] at hu
    have hfew' : ctx.settings.maxDepth < u.nesting.depth + Agenda.depth others := by
      rw [Agenda.depth] at hfew
      rw [hnesting]
      omega
    exact agenda_of_few_levels hr hnamed others hwritable.2 (hs.next hturn) hrest hu hfew'

end

end TooDeep

/-! ## 3. Canonical texts -/

/-- The canonical text of an agenda is nested too deep if there are not more levels than the agenda
    has. -/
theorem canonical_tooDeep (hr : ctx.workspace.methods.Sound)
    (hnamed : ∀ e ∈ ctx.workspace.methods.entries, e.method.KeywordsNamed) {call : Call} {a : Agenda}
    (hwritable : (Statement.agenda call a).Writable ctx.workspace) {entry : String}
    (hhead : Canonical.head ctx.workspace call = entry) (layout : Layout)
    (hlevels : ctx.settings.maxDepth ≤ Agenda.depth a) :
    TooDeep ctx file (Canonical.text ctx.workspace layout entry a) := by
  let start : Progress :=
    ⟨.start file (Canonical.text ctx.workspace layout entry a).toList, ⟨0, [file]⟩⟩
  have hlines : Canonical.lines ctx.workspace layout entry a
      = statementLines ctx.workspace layout 0 (.agenda call a) := by
    rw [statementLines, hhead, Canonical.lines]
  have hstart : trim start.cursor.rest
      = trim (written layout (statementLines ctx.workspace layout 0 (.agenda call a)) ++ []) := by
    rw [Cursor.rest_start, trim_dropFeeds, toList_text, hlines, List.append_nil]
  obtain ⟨u, close, hinside, hclose, hu⟩ := inside?_of_lines hr hwritable hstart
  by_cases hlevel : 0 < ctx.settings.maxDepth
  · have hfew : ctx.settings.maxDepth < u.nesting.depth + Agenda.depth a := by
      rw [nesting_of_inside? hinside]
      show _ < 0 + 1 + _
      omega
    exact agenda_of_few_levels hr hnamed a hwritable.2.2 (.outermost hlevel hinside) hclose hu hfew
  · -- not even the outermost agenda can be entered
    obtain ⟨call', c, hhead, hfails⟩ := statement_tooDeep hinside (Nat.le_of_not_lt hlevel)
    exact ⟨_, parse_eq_error_iff.2 (script_fails hhead hfails), rfl⟩

/-- Only behind the name of an entry method that is read from it can a canonical text be nested too
    deep. -/
theorem enterable_of_tooDeep (hr : ctx.workspace.methods.Sound)
    (hentry : ∀ c ∈ ctx.settings.entry.toList, Scan.isNameChar c = true) {layout : Layout} {a : Agenda}
    (h : TooDeep ctx file (Canonical.text ctx.workspace layout ctx.settings.entry a)) :
    Enterable ctx.workspace ctx.settings.entry := by
  obtain ⟨f, hparse, hkind⟩ := h
  obtain ⟨u, hinside⟩ := inside?_of_refused (.inl hkind) (parse_eq_error_iff.1 hparse)
  obtain ⟨call, c, -, hhead, -, hagenda, -⟩ := inside?_eq_some_iff.1 hinside
  obtain ⟨-, base, rest, hcall, -⟩ := callText_of_ok hr hhead
  rw [Cursor.rest_pastBlanks, Cursor.rest_start, trim_dropFeeds] at hcall
  obtain ⟨more, htext⟩ := exists_text_eq ctx.workspace layout ctx.settings.entry a
  rw [htext] at hcall
  exact enterable_of_callText hentry (blanks_trim _) hcall hagenda

/-- The canonical text of an agenda takes one level more than the agenda, which takes no more than
    there were to read it from the script.  Where the name of the entry method is enough to read the
    text, it is read as the same agenda if there are as many levels, and is nested too deep if there
    are any fewer; where the name is not enough, the text is refused for another reason. -/
theorem canonical_text_levels {a : Agenda} (hmethods : ctx.workspace.methods.Built)
    (hnamed : ∀ e ∈ ctx.workspace.methods.entries, e.method.KeywordsNamed)
    (hentry : ∀ c ∈ ctx.settings.entry.toList, Scan.isNameChar c = true)
    (h : parse ctx file source = .ok a) (layout : Layout) :
    Agenda.depth a ≤ ctx.settings.maxDepth ∧ ∀ (texts : TextSource) (maxDepth : Nat) (file' : String),
      (TooDeep ((ctx.finding texts).bounded maxDepth) file'
          (Canonical.text ctx.workspace layout ctx.settings.entry a) ↔
        Enterable ctx.workspace ctx.settings.entry ∧ maxDepth ≤ Agenda.depth a) ∧
      (Enterable ctx.workspace ctx.settings.entry → Agenda.depth a < maxDepth →
        ∃ b, parse ((ctx.finding texts).bounded maxDepth) file'
            (Canonical.text ctx.workspace layout ctx.settings.entry a) = .ok b ∧
          Agenda.unplaced b = Agenda.unplaced a) := by
  have hr := hmethods.sound
  obtain ⟨hwritable, hdepth⟩ := writable_of_parse hr h
  refine ⟨hdepth, fun texts maxDepth file' => ?_⟩
  let again : Context := (ctx.finding texts).bounded maxDepth
  have haccepted : Enterable ctx.workspace ctx.settings.entry → Agenda.depth a < maxDepth →
      ∃ b, parse again file' (Canonical.text ctx.workspace layout ctx.settings.entry a) = .ok b ∧
        Agenda.unplaced b = Agenda.unplaced a := by
    intro henterable hmore
    exact @parse_of_enterable again hr hnamed henterable a hwritable hmore layout file'
  refine ⟨⟨fun hdeep => ?_, fun ⟨henterable, hfew⟩ => ?_⟩, haccepted⟩
  · have henterable := @enterable_of_tooDeep again file' hr hentry layout a hdeep
    refine ⟨henterable, Nat.le_of_not_lt fun hmore => ?_⟩
    -- the text is read, so it is not refused
    obtain ⟨b, hb, -⟩ := haccepted henterable hmore
    obtain ⟨f, hf, -⟩ := hdeep
    cases hb.symm.trans hf
  · obtain ⟨call, hstands, hhead, -, hagenda⟩ := henterable.call
    rw [← Agenda.depth_unplaced] at hfew
    rw [← text_unplaced]
    have hstatement : (Statement.agenda call (Agenda.unplaced a)).Writable ctx.workspace :=
      ⟨hstands, hagenda, hwritable⟩
    exact @canonical_tooDeep again file' hr hnamed call _ hstatement _ hhead layout hfew

/-- A script with an agenda without braces on its last level: its canonical text is refused with the
    same levels, and read with one more. -/
theorem canonical_text_levels_innermost : Workspace.small.methods.Built ∧
    (∀ e ∈ Workspace.small.methods.entries, e.method.KeywordsNamed) ∧
    Enterable Workspace.small "Arts" ∧
    ∃ a, parse (Context.small.bounded 1) "main" "Arts \x7b Arts \x7d" = .ok a ∧
      TooDeep (Context.small.bounded 1) "again" (Canonical.text .small {} "Arts" a) ∧
      ∃ b, parse (Context.small.bounded 2) "again" (Canonical.text .small {} "Arts" a) = .ok b ∧
        Agenda.unplaced b = Agenda.unplaced a := by
  have hnamed : ∀ e ∈ Workspace.small.methods.entries, e.method.KeywordsNamed := by decide
  have hentry : ∀ c ∈ "Arts".toList, Scan.isNameChar c = true := List.all_eq_true.1 (by decide)
  have henterable : Enterable Workspace.small "Arts" :=
    ⟨by decide, hentry, by decide, _, rfl, by decide, by decide⟩
  have hread : acceptsWith (Context.small.bounded 1) "main" "Arts \x7b Arts \x7d"
      (fun a => Agenda.depth a = 1) = true := by decide +kernel
  obtain ⟨a, ha, hdepth⟩ := acceptsWith_iff.1 hread
  have hdepth : Agenda.depth a = 1 := of_decide_eq_true hdepth
  obtain ⟨-, hlevels⟩ := @canonical_text_levels (Context.small.bounded 1) _ _ _
    Workspace.small_methods_built hnamed hentry ha {}
  exact ⟨Workspace.small_methods_built, hnamed, henterable, a, ha,
    (hlevels _ 1 "again").1.2 ⟨henterable, Nat.le_of_eq hdepth.symm⟩,
    (hlevels _ 2 "again").2 henterable (by rw [hdepth]; decide)⟩

/-- With no levels at all a script of one word is accepted, but its canonical text, which has braces
    behind the word, is not. -/
theorem canonical_text_tooDeep_for_its_script : ¬ ∀ (ctx : Context) (layout : Layout)
    (file file' source : String) (a : Agenda), ctx.workspace.methods.Built →
      ctx.workspace.vars.Built → parse ctx file source = .ok a →
      ¬ TooDeep ctx file' (Canonical.text ctx.workspace layout ctx.settings.entry a) := by
  intro hclaim
  have hread : acceptsWith (Context.small.bounded 0) "main" "Arts" (fun a =>
      TooDeep (Context.small.bounded 0) "again" (Canonical.text .small {} "Arts" a)) = true := by
    decide +kernel
  obtain ⟨a, ha, hdeep⟩ := acceptsWith_iff.1 hread
  apply hclaim (Context.small.bounded 0) {} "main" "again" "Arts" a
  · exact Workspace.small_methods_built
  · exact Workspace.small_vars_built
  · exact ha
  · exact of_decide_eq_true hdeep

end ControlScript.Reading
