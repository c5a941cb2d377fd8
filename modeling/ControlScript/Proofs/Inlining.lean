import ControlScript.Proofs.Binding
import ControlScript.Proofs.Grammar.Exchange
import ControlScript.Proofs.Termination
import Mathlib.Logic.Relation

/-!
# Included texts stand where their directives stand

When reading a script comes to an include directive, the script may as well contain the included
text in place of the directive, on lines of its own.  The parts of the script in front of the
directive and behind it are read as before; in between, the statements that were read from the
included text are now read one level higher and with fewer files open.
-/

namespace ControlScript.Reading

open Grammar

variable {ctx : Context} {s s' u : Progress}

/-! ## 1. Places that reading comes to -/

/-- The place behind the next part of an agenda in braces, if the agenda has another part. -/
def behind? (ctx : Context) (s : Progress) : Option Progress :=
  match agendaTurn ctx (reader ctx) .brace [] s with
  | .ok (.again _) u => some u
  | _ => none

/-- The place in the braces of the next statement, if that has an agenda in braces. -/
def inside? (ctx : Context) (s : Progress) : Option Progress :=
  match head ctx.workspace s.cursor.pastBlanks with
  | .ok (.call call) u =>
    match openBrace (ctx.workspace.methods.get call.method) u with
    | .ok true v =>
      if (ctx.workspace.methods.get call.method).takesAgenda then
        some ⟨v, { s.nesting with depth := s.nesting.depth + 1 }⟩
      else none
    | _ => none
  | _ => none

/-- In the agendas of a script, reading comes from one place to another. -/
def GoesOn (ctx : Context) (s u : Progress) : Prop := behind? ctx s = some u ∨ inside? ctx s = some u

/-- Reading a script comes to a place in one of its own agendas. -/
def ComesTo (ctx : Context) (file source : String) (s : Progress) : Prop :=
  ∃ outermost, inside? ctx ⟨.start file source.toList, ⟨0, [file]⟩⟩ = some outermost ∧
    Relation.ReflTransGen (GoesOn ctx) outermost s

theorem behind?_eq_some_iff : behind? ctx s = some u ↔
    ∃ next, agendaTurn ctx (reader ctx) .brace [] s = .ok (.again next) u := by
  rw [behind?]
  cases hturn : agendaTurn ctx (reader ctx) .brace [] s with
  | error e t => simp
  | ok turn t =>
    cases turn with
    | done found => simp
    | again next => simp

theorem inside?_eq_some_iff : inside? ctx s = some u ↔ ∃ call c v,
    head ctx.workspace s.cursor.pastBlanks = .ok (.call call) c ∧
    openBrace (ctx.workspace.methods.get call.method) c = .ok true v ∧
    (ctx.workspace.methods.get call.method).takesAgenda = true ∧
    u = ⟨v, { s.nesting with depth := s.nesting.depth + 1 }⟩ := by
  rw [inside?]
  cases hhead : head ctx.workspace s.cursor.pastBlanks with
  | error e c => simp
  | ok found c =>
    cases found with
    | inclusion path here => simp
    | call call =>
      cases hopen : openBrace (ctx.workspace.methods.get call.method) c with
      | error e v => simp [hopen]
      | ok braced v =>
        cases braced with
        | false => simp [hopen]
        | true =>
          by_cases hagenda : (ctx.workspace.methods.get call.method).takesAgenda = true
          · simp [hopen, hagenda]
            exact eq_comm
          · simp [hopen, hagenda]

/-- What a turn reads does not depend on what was found before. -/
theorem agendaTurn_again {nested : Terminator → Read Agenda} {terminator : Terminator}
    {before next : Agenda} (h : agendaTurn ctx nested terminator before s = .ok (.again next) s')
    (before' : Agenda) :
    ∃ next', agendaTurn ctx nested terminator before' s = .ok (.again next') s' := by
  rcases agendaTurn_eq_ok_iff.1 h with ⟨_, hdone, _⟩ | ⟨hend, hrest, hparts⟩
  · cases hdone
  rcases hparts with ⟨path, here, v, found, hhead, hread, -⟩ | ⟨call, v, found, hhead, hread, -⟩
  · refine ⟨found.reverse ++ before', agendaTurn_eq_ok_iff.2 (.inr ⟨hend, hrest, .inl ?_⟩)⟩
    exact ⟨path, here, v, found, hhead, hread, rfl⟩
  · refine ⟨found :: before', agendaTurn_eq_ok_iff.2 (.inr ⟨hend, hrest, .inr ?_⟩)⟩
    exact ⟨call, v, found, hhead, hread, rfl⟩

/-- The reader of scripts reads agendas on every level as the grammar says. -/
theorem reader_nests (hr : ctx.workspace.methods.Sound) {depth levels : Nat}
    (hlevels : depth + levels = ctx.settings.maxDepth) :
    Nests ctx (reader ctx) (AgendaText ctx.workspace ctx.texts levels) depth := by
  induction levels generalizing depth with
  | zero =>
    obtain rfl : depth = ctx.settings.maxDepth := hlevels
    exact nests_nothing _
  | succ levels ih =>
    rw [reader_eq]
    exact (ih (by omega)).agendaBy hr (by omega)

/-! ## 2. Agendas with an exchanged end -/

variable {hole tail : List Char} {depth levels : Nat} {files : List String}

/-- The statements that are read from a place on are also found when the end of the text is
    exchanged. -/
structure KeepsExchanged (ctx : Context) (hole tail : List Char) (s : Progress) : Prop where
  statements : ∀ {depth levels : Nat} {files : List String} {before found : Agenda} {s' : Progress},
    s.nesting = ⟨depth, files⟩ → depth + levels = ctx.settings.maxDepth →
    turnsLeft ctx .brace before s = .ok found s' →
    ∃ others text', found = before.reverse ++ others ∧
      Exchanged hole tail (trim s.cursor.rest) text' ∧
      Statements ctx (AgendaText ctx.workspace ctx.texts levels) files text' s'.cursor.rest
        (Agenda.unplaced others)

theorem partText_exchanges {nested : Phrase Agenda} {included : String → Agenda → Prop}
    (hnested : nested.Exchanges hole tail) :
    Phrase.Exchanges hole tail (PartText (StatementText ctx.workspace nested) included) := by
  intro text rest found rest' h hrest
  cases h with
  | statement h =>
    obtain ⟨text', htext, h'⟩ := statementText_exchanges hnested h hrest
    exact ⟨text', htext, .statement h'⟩
  | directive h hfound =>
    obtain ⟨text', htext, h'⟩ := directiveText_exchanges h hrest
    exact ⟨text', htext, .directive h' hfound⟩

/-- A part that is read first is in front of what is exchanged. -/
theorem KeepsExchanged.behind (hr : ctx.workspace.methods.Sound) (hon : behind? ctx s = some u)
    (hu : KeepsExchanged ctx hole tail u) : KeepsExchanged ctx hole tail s := by
  refine ⟨fun {depth levels files before found s'} hs hlevels h => ?_⟩
  obtain ⟨next, hturn⟩ := behind?_eq_some_iff.1 hon
  obtain ⟨next', hturn'⟩ := agendaTurn_again hturn before
  rw [turnsLeft_eq, hturn', afterTurn] at h
  obtain ⟨hnesting, part, rest, rfl, hpart, hrest⟩ :=
    part_of_turn hr (reader_nests hr hlevels) hs hturn'
  obtain ⟨others, text', rfl, htext', hothers⟩ := hu.statements (hnesting.trans hs) hlevels h
  -- the exchange goes back over the blanks behind the part, and then over the part
  rw [hrest] at htext'
  obtain ⟨rest', hrest', hblanks⟩ := (blanks_trim rest).exchange htext'
  obtain ⟨text, htext, hpart'⟩ := partText_exchanges (agendaText_exchanges levels files) hpart hrest'
  refine ⟨part ++ others, text, by simp, htext, ?_⟩
  rw [Agenda.unplaced_append]
  exact .part .none hpart' (.blanks hblanks hothers)

/-- A call and the brace of its agenda are in front of what is exchanged. -/
theorem statement_of_inside (hr : ctx.workspace.methods.Sound) (hs : s.nesting = ⟨depth, files⟩)
    (hlevels : depth + levels = ctx.settings.maxDepth) (hon : inside? ctx s = some u)
    (hu : KeepsExchanged ctx hole tail u) {call : Call} {c : Cursor} {found : Statement}
    (hhead : head ctx.workspace s.cursor.pastBlanks = .ok (.call call) c)
    (hread : statement ctx (reader ctx) call ⟨c, s.nesting⟩ = .ok found s') :
    ∃ text' rest, Exchanged hole tail (trim s.cursor.rest) text' ∧
      StatementText ctx.workspace (AgendaText ctx.workspace ctx.texts levels files) text' rest
        found.unplaced ∧
      trim s'.cursor.rest = trim rest ∧ s'.nesting = s.nesting := by
  obtain ⟨call', c', v, hhead', hopen, hagenda, rfl⟩ := inside?_eq_some_iff.1 hon
  obtain ⟨hcall, rfl⟩ := EStateM.Result.ok.inj (hhead.symm.trans hhead')
  obtain rfl := Head.call.inj hcall
  obtain ⟨-, base, behind, hcall, hc⟩ := callText_of_ok hr hhead
  rw [Cursor.rest_pastBlanks] at hcall
  -- the agenda is in braces, so that it is read one level deeper
  obtain ⟨hdepth, body, t, hbody, hclose, rfl, rfl⟩ := agenda_of_statement hread hopen hagenda
  have hdepth : s.nesting.depth < ctx.settings.maxDepth := hdepth
  have hdeeper : s.nesting.depth = depth := by rw [hs]
  obtain ⟨fewer, rfl⟩ : ∃ fewer, levels = fewer + 1 := ⟨levels - 1, by omega⟩
  have hu' : (Progress.mk v { s.nesting with depth := s.nesting.depth + 1 }).nesting
      = ⟨depth + 1, files⟩ := by rw [hs]
  rw [reader_eq_turnsLeft] at hbody
  have hnesting : t.nesting = { s.nesting with depth := s.nesting.depth + 1 } := by
    rw [← reader_eq_turnsLeft] at hbody
    exact reader_restores hbody
  have hfewer : depth + 1 + fewer = ctx.settings.maxDepth := by omega
  obtain ⟨others, text', rfl, htext', hothers⟩ := hu.statements hu' hfewer hbody
  obtain ⟨rest, hrest⟩ := List.head?_eq_some_iff.1 hclose
  rw [hrest] at hothers
  -- the exchange goes back over the blanks in the braces, the brace and the blanks in front of it
  obtain ⟨t₀, ht₀, hv⟩ := brace_of_openBrace hopen
  rw [hv, trim_dropFeeds] at htext'
  obtain ⟨inside, hinside, hblanks⟩ := (blanks_trim t₀).exchange htext'
  have hbehind : Blanks behind ('\x7b' :: t₀) := by
    rw [← ht₀, hc]
    exact blanks_trim behind
  obtain ⟨behind', hbehind', hblanks'⟩ := hbehind.exchange (hinside.cons '\x7b')
  obtain ⟨text, htext, hcall'⟩ := callText_exchanges hcall hbehind'
  refine ⟨text, rest, htext, .mk hcall' hblanks' (.agenda hagenda ?_), ?_, ?_⟩
  · exact AgendaText.blanks hblanks hothers
  · show trim t.cursor.advance.rest = trim rest
    exact Cursor.trim_rest_advance hrest
  · show Nesting.mk (t.nesting.depth - 1) t.nesting.files = s.nesting
    rw [hnesting, Nat.add_sub_cancel]

/-- What an agenda begins with when reading enters its first statement. -/
theorem turn_of_inside (hr : ctx.workspace.methods.Sound) (hon : inside? ctx s = some u)
    {terminator : Terminator} {before : Agenda} {turn : Turn Agenda Agenda}
    (h : agendaTurn ctx (reader ctx) terminator before s = .ok turn s') :
    ∃ call c found, head ctx.workspace s.cursor.pastBlanks = .ok (.call call) c ∧
      statement ctx (reader ctx) call ⟨c, s.nesting⟩ = .ok found s' ∧
      turn = .again (found :: before) := by
  obtain ⟨call, c, v, hhead, hopen, hagenda, rfl⟩ := inside?_eq_some_iff.1 hon
  rcases agendaTurn_eq_ok_iff.1 h with ⟨hend, _, _⟩ |
    ⟨_, _, ⟨path, here, w, found, hhead', _, _⟩ | ⟨call', c', found, hhead', hread, rfl⟩⟩
  · -- a call begins with a name, which ends no agenda
    obtain ⟨-, base, rest, hcall, -⟩ := callText_of_ok hr hhead
    obtain ⟨ch, t, ht, hch⟩ := hcall.head
    rw [ht] at hend
    exact absurd hend (not_ends_of_name hch)
  · cases hhead.symm.trans hhead'
  · exact ⟨call', c', found, hhead', hread, rfl⟩

theorem KeepsExchanged.inside (hr : ctx.workspace.methods.Sound) (hon : inside? ctx s = some u)
    (hu : KeepsExchanged ctx hole tail u) : KeepsExchanged ctx hole tail s := by
  refine ⟨fun {depth levels files before found s'} hs hlevels h => ?_⟩
  rw [turnsLeft_eq] at h
  cases hturn : agendaTurn ctx (reader ctx) .brace before s with
  | error e t =>
    rw [hturn] at h
    cases h
  | ok turn t =>
    obtain ⟨call, c, first, hhead, hread, rfl⟩ := turn_of_inside hr hon hturn
    rw [hturn, afterTurn] at h
    obtain ⟨text', rest, htext', hfirst, hrest, hnesting⟩ :=
      statement_of_inside hr hs hlevels hon hu hhead hread
    have hothers := statements_of_turns hr (reader_nests hr hlevels) (hnesting.trans hs) h
    obtain ⟨others, rfl, hothers, hend, -⟩ := hothers
    refine ⟨first :: others, text', by simp, htext', .statement .none hfirst ?_⟩
    exact hothers.of_trim statementText_solid hend.solid.1 hrest.symm

/-! ## 3. Directives -/

/-- At a directive, the turn reads what the directive includes. -/
theorem turn_of_directive {path : String} {rest : List Char}
    (hdirective : DirectiveText s.cursor.pastBlanks.rest rest path) {terminator : Terminator}
    {before : Agenda} {turn : Turn Agenda Agenda}
    (h : agendaTurn ctx (reader ctx) terminator before s = .ok turn s') :
    ∃ here c found, c.rest = dropFeeds rest ∧
      inclusion ctx (reader ctx) path here ⟨c, s.nesting⟩ = .ok found s' ∧
      turn = .again (found.reverse ++ before) := by
  obtain ⟨c, hhead, hc⟩ := ok_of_directiveText (w := ctx.workspace) hdirective
  rcases agendaTurn_eq_ok_iff.1 h with ⟨hend, _, _⟩ |
    ⟨_, _, ⟨path', here, c', found, hhead', hread, rfl⟩ | ⟨call, c', found, hhead', _, _⟩⟩
  · obtain ⟨ch, t, ht, hch⟩ := hdirective.head
    rw [ht] at hend
    exact absurd hend (not_ends_of_name hch)
  · obtain ⟨hpath, rfl⟩ := EStateM.Result.ok.inj (hhead.symm.trans hhead')
    obtain ⟨rfl, rfl⟩ := Head.inclusion.inj hpath
    exact ⟨_, c, found, hc, hread, rfl⟩
  · cases hhead.symm.trans hhead'

/-- An included text is an agenda wherever it stands on lines of its own, one level higher. -/
theorem statements_of_included {path : String} {text : IncludedText} {found : Agenda}
    (htext : ctx.texts path = .ok text)
    (h : Included ctx (AgendaText ctx.workspace ctx.texts levels) files path found)
    (rest : List Char) :
    Statements ctx (AgendaText ctx.workspace ctx.texts levels) files
      (text.text.toList ++ '\n' :: rest) ('\n' :: rest) found := by
  obtain ⟨text', htext', -, hfound⟩ := h
  obtain rfl := Except.ok.inj (htext.symm.trans htext')
  have hhigher : AgendaText ctx.workspace ctx.texts (levels + 1) files text.text.toList [] found :=
    hfound.mono (by omega) fun file hfile => List.mem_append_left _ hfile
  -- the end of the text is exchanged for what is behind it here
  have hend : Exchanged [] rest [] ('\n' :: rest) := .here
  obtain ⟨whole, hwhole, hstatements⟩ := agendaText_exchanges (levels + 1) files hhigher hend
  have hfront : text.text.toList = text.text.toList ++ [] := (List.append_nil _).symm
  rw [hfront] at hwhole
  rw [← hwhole.eq_append]
  exact hstatements

theorem keepsExchanged_directive (hr : ctx.workspace.methods.Sound) {path : String}
    {text : IncludedText} {rest : List Char} (hhole : s.cursor.pastBlanks.rest = hole)
    (hdirective : DirectiveText hole rest path) (htext : ctx.texts path = .ok text) :
    KeepsExchanged ctx hole (text.text.toList ++ '\n' :: rest) s := by
  refine ⟨fun {depth levels files before found s'} hs hlevels h => ?_⟩
  rw [turnsLeft_eq] at h
  cases hturn : agendaTurn ctx (reader ctx) .brace before s with
  | error e t =>
    rw [hturn] at h
    cases h
  | ok turn t =>
    obtain ⟨here, c, included, hc, hread, rfl⟩ := turn_of_directive (hhole ▸ hdirective) hturn
    rw [hturn, afterTurn] at h
    have hnests := reader_nests hr hlevels
    have hs' : (Progress.mk c s.nesting).nesting = ⟨depth, files⟩ := hs
    obtain ⟨hincluded, rfl⟩ := included_of_ok hnests hs' hread
    obtain ⟨others, rfl, hothers, -, -⟩ := statements_of_turns hr hnests hs' h
    have hothers : Statements ctx _ files c.rest _ _ := hothers
    rw [hc] at hothers
    refine ⟨included ++ others, '\n' :: (text.text.toList ++ '\n' :: rest), by simp, ?_, ?_⟩
    · rw [← Cursor.rest_pastBlanks, hhole]
      exact .here
    · rw [Agenda.unplaced_append]
      apply SequenceText.blanks (.blank (by decide) .none)
      apply (statements_of_included htext hincluded rest).append
      exact hothers.blanks (.blank (by decide) (blanks_dropFeeds rest))

/-! ## 4. Scripts -/

/-- On the way to a place, only what is behind the place is exchanged. -/
theorem keepsExchanged_of_goesOn (hr : ctx.workspace.methods.Sound)
    (h : Relation.ReflTransGen (GoesOn ctx) u s) (hs : KeepsExchanged ctx hole tail s) :
    KeepsExchanged ctx hole tail u := by
  induction h using Relation.ReflTransGen.head_induction_on with
  | refl => exact hs
  | head hstep _ ih =>
    rcases hstep with hbehind | hinside
    · exact ih.behind hr hbehind
    · exact ih.inside hr hinside

/-- A script in which reading comes to a directive may contain the included text instead. -/
theorem inlines_directive {file front directive rest path : String} {text : IncludedText}
    {a : Agenda} (hmethods : ctx.workspace.methods.Built)
    (hread : parse ctx file (front ++ directive ++ rest) = .ok a)
    (hplace : ComesTo ctx file (front ++ directive ++ rest) s)
    (hhere : s.cursor.pastBlanks.rest = (directive ++ rest).toList)
    (hdirective : DirectiveText (directive ++ rest).toList rest.toList path)
    (htext : ctx.texts path = .ok text) :
    ∃ b, parse ctx file (front ++ "\n" ++ text.text ++ "\n" ++ rest) = .ok b ∧
      Agenda.bindsLike a b = true := by
  have hr := hmethods.sound
  obtain ⟨outermost, hon, hpath⟩ := hplace
  have hkeeps := keepsExchanged_of_goesOn hr hpath (keepsExchanged_directive hr hhere hdirective htext)
  obtain ⟨s', h⟩ := parse_eq_ok_iff.1 hread
  obtain ⟨call, c, t, hhead, hstatement, hname, hend, rfl⟩ := script_eq_ok_iff.1 h
  -- the exchange is carried outwards, from the agenda with the directive to the whole script
  obtain ⟨text', behind, htext', hwhole, hbehind, -⟩ :=
    statement_of_inside hr rfl (Nat.zero_add _) hon hkeeps hhead hstatement
  rw [Cursor.rest_start, trim_dropFeeds] at htext'
  rw [Cursor.rest_pastBlanks, hbehind] at hend
  obtain ⟨source, hsource, hblanks⟩ := (blanks_trim _).exchange htext'
  have hscript : ScriptText ctx.workspace (Body ctx file) ctx.settings.entry source
      (Agenda.unplaced a) := .mk hblanks hwhole (blanks_nil_iff.2 hend) hname
  have hsource : source = (front ++ "\n" ++ text.text ++ "\n" ++ rest).toList := by
    have hsplit : (front ++ directive ++ rest).toList = front.toList ++ (directive ++ rest).toList := by
      rw [String.append_assoc, String.toList_append]
    rw [hsplit] at hsource
    rw [hsource.eq_append]
    simp
  obtain ⟨b, hb, hsame⟩ := ok_of_scriptText hr (hsource ▸ hscript)
  exact ⟨b, hb, Agenda.bindsLike_of_unplaced_eq hsame.symm (literate_of_parse hr hread)⟩

/-- Reading against the small workspace, with a text that ends in a comment. -/
def Context.including : Context :=
  { workspace := .small, texts := .ofList [("a", "Copy(x, y) # once")] }

/-- A script in front of a directive in its inner agenda. -/
def frontOfDirective : String := "Arts \x7b Wait Arts \x7b "

/-- The script behind the directive. -/
def restOfDirective : String := " \x7d Wait \x7d"

/-- A script of the small workspace may contain a text in place of a directive. -/
theorem inlines_copy : Workspace.small.methods.Built ∧
    ∃ s a b, parse .including "main" (frontOfDirective ++ "INCLUDE \"a\"" ++ restOfDirective) = .ok a ∧
      ComesTo .including "main" (frontOfDirective ++ "INCLUDE \"a\"" ++ restOfDirective) s ∧
      s.cursor.pastBlanks.rest = ("INCLUDE \"a\"" ++ restOfDirective).toList ∧
      DirectiveText ("INCLUDE \"a\"" ++ restOfDirective).toList restOfDirective.toList "a" ∧
      Context.including.texts "a" = .ok ⟨"a", "Copy(x, y) # once"⟩ ∧
      parse .including "main"
        (frontOfDirective ++ "\n" ++ "Copy(x, y) # once" ++ "\n" ++ restOfDirective) = .ok b ∧
      Agenda.count a = 4 ∧ Agenda.bindsLike a b = true := by
  let source := frontOfDirective ++ "INCLUDE \"a\"" ++ restOfDirective
  have hread : acceptsWith .including "main" source (fun a => Agenda.count a = 4) = true := by
    decide +kernel
  obtain ⟨a, ha, hcount⟩ := acceptsWith_iff.1 hread
  -- behind the first statement and inside of the second one stands the directive
  have hpath : (((inside? .including ⟨.start "main" source.toList, ⟨0, ["main"]⟩⟩).bind
      (behind? .including)).bind (inside? .including)).map (·.cursor.pastBlanks.rest)
      = some ("INCLUDE \"a\"" ++ restOfDirective).toList := by decide +kernel
  obtain ⟨s, hs, hhere⟩ := Option.map_eq_some_iff.1 hpath
  obtain ⟨u, hu, hinside⟩ := Option.bind_eq_some_iff.1 hs
  obtain ⟨outermost, houtermost, hbehind⟩ := Option.bind_eq_some_iff.1 hu
  have hplace : ComesTo .including "main" source s :=
    ⟨outermost, houtermost, .head (.inl hbehind) (.single (.inr hinside))⟩
  have hdirective : DirectiveText ("INCLUDE \"a\"" ++ restOfDirective).toList
      restOfDirective.toList "a" := by
    have hname : NameText ("INCLUDE \"a\"" ++ restOfDirective).toList
        (" \"a\"" ++ restOfDirective).toList includeDirective :=
      ⟨⟨rfl, List.all_eq_true.1 (by decide), by rintro c ⟨⟩; decide⟩, by decide⟩
    refine .mk hname (.blank (by decide) .none) ⟨rfl, ?_⟩
    intro c hc
    obtain rfl : c = 'a' := by simpa using hc
    decide
  obtain ⟨b, hb, hbinds⟩ :=
    inlines_directive Workspace.small_methods_built ha hplace hhere hdirective rfl
  exact ⟨Workspace.small_methods_built, s, a, b, ha, hplace, hhere, hdirective, rfl, hb,
    of_decide_eq_true hcount, hbinds⟩

end ControlScript.Reading
