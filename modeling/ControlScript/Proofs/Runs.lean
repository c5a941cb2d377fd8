import ControlScript.Proofs.Visits

/-!
# Runs from a place on

What reading does from a place on, it does at places that it comes to.  Every statement that is
found has been read at such a place.  Where reading stops at a fault, the open files are those of
such a place and the fault is reported in the text in front of it, so that a cycle is always that of
a directive.
-/

namespace ControlScript.Reading

variable {ctx : Context} {o : Cursor} {s t u : Progress} {f : Fault}

/-! ## 1. Where statements and directives stop -/

section Steps

variable {α : Type}

/-- Reading in the text in front of a cursor stops at a fault that is reported there and is no
    cycle, and has neither opened nor closed a file. -/
structure StopsHere (o : Cursor) (s : Progress) (f : Fault) (t : Progress) : Prop where
  files : t.nesting.files = s.nesting.files
  marked : o.Marks f.position
  kind : f.cause.kind ≠ .includeCycle

theorem StopsHere.of_scan {y : Scan α} (hs : o.Reaches s.cursor) (hy : Scan.Forward o y)
    (h : scan y s = .error f t) : StopsHere o s f t := by
  rw [scan] at h
  cases hscan : y.run s.cursor with
  | ok a c => simp [hscan] at h
  | error e c =>
    rw [hscan] at h
    obtain ⟨rfl, rfl⟩ := EStateM.Result.error.inj h
    have hreports := hy.reports hs hscan
    exact ⟨rfl, hreports.marked, fun hcycle => hreports.plain (.inr hcycle)⟩

theorem StopsHere.of_files (h : StopsHere o u f t) (hfiles : u.nesting.files = s.nesting.files) :
    StopsHere o s f t := ⟨h.files.trans hfiles, h.marked, h.kind⟩

theorem enter_stops {settings : Settings} {here : Position} (hhere : o.Marks here)
    (h : enter settings here s = .error f t) : StopsHere o s f t := by
  by_cases hlevel : s.nesting.depth < settings.maxDepth
  · rw [enter_of_lt hlevel] at h
    cases h
  · rw [enter_of_le (Nat.le_of_not_lt hlevel)] at h
    obtain ⟨rfl, rfl⟩ := EStateM.Result.error.inj h
    exact ⟨rfl, hhere, by rintro ⟨⟩⟩

end Steps

/-- A call is reported at its place, in front of its name. -/
theorem marks_of_head {w : Workspace} {c c' : Cursor} {call : Call} (hc : o.Reaches c)
    (hhead : head w c = .ok (.call call) c') : o.Marks call.position := by
  rw [position_of_head hhead]
  exact hc.marks

section Nested

variable {nested : Terminator → Read Agenda} {terminator : Terminator}

/-- What comes behind the body of a statement is at most a brace. -/
theorem closing_stops (found : Statement) (braced : Bool)
    (h : (do
      if braced then
        scan (Scan.expect '\x7d')
      return found : Read Statement) s = .error f t) (hs : o.Reaches s.cursor) :
    StopsHere o s f t := by
  cases braced with
  | false => cases h
  | true =>
    rcases bind_eq_error_iff.1 h with h | ⟨_, _, -, h⟩
    · exact .of_scan hs (Scan.forward_expect _) h
    · cases h

/-- A statement stops in its own text or in the agenda in its braces. -/
theorem statement_stops {call : Call} (hnested : Restores ctx (levelsLeft ctx s) nested)
    (honward : Onward nested) (hs : o.Reaches s.cursor) (hcall : o.Marks call.position)
    (h : statement ctx nested call s = .error f t) :
    StopsHere o s f t ∨ ∃ v, openBrace (ctx.workspace.methods.get call.method) s.cursor = .ok true v ∧
      (ctx.workspace.methods.get call.method).takesAgenda = true ∧
      s.nesting.depth < ctx.settings.maxDepth ∧
      nested .brace ⟨v, { s.nesting with depth := s.nesting.depth + 1 }⟩ = .error f t := by
  rw [statement, bind_eq_error_iff] at h
  rcases h with h | ⟨braced, _, hopen, h⟩
  · exact .inl (.of_scan hs (forward_openBrace _) h)
  obtain ⟨v, hbrace, rfl⟩ := scan_eq_ok_iff.1 hopen
  have hv : o.Reaches v := hs.trans ((forward_openBrace _).reaches hbrace)
  by_cases hagenda : (ctx.workspace.methods.get call.method).takesAgenda = true
  · rw [if_pos hagenda] at h
    cases braced with
    | false => cases h
    | true =>
      rw [if_pos rfl] at h
      rcases bind_eq_error_iff.1 h with h | ⟨_, _, henter, h⟩
      · exact .inl ((enter_stops hcall h).of_files rfl)
      obtain ⟨hlevel, rfl⟩ := enter_eq_ok_iff.1 henter
      have hlevel : s.nesting.depth < ctx.settings.maxDepth := hlevel
      rcases bind_eq_error_iff.1 h with h | ⟨body, w, hbody, h⟩
      · exact .inr ⟨v, hbrace, hagenda, hlevel, h⟩
      -- behind the agenda the level is left
      have hfiles : w.nesting.files = s.nesting.files := by
        rw [hnested.nesting (levelsLeft_below hlevel) hbody]
      rcases bind_eq_error_iff.1 h with h | ⟨_, _, hleave, h⟩
      · cases h
      · obtain rfl := leave_eq_ok_iff.1 hleave
        have hw := hv.trans (honward.reaches hbody)
        exact .inl ((closing_stops (.agenda call body) true h hw).of_files hfiles)
  · rw [if_neg hagenda] at h
    rcases bind_eq_error_iff.1 h with h | ⟨values, _, hbind, h⟩
    · exact .inl ((StopsHere.of_scan hv (forward_bindKeywords _ _ hcall) h).of_files rfl)
    · obtain ⟨w, hvalues, rfl⟩ := scan_eq_ok_iff.1 hbind
      have hw := hv.trans (reaches_bindKeywords hvalues)
      exact .inl ((closing_stops (.keywords call values) braced h hw).of_files rfl)

/-- A directive for an open file stops as a cycle. -/
structure StopsAsCycle (ctx : Context) (path : String) (here : Position) (s : Progress) (f : Fault)
    (t : Progress) : Prop where
  state : t = s
  fault : ∃ text, ctx.texts path = .ok text ∧ text.name ∈ s.nesting.files ∧
    f = ⟨.includeCycle text.name (s.nesting.files ++ [text.name]), here⟩

/-- A directive stops where it stands or in the included text. -/
theorem inclusion_stops {path : String} {here : Position} (hhere : o.Marks here)
    (h : inclusion ctx nested path here s = .error f t) :
    StopsHere o s f t ∨ StopsAsCycle ctx path here s f t ∨
      ∃ text, ctx.texts path = .ok text ∧ text.name ∉ s.nesting.files ∧
        s.nesting.depth < ctx.settings.maxDepth ∧
        nested .endOfText ⟨.start text.name text.text.toList,
          ⟨s.nesting.depth + 1, s.nesting.files ++ [text.name]⟩⟩ = .error f t := by
  have hget : (get : Read Progress) s = .ok s s := rfl
  cases htext : ctx.texts path with
  | error e =>
    rw [inclusion, htext] at h
    obtain ⟨rfl, rfl⟩ := EStateM.Result.error.inj h
    exact .inl ⟨rfl, hhere, by rintro ⟨⟩⟩
  | ok text =>
    rw [inclusion, htext] at h
    dsimp only at h
    rw [bind_of_ok hget] at h
    by_cases hopen : text.name ∈ s.nesting.files
    · rw [if_pos hopen] at h
      obtain ⟨rfl, rfl⟩ := EStateM.Result.error.inj h
      exact .inr (.inl ⟨rfl, text, htext, hopen, rfl⟩)
    · rw [if_neg hopen] at h
      rcases bind_eq_error_iff.1 h with h | ⟨_, _, henter, h⟩
      · exact .inl (enter_stops hhere h)
      obtain ⟨hlevel, rfl⟩ := enter_eq_ok_iff.1 henter
      rcases bind_eq_error_iff.1 h with h | ⟨_, _, hfile, h⟩
      · cases h
      obtain rfl := openFile_eq_ok_iff.1 hfile
      rcases bind_eq_error_iff.1 h with h | ⟨found, w, -, h⟩
      · exact .inr (.inr ⟨text, rfl, hopen, hlevel, h⟩)
      -- closing the file and leaving the level succeed
      · cases h

theorem forward_nextHead? {o : Cursor} (w : Workspace) (terminator : Terminator) :
    Scan.Forward o (nextHead? w terminator) := by
  refine Scan.forward_skipBlanks.bind fun _ => (forward_atTerminator _).bind fun ended => ?_
  cases ended with
  | true => exact Scan.forward_pure
  | false => exact (forward_head w).bind fun _ => Scan.forward_pure

/-- A turn stops in front of a statement or a directive, or behind its head. -/
theorem agendaTurn_stops {before : Agenda}
    (h : agendaTurn ctx nested terminator before s = .error f t) :
    StopsHere s.cursor s f t ∨ ∃ found c, head ctx.workspace s.cursor.pastBlanks = .ok found c ∧
      behindHead ctx nested before found ⟨c, s.nesting⟩ = .error f t := by
  rw [agendaTurn_eq] at h
  rcases bind_eq_error_iff.1 h with h | ⟨found, u, hscan, h⟩
  · exact .inl (.of_scan (.refl _) (forward_nextHead? _ _) h)
  obtain ⟨c, hnext, rfl⟩ := scan_eq_ok_iff.1 hscan
  rcases nextHead?_eq_ok_iff.1 hnext with ⟨-, rfl, -⟩ | ⟨-, -, first, hhead, rfl⟩
  · cases h
  · exact .inr ⟨first, c, hhead, h⟩

end Nested

/-! ## 2. Where runs stop -/

section Places

variable {file source : String} {terminator : Terminator}

/-- Reading stops at a place that it comes to: the files that are open are those of the place, the
    fault is reported in the text in front of it, and a cycle is that of the directive there. -/
structure StopsAt (ctx : Context) (file source : String) (f : Fault) (t : Progress) : Prop where
  place : ∃ terminator u, Visits ctx file source terminator u ∧
    t.nesting.files = u.nesting.files ∧ u.cursor.Marks f.position ∧
    (f.cause.kind = .includeCycle → ∃ path text, directive? ctx.workspace u = some path ∧
      ctx.texts path = .ok text ∧ text.name ∈ u.nesting.files ∧
      f = ⟨.includeCycle text.name (u.nesting.files ++ [text.name]), u.cursor.pastBlanks.position⟩)

theorem StopsHere.stopsAt (h : StopsHere s.cursor s f t) (hs : Visits ctx file source terminator s) :
    StopsAt ctx file source f t :=
  ⟨terminator, s, hs, h.files, h.marked, fun hcycle => absurd hcycle h.kind⟩

theorem turnsLeft_of_reader {r : EStateM.Result Fault Progress Agenda}
    (h : reader ctx terminator s = r) : turnsLeft ctx terminator [] s = r := by
  rwa [reader_eq_turnsLeft] at h

/-- A turn stops at its place, or in an agenda or an included text that begins there. -/
theorem Visits.turn_stops (hs : Visits ctx file source terminator s) {before : Agenda}
    (h : agendaTurn ctx (reader ctx) terminator before s = .error f t) :
    StopsAt ctx file source f t ∨ ∃ inner u, Visits ctx file source inner u ∧
      levelsLeft ctx u < levelsLeft ctx s ∧ turnsLeft ctx inner [] u = .error f t := by
  rcases agendaTurn_stops h with h | ⟨found, c, hhead, h⟩
  · exact .inl (h.stopsAt hs)
  have hpast := s.cursor.reaches_pastBlanks
  cases found with
  | inclusion path here =>
    obtain ⟨rfl, -⟩ := directiveText_of_ok hhead
    have hdirective : directive? ctx.workspace s = some path := directive?_eq_some_iff.2 ⟨c, hhead⟩
    rcases bind_eq_error_iff.1 h with h | ⟨_, _, -, h⟩
    case inr => cases h
    rcases inclusion_stops hpast.marks h with h | ⟨rfl, text, htext, hopen, rfl⟩ |
      ⟨text, htext, hnew, hlevel, h⟩
    · exact .inl ((h.of_files (s := s) rfl).stopsAt hs)
    · exact .inl ⟨terminator, s, hs, rfl, hpast.marks, fun _ =>
        ⟨path, text, hdirective, htext, hopen, rfl⟩⟩
    · have hincluded := included?_eq_some_iff.2 ⟨path, text, hdirective, htext, hnew, rfl⟩
      exact .inr ⟨_, _, hs.included hlevel hincluded, levelsLeft_below hlevel,
        turnsLeft_of_reader h⟩
  | call call =>
    rcases bind_eq_error_iff.1 h with h | ⟨_, _, -, h⟩
    case inr => cases h
    have hc := hpast.trans ((forward_head _).reaches hhead)
    rcases statement_stops (agenda_restores ctx _ _) (agenda_onward ctx _) hc
      (marks_of_head hpast hhead) h with h | ⟨v, hopen, hagenda, hlevel, h⟩
    · exact .inl ((h.of_files (s := s) rfl).stopsAt hs)
    · have hinside := inside?_eq_some_iff.2 ⟨call, c, v, hhead, hopen, hagenda, rfl⟩
      exact .inr ⟨_, _, hs.inside hlevel hinside, levelsLeft_below hlevel, turnsLeft_of_reader h⟩

/-- What is read from a place on stops at a place. -/
theorem Visits.turns_stop (hs : Visits ctx file source terminator s) {before : Agenda}
    (h : turnsLeft ctx terminator before s = .error f t) : StopsAt ctx file source f t := by
  induction terminator, s using turns_induction ctx generalizing before with
  | @h terminator s ihnested ihbehind =>
  rw [turnsLeft_eq] at h
  cases hturn : agendaTurn ctx (reader ctx) terminator before s with
  | error e v =>
    rw [hturn] at h
    obtain ⟨rfl, rfl⟩ := EStateM.Result.error.inj h
    rcases hs.turn_stops hturn with h | ⟨inner, u, hu, hless, h⟩
    · exact h
    · exact ihnested hless hu h
  | ok turn v =>
    rw [hturn] at h
    cases turn with
    | done result => cases h
    | again next =>
      obtain ⟨_, hnil⟩ := agendaTurn_again hturn []
      exact ihbehind hturn (hs.next hnil) h

/-- Where a script stops at a fault, only its own file is open, or it stops at a place. -/
theorem script_stops {s : Progress} (h : script ctx file source s = .error f t) :
    StopsHere (.start file source.toList) ⟨.start file source.toList, ⟨0, [file]⟩⟩ f t ∨
      StopsAt ctx file source f t := by
  have hset : (set { cursor := .start file source.toList, nesting := ⟨0, [file]⟩ : Progress } :
      Read PUnit) s = .ok ⟨⟩ ⟨.start file source.toList, ⟨0, [file]⟩⟩ := rfl
  rw [script, bind_of_ok hset] at h
  rcases bind_eq_error_iff.1 h with h | ⟨_, _, hblanks, h⟩
  · exact .inl (.of_scan (.refl _) Scan.forward_skipBlanks h)
  obtain ⟨b, hpast, rfl⟩ := scan_eq_ok_iff.1 hblanks
  have hb := Scan.forward_skipBlanks.reaches hpast
  obtain rfl := Scan.skipBlanks_eq_ok_iff.1 hpast
  rcases bind_eq_error_iff.1 h with h | ⟨found, _, hfound, h⟩
  · exact .inl ((StopsHere.of_scan hb (forward_head _) h).of_files rfl)
  obtain ⟨c, hhead, rfl⟩ := scan_eq_ok_iff.1 hfound
  cases found with
  | inclusion path here =>
    obtain ⟨rfl, rfl⟩ := EStateM.Result.error.inj h
    obtain ⟨rfl, -⟩ := directiveText_of_ok hhead
    exact .inl ⟨rfl, hb.marks, by rintro ⟨⟩⟩
  | call call =>
    have hc := hb.trans ((forward_head _).reaches hhead)
    have hcall := marks_of_head hb hhead
    rcases bind_eq_error_iff.1 h with h | ⟨outermost, u, hread, h⟩
    · rcases statement_stops (agenda_restores ctx _ _) (agenda_onward ctx _) hc hcall h with
        h | ⟨v, hopen, hagenda, hlevel, h⟩
      · exact .inl (h.of_files rfl)
      · have hinside := inside?_eq_some_iff.2 ⟨call, c, v, hhead, hopen, hagenda, rfl⟩
        exact .inr ((Visits.outermost hlevel hinside).turns_stop (turnsLeft_of_reader h))
    -- what is checked behind the statement is checked where only the script is open
    · have hfiles : u.nesting.files = [file] := by
        rw [(agenda_restores ctx _ _).statement hread]
      have hu := hc.trans ((agenda_onward ctx _).statement hread)
      by_cases hname : (ctx.workspace.methods.get call.method).name ≠ ctx.settings.entry
      · dsimp only at h
        rw [if_pos hname] at h
        obtain ⟨rfl, rfl⟩ := EStateM.Result.error.inj h
        exact .inl ⟨hfiles, hcall, by rintro ⟨⟩⟩
      · dsimp only at h
        rw [if_neg hname] at h
        rcases bind_eq_error_iff.1 h with h | ⟨_, _, hend, h⟩
        · exact .inl ((StopsHere.of_scan hu (forward_endOfScript _) h).of_files hfiles)
        obtain ⟨w, -, rfl⟩ := scan_eq_ok_iff.1 hend
        cases outermost with
        | agenda _ _ => cases h
        | keywords _ _ =>
          obtain ⟨rfl, rfl⟩ := EStateM.Result.error.inj h
          exact .inl ⟨hfiles, hcall, by rintro ⟨⟩⟩

/-! ## 3. What runs find -/

/-- A statement has been read at a place that reading comes to. -/
def FoundAtPlace (ctx : Context) (file source : String) (found : Statement) : Prop :=
  ∃ terminator u c, Visits ctx file source terminator u ∧
    head ctx.workspace u.cursor.pastBlanks = .ok (.call found.call) c

/-- The statements inside of a statement have been read at places of the agenda in its braces. -/
theorem Visits.statement_finds (hs : Visits ctx file source terminator s) {call : Call} {c : Cursor}
    (hhead : head ctx.workspace s.cursor.pastBlanks = .ok (.call call) c) {found : Statement}
    (hnested : ∀ {u a t}, levelsLeft ctx u < levelsLeft ctx s → Visits ctx file source .brace u →
      turnsLeft ctx .brace [] u = .ok a t → ∀ v ∈ Agenda.preorder a, FoundAtPlace ctx file source v)
    (h : statement ctx (reader ctx) call ⟨c, s.nesting⟩ = .ok found t) :
    ∀ v ∈ found.preorder, FoundAtPlace ctx file source v := by
  have hcall := call_of_statement h
  have hfound : FoundAtPlace ctx file source found := by
    refine ⟨terminator, s, c, hs, ?_⟩
    rwa [hcall]
  obtain ⟨braced, w, hopen, h⟩ := statement_eq_ok_iff.1 h
  rcases h with ⟨hagenda, rfl, hlevel, body, v, hbody, _, rfl, _⟩ | ⟨_, _, rfl, _⟩ |
    ⟨_, values, _, _, rfl, _⟩
  · have hlevel : s.nesting.depth < ctx.settings.maxDepth := hlevel
    have hinside := inside?_eq_some_iff.2 ⟨call, c, w, hhead, hopen, hagenda, rfl⟩
    have hbody := hnested (levelsLeft_below hlevel) (hs.inside hlevel hinside)
      (turnsLeft_of_reader hbody)
    exact List.forall_mem_cons.2 ⟨hfound, hbody⟩
  · exact List.forall_mem_cons.2 ⟨hfound, List.forall_mem_nil _⟩
  · exact List.forall_mem_singleton.2 hfound

/-- What is read from a place on has been read at places. -/
theorem Visits.turns_find (hs : Visits ctx file source terminator s) {before found : Agenda}
    (hbefore : ∀ v ∈ Agenda.preorder before.reverse, FoundAtPlace ctx file source v)
    (h : turnsLeft ctx terminator before s = .ok found t) :
    ∀ v ∈ Agenda.preorder found, FoundAtPlace ctx file source v := by
  induction terminator, s using turns_induction ctx generalizing before found t with
  | @h terminator s ihnested ihbehind =>
  rw [turnsLeft_eq] at h
  cases hturn : agendaTurn ctx (reader ctx) terminator before s with
  | error e v =>
    rw [hturn] at h
    cases h
  | ok turn v =>
    rw [hturn] at h
    rcases agendaTurn_eq_ok_iff.1 hturn with ⟨_, rfl, rfl⟩ |
      ⟨_, _, ⟨path, here, c, included, hhead, hread, rfl⟩ | ⟨call, c, next, hhead, hread, rfl⟩⟩
    · obtain ⟨rfl, rfl⟩ := EStateM.Result.ok.inj h
      exact hbefore
    · obtain ⟨_, hnil⟩ := agendaTurn_again hturn []
      refine ihbehind hturn (hs.next hnil) ?_ h
      obtain ⟨rfl, -⟩ := directiveText_of_ok hhead
      have hdirective := directive?_eq_some_iff.2 ⟨c, hhead⟩
      obtain ⟨text, w, htext, hnew, hlevel, hnested, -⟩ := inclusion_eq_ok_iff.1 hread
      have hlevel : s.nesting.depth < ctx.settings.maxDepth := hlevel
      have hplace := hs.included hlevel
        (included?_eq_some_iff.2 ⟨path, text, hdirective, htext, hnew, rfl⟩)
      have hincluded := ihnested (levelsLeft_below hlevel) hplace (List.forall_mem_nil _)
        (turnsLeft_of_reader hnested)
      rw [List.reverse_append, List.reverse_reverse, Agenda.preorder_append]
      exact List.forall_mem_append.2 ⟨hbefore, hincluded⟩
    · obtain ⟨_, hnil⟩ := agendaTurn_again hturn []
      refine ihbehind hturn (hs.next hnil) ?_ h
      have hnext := hs.statement_finds hhead
        (fun hless hu hbody => ihnested hless hu (List.forall_mem_nil _) hbody) hread
      rw [List.reverse_cons, Agenda.preorder_append, Agenda.preorder, Agenda.preorder,
        List.append_nil]
      exact List.forall_mem_append.2 ⟨hbefore, hnext⟩

/-- Every statement of a script has been read at a place. -/
theorem found_of_parse {found : Agenda} (h : parse ctx file source = .ok found) :
    ∀ v ∈ Agenda.preorder found, FoundAtPlace ctx file source v := by
  obtain ⟨_, h⟩ := parse_eq_ok_iff.1 h
  obtain ⟨call, c, t, hhead, hread, -⟩ := script_eq_ok_iff.1 h
  obtain ⟨braced, w, hopen, h⟩ := statement_eq_ok_iff.1 hread
  rcases h with ⟨hagenda, rfl, hlevel, body, v, hbody, _, hfound, _⟩ | ⟨_, _, hfound, _⟩ |
    ⟨_, values, _, _, hfound, _⟩
  · obtain ⟨-, rfl⟩ := Statement.agenda.inj hfound
    have hinside : inside? ctx ⟨.start file source.toList, ⟨0, [file]⟩⟩ = some ⟨w, ⟨1, [file]⟩⟩ :=
      inside?_eq_some_iff.2 ⟨call, c, w, hhead, hopen, hagenda, rfl⟩
    have hplace : Visits ctx file source .brace _ := .outermost hlevel hinside
    have hturns := turnsLeft_of_reader hbody
    have hnone : ∀ v ∈ Agenda.preorder ([] : Agenda).reverse, FoundAtPlace ctx file source v :=
      List.forall_mem_nil _
    exact hplace.turns_find hnone hturns
  · obtain ⟨-, rfl⟩ := Statement.agenda.inj hfound
    exact List.forall_mem_nil _
  · cases hfound

end Places

end ControlScript.Reading
