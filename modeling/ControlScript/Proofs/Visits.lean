import ControlScript.Proofs.Inlining

/-!
# Places that reading comes to

Reading a script comes to places in its own text and in the included ones: in front of every part of
an agenda, in the braces of a statement, and at the beginning of a text.  What is open at a place is
what was opened on the way there; and a fault at one place is the fault of the whole script, since
nothing behind it is read.
-/

namespace ControlScript.Reading

variable {ctx : Context} {s u : Progress} {f : Fault}

/-! ## 1. Faults -/

/-- A reader fails with a given fault, wherever it stops. -/
def Fails {α : Type} (x : Read α) (s : Progress) (f : Fault) : Prop := ∃ t, x s = .error f t

section Faults

variable {α β : Type} {x : Read α} {g : α → Read β} {a : α}

theorem Fails.bind (h : Fails x s f) : Fails (x >>= g) s f := by
  obtain ⟨t, ht⟩ := h
  exact ⟨t, bind_of_error ht⟩

theorem fails_after (hx : x s = .ok a u) (h : Fails (g a) u f) : Fails (x >>= g) s f := by
  obtain ⟨t, ht⟩ := h
  exact ⟨t, (bind_of_ok hx).trans ht⟩

theorem Fails.of_bind (h : Fails (x >>= g) s f) :
    Fails x s f ∨ ∃ a u, x s = .ok a u ∧ Fails (g a) u f := by
  obtain ⟨t, ht⟩ := h
  cases hx : x s with
  | ok a u =>
    rw [bind_of_ok hx] at ht
    exact .inr ⟨a, u, rfl, t, ht⟩
  | error e u =>
    rw [bind_of_error hx] at ht
    obtain ⟨rfl, -⟩ := EStateM.Result.error.inj ht
    exact .inl ⟨u, hx⟩

theorem fails_map_iff {g : α → β} : Fails (g <$> x) s f ↔ Fails x s f := by
  show (∃ t, EStateM.map g x s = .error f t) ↔ ∃ t, x s = .error f t
  rw [EStateM.map]
  cases x s with
  | ok a t => simp
  | error e t => simp

theorem fails_throw : Fails (throw f : Read α) s f := ⟨s, rfl⟩

/-- A scan is not refused, so what comes behind it is. -/
theorem Fails.of_scan {y : Scan α}
    (hy : ∀ {e c}, y s.cursor = .error e c → ¬ e.Refuses) (hf : f.Refuses)
    (h : Fails (scan y >>= g) s f) :
    ∃ a c, y s.cursor = .ok a c ∧ Fails (g a) ⟨c, s.nesting⟩ f := by
  rcases h.of_bind with ⟨t, ht⟩ | ⟨a, u, hread, h⟩
  · exfalso
    rw [scan] at ht
    cases hscan : y.run s.cursor with
    | ok a c => simp [hscan] at ht
    | error e c =>
      rw [hscan] at ht
      obtain ⟨rfl, -⟩ := EStateM.Result.error.inj ht
      exact hy hscan hf
  · obtain ⟨c, hc, rfl⟩ := scan_eq_ok_iff.1 hread
    exact ⟨a, c, hc, h⟩

theorem not_fails_pure : ¬ Fails (pure a : Read α) s f := fun ⟨_, h⟩ => nomatch h

theorem not_fails_throw {e : Fault} (hf : f.Refuses) (he : ¬ e.Refuses) :
    ¬ Fails (throw e : Read α) s f := by
  rintro ⟨_, h⟩
  obtain ⟨rfl, -⟩ := EStateM.Result.error.inj h
  exact he hf

/-- What is wrong with an entry method is no refusal. -/
theorem not_fails_wrongEntry {cause : Cause} {here : Position} (hf : f.Refuses)
    (hkind : cause.kind = .wrongEntry) : ¬ Fails (throw ⟨cause, here⟩ : Read α) s f := by
  apply not_fails_throw hf
  apply Fault.not_refuses
  · simp [hkind]
  · simp [hkind]

theorem parse_eq_error_iff {file source : String} :
    parse ctx file source = .error f ↔ Fails (script ctx file source) {} f := by
  unfold parse
  show _ ↔ ∃ t, (script ctx file source).run {} = .error f t
  cases (script ctx file source).run {} with
  | ok found t => simp
  | error e t => simp

end Faults

/-! ## 2. Faults of statements and directives -/

section Nested

variable {nested : Terminator → Read Agenda} {terminator : Terminator} {before : Agenda}

/-- A statement with an agenda in braces first enters a level and then reads the agenda. -/
theorem statement_fails {call : Call} {c v : Cursor} {nesting : Nesting}
    (hopen : openBrace (ctx.workspace.methods.get call.method) c = .ok true v)
    (hagenda : (ctx.workspace.methods.get call.method).takesAgenda = true)
    (h : Fails (enter ctx.settings call.position >>= fun _ => nested .brace) ⟨v, nesting⟩ f) :
    Fails (statement ctx nested call) ⟨c, nesting⟩ f := by
  have hopen : scan (openBrace (ctx.workspace.methods.get call.method)) ⟨c, nesting⟩
      = .ok true ⟨v, nesting⟩ := scan_eq_ok_iff.2 ⟨v, hopen, rfl⟩
  refine fails_after hopen ?_
  simp only [hagenda, if_true]
  -- what is read behind the agenda does not matter
  rw [← bind_assoc]
  exact h.bind

theorem leave_not_fails : ¬ Fails leave s f := fun ⟨_, h⟩ => nomatch h

/-- What comes behind the body of a statement is at most a brace. -/
theorem closing_not_refused (found : Statement) (braced : Bool) (hf : f.Refuses) :
    ¬ Fails (do
      if braced then
        scan (Scan.expect '\x7d')
      return found) s f := by
  intro h
  cases braced with
  | false => exact not_fails_pure h
  | true =>
    obtain ⟨_, _, -, h⟩ := Fails.of_scan (Scan.forward_expect _).not_refuses hf h
    exact not_fails_pure h

/-- A statement is refused because of an agenda in braces. -/
theorem statement_refused {call : Call} {c : Cursor} {nesting : Nesting} (hf : f.Refuses)
    (h : Fails (statement ctx nested call) ⟨c, nesting⟩ f) :
    ∃ v, openBrace (ctx.workspace.methods.get call.method) c = .ok true v ∧
      (ctx.workspace.methods.get call.method).takesAgenda = true ∧
      Fails (enter ctx.settings call.position >>= fun _ => nested .brace) ⟨v, nesting⟩ f := by
  obtain ⟨braced, v, hopen, h⟩ := Fails.of_scan (forward_openBrace _).not_refuses hf h
  by_cases hagenda : (ctx.workspace.methods.get call.method).takesAgenda = true
  · rw [if_pos hagenda] at h
    cases braced with
    | false => exact absurd h (closing_not_refused _ false hf)
    | true =>
      refine ⟨v, hopen, hagenda, ?_⟩
      rw [if_pos rfl, ← bind_assoc] at h
      rcases h.of_bind with h | ⟨body, u, -, h⟩
      · exact h
      · rcases h.of_bind with h | ⟨_, t, -, h⟩
        · exact absurd h leave_not_fails
        · exact absurd h (closing_not_refused _ true hf)
  · rw [if_neg hagenda] at h
    obtain ⟨_, _, -, h⟩ := Fails.of_scan bindKeywords_not_refuses hf h
    exact absurd h (closing_not_refused _ braced hf)

theorem inclusion_of_cycle {path : String} {here : Position} {text : IncludedText}
    (htext : ctx.texts path = .ok text) (hopen : text.name ∈ s.nesting.files) :
    Fails (inclusion ctx nested path here) s
      ⟨.includeCycle text.name (s.nesting.files ++ [text.name]), here⟩ := by
  have hget : (get : Read Progress) s = .ok s s := rfl
  rw [inclusion, htext]
  refine fails_after hget ?_
  rw [if_pos hopen]
  exact fails_throw.bind

/-- A directive for a text that is not open enters a level and reads the text. -/
theorem inclusion_fails {path : String} {here : Position} {text : IncludedText}
    (htext : ctx.texts path = .ok text) (hnew : text.name ∉ s.nesting.files)
    (hlevel : s.nesting.depth < ctx.settings.maxDepth)
    (h : Fails (nested .endOfText) ⟨.start text.name text.text.toList,
      ⟨s.nesting.depth + 1, s.nesting.files ++ [text.name]⟩⟩ f) :
    Fails (inclusion ctx nested path here) s f := by
  have hget : (get : Read Progress) s = .ok s s := rfl
  have hopen : openFile text { s with nesting.depth := s.nesting.depth + 1 } = .ok ⟨⟩
      ⟨.start text.name text.text.toList,
        ⟨s.nesting.depth + 1, s.nesting.files ++ [text.name]⟩⟩ := openFile_eq_ok_iff.2 rfl
  rw [inclusion, htext]
  refine fails_after hget ?_
  rw [if_neg hnew]
  refine fails_after (enter_of_lt hlevel) ?_
  refine fails_after hopen ?_
  exact h.bind

/-- What a turn leads to behind statements that were found before. -/
def behind (before : Agenda) : Turn Agenda Agenda → Turn Agenda Agenda
  | .again next => .again (next ++ before)
  | .done found => .done (before.reverse ++ found)

/-- Statements that were found before decide neither what a turn reads nor whether it fails. -/
theorem agendaTurn_behind (nested : Terminator → Read Agenda) (terminator : Terminator)
    (before : Agenda) :
    agendaTurn ctx nested terminator before
      = behind before <$> agendaTurn ctx nested terminator [] := by
  rw [agendaTurn_eq, agendaTurn_eq, map_bind]
  refine bind_congr fun found => ?_
  cases found with
  | none => simp [behind]
  | some first => cases first <;> simp [behind, behindHead]

theorem agendaTurn_fails_of_statement {call : Call} {c : Cursor}
    (hhead : head ctx.workspace s.cursor.pastBlanks = .ok (.call call) c)
    (h : Fails (statement ctx nested call) ⟨c, s.nesting⟩ f) :
    Fails (agendaTurn ctx nested terminator before) s f := by
  rw [Fails, agendaTurn_of_head hhead]
  exact h.bind

theorem agendaTurn_fails_of_inclusion {path : String} {here : Position} {c : Cursor}
    (hhead : head ctx.workspace s.cursor.pastBlanks = .ok (.inclusion path here) c)
    (h : Fails (inclusion ctx nested path here) ⟨c, s.nesting⟩ f) :
    Fails (agendaTurn ctx nested terminator before) s f := by
  rw [Fails, agendaTurn_of_head hhead]
  exact h.bind

end Nested

/-! ## 3. Places -/

/-- The path of the directive in front of a place, if there is one. -/
def directive? (w : Workspace) (s : Progress) : Option String :=
  match head w s.cursor.pastBlanks with
  | .ok (.inclusion path _) _ => some path
  | _ => none

/-- The beginning of the text of the next directive, if that is there to be read and not open. -/
def included? (ctx : Context) (s : Progress) : Option Progress :=
  match (directive? ctx.workspace s).map ctx.texts with
  | some (.ok text) =>
    if text.name ∈ s.nesting.files then none
    else some ⟨.start text.name text.text.toList,
      ⟨s.nesting.depth + 1, s.nesting.files ++ [text.name]⟩⟩
  | _ => none

/-- Reading a script comes to a place of an agenda that ends in a given way. -/
inductive Visits (ctx : Context) (file source : String) : Terminator → Progress → Prop where
  | outermost {u : Progress} : 0 < ctx.settings.maxDepth →
      inside? ctx ⟨.start file source.toList, ⟨0, [file]⟩⟩ = some u → Visits ctx file source .brace u
  | next {terminator : Terminator} {s u : Progress} {found : Agenda} :
      Visits ctx file source terminator s →
      agendaTurn ctx (reader ctx) terminator [] s = .ok (.again found) u →
        Visits ctx file source terminator u
  | inside {terminator : Terminator} {s u : Progress} : Visits ctx file source terminator s →
      s.nesting.depth < ctx.settings.maxDepth → inside? ctx s = some u →
        Visits ctx file source .brace u
  | included {terminator : Terminator} {s u : Progress} : Visits ctx file source terminator s →
      s.nesting.depth < ctx.settings.maxDepth → included? ctx s = some u →
        Visits ctx file source .endOfText u

theorem directive?_eq_some_iff {w : Workspace} {path : String} : directive? w s = some path ↔
    ∃ c, head w s.cursor.pastBlanks = .ok (.inclusion path s.cursor.pastBlanks.position) c := by
  rw [directive?]
  cases hhead : head w s.cursor.pastBlanks with
  | error e c => simp
  | ok found c =>
    cases found with
    | call call => simp
    | inclusion path' here =>
      obtain ⟨rfl, -⟩ := directiveText_of_ok hhead
      simp

theorem included?_eq_some_iff : included? ctx s = some u ↔ ∃ path text,
    directive? ctx.workspace s = some path ∧ ctx.texts path = .ok text ∧
    text.name ∉ s.nesting.files ∧
    u = ⟨.start text.name text.text.toList,
      ⟨s.nesting.depth + 1, s.nesting.files ++ [text.name]⟩⟩ := by
  rw [included?]
  cases hdirective : directive? ctx.workspace s with
  | none => simp
  | some path =>
    cases htext : ctx.texts path with
    | error e => simp [htext]
    | ok text =>
      by_cases hopen : text.name ∈ s.nesting.files
      · simp [htext, hopen]
      · simp [htext, hopen]
        exact eq_comm

section Places

variable {file source : String} {terminator : Terminator}

/-- The files that are open at a place: the script, and then included texts, no two under one
    name. -/
structure Opened (ctx : Context) (file : String) (files : List String) : Prop where
  nodup : files.Nodup
  names : ∃ names, files = file :: names ∧ ∀ name ∈ names, ∃ path text,
    ctx.texts path = .ok text ∧ text.name = name

theorem Opened.start (ctx : Context) (file : String) : Opened ctx file [file] :=
  ⟨List.nodup_singleton file, [], rfl, List.forall_mem_nil _⟩

theorem Opened.push {files : List String} (h : Opened ctx file files) {path : String}
    {text : IncludedText} (htext : ctx.texts path = .ok text) (hnew : text.name ∉ files) :
    Opened ctx file (files ++ [text.name]) := by
  obtain ⟨hnodup, names, rfl, hnames⟩ := h
  refine ⟨?_, names ++ [text.name], rfl, ?_⟩
  · rw [List.nodup_append_comm]
    exact List.nodup_cons.2 ⟨hnew, hnodup⟩
  · rw [List.forall_mem_append]
    exact ⟨hnames, List.forall_mem_singleton.2 ⟨path, text, htext, rfl⟩⟩

theorem nesting_of_inside? (h : inside? ctx s = some u) :
    u.nesting = { s.nesting with depth := s.nesting.depth + 1 } := by
  obtain ⟨_, _, _, _, _, _, rfl⟩ := inside?_eq_some_iff.1 h
  rfl

theorem reaches_of_inside? (h : inside? ctx s = some u) : s.cursor.Reaches u.cursor := by
  obtain ⟨call, c, v, hhead, hopen, -, rfl⟩ := inside?_eq_some_iff.1 h
  have hcall := (forward_head _).reaches hhead
  exact s.cursor.reaches_pastBlanks.trans (hcall.trans ((forward_openBrace _).reaches hopen))

theorem nesting_of_turn {found : Agenda} {turn : Turn Agenda Agenda}
    (h : agendaTurn ctx (reader ctx) terminator found s = .ok turn u) : u.nesting = s.nesting :=
  (agenda_restores ctx _ _).agendaTurn h

theorem Visits.opened (h : Visits ctx file source terminator s) :
    Opened ctx file s.nesting.files := by
  induction h with
  | outermost _ hinside =>
    rw [nesting_of_inside? hinside]
    exact .start ctx file
  | next _ hturn ih => rwa [nesting_of_turn hturn]
  | inside _ _ hinside ih => rwa [nesting_of_inside? hinside]
  | included _ _ hincluded ih =>
    obtain ⟨path, text, _, htext, hnew, rfl⟩ := included?_eq_some_iff.1 hincluded
    exact ih.push htext hnew

/-- The text that is read at a place is that of the file that was opened last. -/
theorem Visits.innermost (h : Visits ctx file source terminator s) :
    s.nesting.files.getLast? = some s.cursor.file := by
  induction h with
  | outermost _ hinside =>
    rw [nesting_of_inside? hinside, (reaches_of_inside? hinside).file]
    rfl
  | next _ hturn ih =>
    rw [nesting_of_turn hturn, ((agenda_onward ctx _).turn_reaches hturn).file]
    exact ih
  | inside _ _ hinside ih =>
    rw [nesting_of_inside? hinside, (reaches_of_inside? hinside).file]
    exact ih
  | included _ _ hincluded _ =>
    obtain ⟨_, text, _, _, _, rfl⟩ := included?_eq_some_iff.1 hincluded
    exact List.getLast?_concat

theorem Visits.depth_le (h : Visits ctx file source terminator s) :
    s.nesting.depth ≤ ctx.settings.maxDepth := by
  induction h with
  | outermost hlevel hinside =>
    rw [nesting_of_inside? hinside]
    exact hlevel
  | next _ hturn ih => rwa [nesting_of_turn hturn]
  | inside _ hlevel hinside _ =>
    rw [nesting_of_inside? hinside]
    exact hlevel
  | included _ hlevel hincluded _ =>
    obtain ⟨_, text, _, _, _, rfl⟩ := included?_eq_some_iff.1 hincluded
    exact hlevel

end Places

/-! ## 4. Faults at places -/

section Faults

variable {file source : String} {terminator : Terminator}

theorem turnsLeft_fails (h : Fails (agendaTurn ctx (reader ctx) terminator []) s f)
    (before : Agenda) : Fails (turnsLeft ctx terminator before) s f := by
  rw [← fails_map_iff (g := behind before), ← agendaTurn_behind] at h
  obtain ⟨t, ht⟩ := h
  exact ⟨t, by rw [turnsLeft_eq, ht, afterTurn]⟩

theorem reader_fails (h : Fails (turnsLeft ctx terminator []) s f) :
    Fails (reader ctx terminator) s f := by
  rwa [reader_eq_turnsLeft]

/-- A statement fails when reading fails in its braces. -/
theorem inside?_fails {nested : Terminator → Read Agenda} (hinside : inside? ctx s = some u)
    (hlevel : s.nesting.depth < ctx.settings.maxDepth) (h : Fails (nested .brace) u f) :
    ∃ call c, head ctx.workspace s.cursor.pastBlanks = .ok (.call call) c ∧
      Fails (statement ctx nested call) ⟨c, s.nesting⟩ f := by
  obtain ⟨call, c, v, hhead, hopen, hagenda, rfl⟩ := inside?_eq_some_iff.1 hinside
  refine ⟨call, c, hhead, statement_fails hopen hagenda ?_⟩
  have hlevel : (Progress.mk v s.nesting).nesting.depth < ctx.settings.maxDepth := hlevel
  exact fails_after (enter_of_lt hlevel) h

theorem script_fails {call : Call} {c : Cursor}
    (hhead : head ctx.workspace (Cursor.start file source.toList).pastBlanks = .ok (.call call) c)
    (h : Fails (statement ctx (reader ctx) call) ⟨c, ⟨0, [file]⟩⟩ f) :
    Fails (script ctx file source) s f := by
  have hset : (set { cursor := .start file source.toList, nesting := ⟨0, [file]⟩ : Progress } :
      Read PUnit) s = .ok ⟨⟩ ⟨.start file source.toList, ⟨0, [file]⟩⟩ := rfl
  have hblanks : scan Scan.skipBlanks ⟨.start file source.toList, ⟨0, [file]⟩⟩
      = .ok ⟨⟩ ⟨(Cursor.start file source.toList).pastBlanks, ⟨0, [file]⟩⟩ :=
    scan_eq_ok_iff.2 ⟨_, Scan.skipBlanks_eq_ok_iff.2 rfl, rfl⟩
  have hhead : scan (head ctx.workspace) ⟨(Cursor.start file source.toList).pastBlanks, ⟨0, [file]⟩⟩
      = .ok (.call call) ⟨c, ⟨0, [file]⟩⟩ := scan_eq_ok_iff.2 ⟨c, hhead, rfl⟩
  refine fails_after hset ?_
  refine fails_after hblanks ?_
  refine fails_after hhead ?_
  exact h.bind

/-- A script is refused because of its statement. -/
theorem script_refused (hf : f.Refuses) (h : Fails (script ctx file source) s f) :
    ∃ call c, head ctx.workspace (Cursor.start file source.toList).pastBlanks = .ok (.call call) c ∧
      Fails (statement ctx (reader ctx) call) ⟨c, ⟨0, [file]⟩⟩ f := by
  have hset : (set { cursor := .start file source.toList, nesting := ⟨0, [file]⟩ : Progress } :
      Read PUnit) s = .ok ⟨⟩ ⟨.start file source.toList, ⟨0, [file]⟩⟩ := rfl
  obtain ⟨t, ht⟩ := h
  rw [script, bind_of_ok hset] at ht
  obtain ⟨_, b, hblanks, h⟩ := Fails.of_scan Scan.forward_skipBlanks.not_refuses hf ⟨t, ht⟩
  obtain rfl := Scan.skipBlanks_eq_ok_iff.1 hblanks
  obtain ⟨found, c, hhead, h⟩ := Fails.of_scan (forward_head _).not_refuses hf h
  cases found with
  | inclusion path here => exact absurd h (not_fails_wrongEntry hf rfl)
  | call call =>
    refine ⟨call, c, hhead, ?_⟩
    rcases h.of_bind with h | ⟨outermost, u, -, h⟩
    · exact h
    -- what is checked behind the statement is never refused
    dsimp only at h
    by_cases hname : (ctx.workspace.methods.get call.method).name ≠ ctx.settings.entry
    · rw [if_pos hname] at h
      rcases h.of_bind with h | ⟨_, _, hthrow, -⟩
      · exact absurd h (not_fails_wrongEntry hf rfl)
      · cases hthrow
    · rw [if_neg hname] at h
      obtain ⟨_, _, -, h⟩ := Fails.of_scan (forward_endOfScript _).not_refuses hf h
      cases outermost with
      | agenda _ _ => exact absurd h not_fails_pure
      | keywords _ _ => exact absurd h (not_fails_wrongEntry hf rfl)

theorem inside?_of_refused (hf : f.Refuses) (h : Fails (script ctx file source) s f) :
    ∃ u, inside? ctx ⟨.start file source.toList, ⟨0, [file]⟩⟩ = some u := by
  obtain ⟨call, c, hhead, hstatement⟩ := script_refused hf h
  obtain ⟨v, hopen, hagenda, -⟩ := statement_refused hf hstatement
  exact ⟨_, inside?_eq_some_iff.2 ⟨call, c, v, hhead, hopen, hagenda, rfl⟩⟩

/-- The turns from a place on fail together with the script. -/
theorem Visits.fails_of_turnsLeft (h : Visits ctx file source terminator s)
    (hturns : ∀ before, Fails (turnsLeft ctx terminator before) s f) :
    Fails (script ctx file source) {} f := by
  -- what is read at a place is read on the way from the place before it, so its fault is the fault
  -- there; only the outermost place has none before it
  induction h with
  | outermost hlevel hinside =>
    have hread := reader_fails (hturns [])
    obtain ⟨call, c, hhead, hstatement⟩ := inside?_fails hinside hlevel hread
    exact script_fails hhead hstatement
  | next _ hturn ih =>
    refine ih fun before => ?_
    obtain ⟨next, hturn'⟩ := agendaTurn_again hturn before
    obtain ⟨t, ht⟩ := hturns next
    exact ⟨t, by rw [turnsLeft_eq, hturn']; exact ht⟩
  | inside _ hlevel hinside ih =>
    have hread := reader_fails (hturns [])
    obtain ⟨call, c, hhead, hstatement⟩ := inside?_fails hinside hlevel hread
    exact ih (turnsLeft_fails (agendaTurn_fails_of_statement hhead hstatement))
  | @included _ s _ _ hlevel hincluded ih =>
    obtain ⟨path, text, hdirective, htext, hnew, rfl⟩ := included?_eq_some_iff.1 hincluded
    obtain ⟨c, hhead⟩ := directive?_eq_some_iff.1 hdirective
    have hread := reader_fails (hturns [])
    have hinclusion := @inclusion_fails ctx ⟨c, s.nesting⟩ f _ path s.cursor.pastBlanks.position _
      htext hnew hlevel hread
    exact ih (turnsLeft_fails (agendaTurn_fails_of_inclusion hhead hinclusion))

/-- A script is refused with the fault of any place that reading comes to. -/
theorem Visits.parse_eq (h : Visits ctx file source terminator s)
    (hturn : Fails (agendaTurn ctx (reader ctx) terminator []) s f) :
    parse ctx file source = .error f :=
  parse_eq_error_iff.2 (h.fails_of_turnsLeft (turnsLeft_fails hturn))

/-- A directive for a file that is open is refused as a cycle, at the directive. -/
theorem Visits.parse_of_cycle (h : Visits ctx file source terminator s) {path : String}
    {text : IncludedText} (hdirective : directive? ctx.workspace s = some path)
    (htext : ctx.texts path = .ok text) (hopen : text.name ∈ s.nesting.files) :
    parse ctx file source = .error ⟨.includeCycle text.name (s.nesting.files ++ [text.name]),
      s.cursor.pastBlanks.position⟩ := by
  obtain ⟨c, hhead⟩ := directive?_eq_some_iff.1 hdirective
  apply h.parse_eq
  exact agendaTurn_fails_of_inclusion hhead (inclusion_of_cycle htext hopen)

end Faults

end ControlScript.Reading
