import ControlScript.Proofs.Grammar.Extent

/-!
# Reading statements as the grammar says

Calls, bodies and agendas are read exactly as the grammar describes them.  What is said about an
agenda is said about every reader that could take its place on the level below, so the induction on
levels needs nothing but the step from one level to the next.
-/

namespace ControlScript.Reading

open Grammar

variable {ctx : Context} {s s' : Progress} {c c' : Cursor}

/-! ## 1. Steps of a reader -/

@[simp] theorem scan_eq_ok_iff {α : Type} {x : Scan α} {a : α} :
    scan x s = .ok a s' ↔ ∃ u, x s.cursor = .ok a u ∧ s' = { s with cursor := u } := by
  rw [scan]
  cases h : x.run s.cursor with
  | ok b u =>
    have h' : x s.cursor = .ok b u := h
    simp only [h', EStateM.Result.ok.injEq]
    exact ⟨fun ⟨hb, hs⟩ => ⟨u, ⟨hb, rfl⟩, hs.symm⟩, fun ⟨_, ⟨hb, hu⟩, hs⟩ => ⟨hb, hu ▸ hs.symm⟩⟩
  | error e u =>
    have h' : x s.cursor = .error e u := h
    simp [h']

theorem scan_bind_eq_ok_iff {α β : Type} {x : Scan α} {f : α → Read β} {b : β} :
    (scan x >>= f) s = .ok b s' ↔
      ∃ a u, x s.cursor = .ok a u ∧ f a { s with cursor := u } = .ok b s' := by
  simp only [bind_eq_ok_iff, scan_eq_ok_iff]
  constructor
  · rintro ⟨a, _, ⟨u, hx, rfl⟩, h⟩
    exact ⟨a, u, hx, h⟩
  · rintro ⟨a, u, hx, h⟩
    exact ⟨a, _, ⟨u, hx, rfl⟩, h⟩

theorem scan_bind {α β : Type} (x : Scan α) (f : α → Scan β) :
    scan (x >>= f) = scan x >>= fun a => scan (f a) := by
  funext s
  cases h : x s.cursor with
  | ok a u =>
    have hscan : scan x s = .ok a { s with cursor := u } := scan_eq_ok_iff.2 ⟨u, h, rfl⟩
    have hbind : (x >>= f).run s.cursor = (f a).run u := bind_of_ok h
    rw [bind_of_ok hscan, scan, scan, hbind]
  | error e u =>
    have hrun : x.run s.cursor = .error e u := h
    have hscan : scan x s = .error e { s with cursor := u } := by rw [scan, hrun]
    have hbind : (x >>= f).run s.cursor = .error e u := bind_of_error h
    rw [bind_of_error hscan, scan, hbind]

@[simp] theorem enter_eq_ok_iff {settings : Settings} {here : Position} {u : Unit} :
    enter settings here s = .ok u s' ↔ s.nesting.depth < settings.maxDepth ∧
      s' = { s with nesting.depth := s.nesting.depth + 1 } := by
  simp only [enter, bind_eq_ok_iff, get_eq_ok_iff, check_eq_ok_iff, modify_eq_ok_iff, and_assoc,
    exists_and_left, exists_eq_left, ge_iff_le, Nat.not_le]

@[simp] theorem leave_eq_ok_iff {u : Unit} :
    leave s = .ok u s' ↔ s' = { s with nesting.depth := s.nesting.depth - 1 } := by
  rw [leave, modify_eq_ok_iff]

@[simp] theorem openFile_eq_ok_iff {text : IncludedText} {u : Unit} :
    openFile text s = .ok u s' ↔ s' =
      { cursor := .start text.name text.text.toList
        nesting := { s.nesting with files := s.nesting.files ++ [text.name] } } := by
  rw [openFile, modify_eq_ok_iff]

@[simp] theorem closeFile_eq_ok_iff {outer : Cursor} {u : Unit} :
    closeFile outer s = .ok u s' ↔ s' =
      { cursor := outer
        nesting := { s.nesting with files := s.nesting.files.dropLast } } := by
  rw [closeFile, modify_eq_ok_iff]

/-! ## 2. Heads -/

section Heads

variable {w : Workspace}

theorem head_eq_ok_iff {found : Head} : head w c = .ok found c' ↔
    (∃ u path, Scan.requiredName .methodName c = .ok includeDirective u ∧
      Literal.string u.pastBlanks = .ok path c' ∧ found = .inclusion path c.position) ∨
    (∃ name u base b, name ≠ includeDirective ∧ Scan.requiredName .methodName c = .ok name u ∧
      w.methods.find? name = some base ∧ bindVariables w base u.pastBlanks = .ok b c' ∧
      found = .call ⟨b.method, c.position, b.outputs, b.inputs⟩) := by
  simp only [head, bind_eq_ok_iff, Scan.position_eq_ok_iff, and_assoc, exists_and_left,
    exists_eq_left]
  constructor
  · rintro ⟨name, u, hname, h⟩
    -- the name alone decides whether a directive is read
    by_cases hinclude : name = includeDirective
    · subst hinclude
      simp only [if_true, bind_eq_ok_iff, Scan.skipBlanks_eq_ok_iff, pure_eq_ok_iff, exists_eq_left,
        exists_const] at h
      obtain ⟨path, _, hpath, rfl, rfl⟩ := h
      exact .inl ⟨u, hname, path, hpath, rfl⟩
    · rw [if_neg hinclude] at h
      cases hfind : w.methods.find? name with
      | none => simp [hfind] at h
      | some base =>
        simp only [hfind, bind_eq_ok_iff, Scan.skipBlanks_eq_ok_iff, pure_eq_ok_iff, exists_eq_left,
          exists_const] at h
        obtain ⟨b, _, hbind, rfl, rfl⟩ := h
        exact .inr ⟨name, hinclude, u, hname, base, hfind, b, hbind, rfl⟩
  · rintro (⟨u, hname, path, hpath, rfl⟩ | ⟨name, hinclude, u, hname, base, hfind, b, hbind, rfl⟩)
    · refine ⟨_, u, hname, ?_⟩
      simp only [if_true, bind_eq_ok_iff, Scan.skipBlanks_eq_ok_iff, pure_eq_ok_iff, exists_eq_left,
        exists_const]
      exact ⟨path, c', hpath, rfl, rfl⟩
    · refine ⟨name, u, hname, ?_⟩
      rw [if_neg hinclude]
      simp only [hfind, bind_eq_ok_iff, Scan.skipBlanks_eq_ok_iff, pure_eq_ok_iff, exists_eq_left,
        exists_const]
      exact ⟨b, c', hbind, rfl, rfl⟩

/-- What a head stands for in the grammar, up to blanks behind it. -/
theorem position_of_head {call : Call} (h : head w c = .ok (.call call) c') :
    call.position = c.position := by
  rcases head_eq_ok_iff.1 h with ⟨_, _, _, _, heq⟩ | ⟨_, _, _, _, _, _, _, _, heq⟩
  · cases heq
  · rw [Head.call.inj heq]

theorem directiveText_of_ok {path : String} {here : Position}
    (h : head w c = .ok (.inclusion path here) c') :
    here = c.position ∧ ∃ rest, DirectiveText c.rest rest path ∧ c'.rest = dropFeeds rest := by
  rcases head_eq_ok_iff.1 h with ⟨u, found, hname, hpath, heq⟩ | ⟨_, _, _, _, _, _, _, _, heq⟩
  · obtain ⟨rfl, rfl⟩ := Head.inclusion.inj heq
    obtain ⟨t, hname, hu⟩ := (Scan.requiredName_reads .methodName).sound hname
    obtain ⟨rest, hpath, hrest⟩ := Scan.string_reads.sound hpath
    rw [Cursor.rest_pastBlanks_of hu] at hpath
    exact ⟨rfl, rest, .mk hname (blanks_trim t) hpath, hrest⟩
  · exact absurd heq (by simp)

theorem callText_of_ok (hr : w.methods.Sound) {call : Call} (h : head w c = .ok (.call call) c') :
    call.position = c.position ∧ ∃ base rest, CallText w base c.rest rest call.unplaced ∧
      trim c'.rest = trim rest := by
  rcases head_eq_ok_iff.1 h with
    ⟨_, _, _, _, heq⟩ | ⟨name, u, base, b, hinclude, hname, hfind, hbind, heq⟩
  · exact absurd heq (by simp)
  obtain rfl := Head.call.inj heq
  obtain ⟨t, hname, hu⟩ := (Scan.requiredName_reads .methodName).sound hname
  obtain ⟨ids, rest, hargs, hres, hb, hrest⟩ := bindVariables_sound hr hbind
  rw [Cursor.rest_pastBlanks_of hu] at hargs
  refine ⟨rfl, base, rest, ?_, hrest⟩
  rw [hb] at hres ⊢
  exact .mk hname hinclude hfind (blanks_trim t) hargs hres

theorem ok_of_directiveText {path : String} {rest : List Char}
    (h : DirectiveText c.rest rest path) :
    ∃ c', head w c = .ok (.inclusion path c.position) c' ∧ c'.rest = dropFeeds rest := by
  generalize htext : c.rest = text at h
  cases h with
  | @mk _ t₁ t₂ _ _ hname hblanks hpath =>
    obtain ⟨u, hread, hu⟩ := (Scan.requiredName_reads .methodName).complete (htext ▸ hname)
    have hstart : u.pastBlanks.rest = t₂ := by
      rw [Cursor.rest_pastBlanks_of hu, hblanks.trim_eq, stringText_solid hpath]
    obtain ⟨c', hstring, hrest⟩ := Scan.string_reads.complete (hstart ▸ hpath)
    exact ⟨c', head_eq_ok_iff.2 (.inl ⟨u, path, hread, hstring, rfl⟩), hrest⟩

theorem ok_of_callText (hr : w.methods.Sound) {base : MethodId} {call : Call} {rest : List Char}
    (h : CallText w base c.rest rest call) (hrest : (trim rest).head? ≠ some '(') :
    ∃ c', head w c = .ok (.call { call with position := c.position }) c' ∧
      trim c'.rest = trim rest := by
  generalize htext : c.rest = text at h
  cases h with
  | @mk _ t₁ t₂ _ name ids method hname hinclude hfind hblanks hargs hres =>
    obtain ⟨u, hread, hu⟩ := (Scan.requiredName_reads .methodName).complete (htext ▸ hname)
    have hstart : u.pastBlanks.rest = trim t₂ := by
      rw [Cursor.rest_pastBlanks_of hu, hblanks.trim_eq]
    obtain ⟨c', hbind, hc'⟩ := bindVariables_complete hr hargs hres hstart hrest
    exact ⟨c', head_eq_ok_iff.2 (.inr ⟨name, u, base, _, hinclude, hread, hfind, hbind, rfl⟩), hc'⟩

end Heads

/-! ## 3. Bodies -/

theorem openBrace_eq_ok_iff {m : Method} {braced : Bool} : openBrace m c = .ok braced c' ↔
    (braced = true ∧ c.pastBlanks.rest.head? = some '\x7b' ∧ c' = c.pastBlanks.advance) ∨
      (braced = false ∧ c.pastBlanks.rest.head? ≠ some '\x7b' ∧ m.allDefaulted = true ∧
        c' = c.pastBlanks) := by
  simp only [openBrace, bind_eq_ok_iff, Scan.skipBlanks_eq_ok_iff, Scan.peek_eq_ok_iff, and_assoc,
    exists_and_left, exists_eq_left, exists_const]
  by_cases hbrace : c.pastBlanks.rest.head? = some '\x7b'
  · simp only [hbrace, decide_true, Bool.true_or, if_true, bind_eq_ok_iff, Scan.expect_eq_ok_iff,
      pure_eq_ok_iff, true_and, ne_eq, not_true_eq_false, false_and, and_false, or_false,
      exists_const, exists_eq_left]
  · cases hdefaulted : m.allDefaulted with
    | true =>
      simp only [hbrace, decide_false, Bool.not_true, Bool.or_false, Bool.false_eq_true, if_false,
        pure_eq_ok_iff, false_and, and_false, false_or, ne_eq, not_false_eq_true, true_and]
    | false =>
      simp only [hbrace, decide_false, Bool.not_false, Bool.or_true, if_true, bind_eq_ok_iff,
        Scan.expect_eq_ok_iff, pure_eq_ok_iff, false_and, and_false, or_false, exists_const,
        Bool.false_eq_true, exists_false]

/-- A body begins behind its brace, and behind the line feeds that are taken with the brace. -/
theorem rest_behind_brace {t : List Char} (h : trim c.rest = '\x7b' :: t) :
    c.pastBlanks.advance.rest = dropFeeds t :=
  Cursor.rest_advance_of (c.rest_pastBlanks.trans h)

theorem openBrace_of_brace (m : Method) {t : List Char} (h : trim c.rest = '\x7b' :: t) :
    openBrace m c = .ok true c.pastBlanks.advance :=
  openBrace_eq_ok_iff.2 (.inl ⟨rfl, by rw [Cursor.rest_pastBlanks, h]; rfl, rfl⟩)

theorem brace_of_openBrace {m : Method} (h : openBrace m c = .ok true c') :
    ∃ t, trim c.rest = '\x7b' :: t ∧ c'.rest = dropFeeds t := by
  rcases openBrace_eq_ok_iff.1 h with ⟨-, hbrace, rfl⟩ | ⟨hfalse, -⟩
  · obtain ⟨t, ht⟩ := List.head?_eq_some_iff.1 hbrace
    rw [Cursor.rest_pastBlanks] at ht
    exact ⟨t, ht, rest_behind_brace ht⟩
  · cases hfalse

/-- Without a brace, the cursor stays in front of what follows. -/
theorem openBrace_of_bare {m : Method} (hbrace : (trim c.rest).head? ≠ some '\x7b')
    (hdefaulted : m.allDefaulted = true) : openBrace m c = .ok false c.pastBlanks :=
  openBrace_eq_ok_iff.2 (.inr ⟨rfl, by rwa [Cursor.rest_pastBlanks], hdefaulted, rfl⟩)

variable {nested : Terminator → Read Agenda} {call : Call} {found : Statement}

/-- A statement that is read, by the form of its body. -/
theorem statement_eq_ok_iff : statement ctx nested call s = .ok found s' ↔
    ∃ braced u, openBrace (ctx.workspace.methods.get call.method) s.cursor = .ok braced u ∧
      (((ctx.workspace.methods.get call.method).takesAgenda = true ∧ braced = true ∧
          s.nesting.depth < ctx.settings.maxDepth ∧ ∃ body t,
            nested .brace ⟨u, { s.nesting with depth := s.nesting.depth + 1 }⟩ = .ok body t ∧
            t.cursor.rest.head? = some '\x7d' ∧ found = .agenda call body ∧
            s' = ⟨t.cursor.advance, { t.nesting with depth := t.nesting.depth - 1 }⟩) ∨
        ((ctx.workspace.methods.get call.method).takesAgenda = true ∧ braced = false ∧
          found = .agenda call [] ∧ s' = { s with cursor := u }) ∨
        ((ctx.workspace.methods.get call.method).takesAgenda = false ∧ ∃ values v,
          bindKeywords (ctx.workspace.methods.get call.method) braced call.position u
            = .ok values v ∧ found = .keywords call values ∧
          (braced = true ∧ v.rest.head? = some '\x7d' ∧ s' = { s with cursor := v.advance } ∨
            braced = false ∧ s' = { s with cursor := v }))) := by
  rw [statement, scan_bind_eq_ok_iff]
  refine exists_congr fun braced => exists_congr fun u => and_congr_right fun _ => ?_
  -- the body depends on two things only: what the method takes, and whether a brace opened it
  cases hagenda : (ctx.workspace.methods.get call.method).takesAgenda with
  | true =>
    cases braced with
    | true =>
      simp only [if_true, bind_eq_ok_iff, enter_eq_ok_iff, leave_eq_ok_iff, pure_eq_ok_iff,
        scan_eq_ok_iff, Scan.expect_eq_ok_iff, and_assoc, exists_and_left, exists_eq_left,
        exists_const, true_and, Bool.true_eq_false, false_and, or_false]
    | false =>
      simp only [if_true, Bool.false_eq_true, if_false, bind_eq_ok_iff, pure_eq_ok_iff, and_assoc,
        exists_and_left, exists_eq_left, true_and, false_and, Bool.true_eq_false, or_false,
        false_or]
  | false =>
    cases braced with
    | true =>
      simp only [if_true, Bool.false_eq_true, if_false, bind_eq_ok_iff, pure_eq_ok_iff,
        scan_eq_ok_iff, Scan.expect_eq_ok_iff, true_and, false_and, Bool.true_eq_false, or_false,
        false_or]
      constructor
      · rintro ⟨values, _, ⟨v, hbind, rfl⟩, _, _, ⟨rfl, rfl⟩, _, _, ⟨_, ⟨hclose, rfl⟩, rfl⟩, rfl, rfl⟩
        exact ⟨values, v, hbind, rfl, hclose, rfl⟩
      · rintro ⟨values, v, hbind, rfl, hclose, rfl⟩
        exact ⟨values, _, ⟨v, hbind, rfl⟩, _, _, ⟨rfl, rfl⟩, ⟨⟩, _, ⟨_, ⟨hclose, rfl⟩, rfl⟩, rfl, rfl⟩
    | false =>
      simp only [Bool.false_eq_true, if_false, bind_eq_ok_iff, pure_eq_ok_iff, scan_eq_ok_iff,
        true_and, false_and, false_or]
      constructor
      · rintro ⟨values, _, ⟨v, hbind, rfl⟩, _, _, ⟨rfl, rfl⟩, rfl, rfl⟩
        exact ⟨values, v, hbind, rfl, rfl⟩
      · rintro ⟨values, v, hbind, rfl, rfl⟩
        exact ⟨values, _, ⟨v, hbind, rfl⟩, _, _, ⟨rfl, rfl⟩, rfl, rfl⟩

/-- A statement whose agenda has been opened is read one level deeper. -/
theorem agenda_of_statement (h : statement ctx nested call s = .ok found s')
    (hopen : openBrace (ctx.workspace.methods.get call.method) s.cursor = .ok true c)
    (hagenda : (ctx.workspace.methods.get call.method).takesAgenda = true) :
    s.nesting.depth < ctx.settings.maxDepth ∧ ∃ body t,
      nested .brace ⟨c, { s.nesting with depth := s.nesting.depth + 1 }⟩ = .ok body t ∧
      t.cursor.rest.head? = some '\x7d' ∧ found = .agenda call body ∧
      s' = ⟨t.cursor.advance, { t.nesting with depth := t.nesting.depth - 1 }⟩ := by
  obtain ⟨braced, u, hopen', hforms⟩ := statement_eq_ok_iff.1 h
  obtain ⟨rfl, rfl⟩ := EStateM.Result.ok.inj (hopen.symm.trans hopen')
  obtain ⟨-, -, hread⟩ := hforms.resolve_right (by simp [hagenda])
  exact hread

/-- Without an agenda, what is behind the brace, or behind the head, are keywords. -/
theorem keywords_of_statement (h : statement ctx nested call s = .ok found s') {braced : Bool}
    (hopen : openBrace (ctx.workspace.methods.get call.method) s.cursor = .ok braced c)
    (hagenda : (ctx.workspace.methods.get call.method).takesAgenda = false) :
    ∃ values v, bindKeywords (ctx.workspace.methods.get call.method) braced call.position c
        = .ok values v ∧ found = .keywords call values ∧
      (braced = true ∧ v.rest.head? = some '\x7d' ∧ s' = { s with cursor := v.advance } ∨
        braced = false ∧ s' = { s with cursor := v }) := by
  obtain ⟨braced', u, hopen', hforms⟩ := statement_eq_ok_iff.1 h
  obtain ⟨rfl, rfl⟩ := EStateM.Result.ok.inj (hopen.symm.trans hopen')
  rcases hforms with ⟨htakes, _⟩ | ⟨htakes, _⟩ | ⟨-, hread⟩
  · exact absurd htakes (by simp [hagenda])
  · exact absurd htakes (by simp [hagenda])
  · exact hread

/-- A statement has the call that was read in front of its body. -/
theorem call_of_statement (h : statement ctx nested call s = .ok found s') : found.call = call := by
  obtain ⟨_, _, _, ⟨_, _, _, _, _, _, _, rfl, _⟩ | ⟨_, _, rfl, _⟩ | ⟨_, _, _, _, rfl, _⟩⟩ :=
    statement_eq_ok_iff.1 h
  · rfl
  · rfl
  · rfl

/-! ## 4. Readers of the level below -/

/-- What the text behind an agenda looks like. -/
def Terminator.Ends : Terminator → List Char → Prop
  | .brace, text => text.head? = some '\x7d'
  | .endOfText, text => text = []

/-- A reader of agendas reads a kind of phrase, in given files, one level below the level `depth`;
    there are such phrases only if that level may be entered. -/
structure Nests (ctx : Context) (x : Terminator → Read Agenda) (p : List String → Phrase Agenda)
    (depth : Nat) : Prop where
  blanks : ∀ {files text t rest a}, Blanks text t → p files t rest a → p files text rest a
  bounded : ∀ files, Phrase.Bounded (p files)
  level : ∀ {files text rest a}, p files text rest a → depth < ctx.settings.maxDepth
  sound : ∀ {files terminator s a s'}, depth < ctx.settings.maxDepth →
    s.nesting = ⟨depth + 1, files⟩ → x terminator s = .ok a s' →
      p files s.cursor.rest s'.cursor.rest (Agenda.unplaced a) ∧
        terminator.Ends s'.cursor.rest ∧ s'.nesting = s.nesting
  complete : ∀ {files terminator s text last a}, s.nesting = ⟨depth + 1, files⟩ →
    trim s.cursor.rest = trim text → p files text last a → terminator.Ends last →
      ∃ found s', x terminator s = .ok found s' ∧ Agenda.unplaced found = a ∧
        s'.cursor.rest = last ∧ s'.nesting = s.nesting

section Levels

variable {p : List String → Phrase Agenda} {depth : Nat} {files : List String}

/-- The body of a statement is read as the grammar says, up to blanks behind it. -/
theorem bodyText_of_ok (hr : ctx.workspace.methods.Sound) (hnested : Nests ctx nested p depth)
    (hs : s.nesting = ⟨depth, files⟩) (h : statement ctx nested call s = .ok found s') :
    s'.nesting = s.nesting ∧ ∃ rest, BodyText (ctx.workspace.methods.get call.method) (p files)
      call.unplaced (trim s.cursor.rest) rest found.unplaced ∧
      trim s'.cursor.rest = trim rest := by
  obtain ⟨braced, u, hopen, h⟩ := statement_eq_ok_iff.1 h
  rw [openBrace_eq_ok_iff, Cursor.rest_pastBlanks] at hopen
  rcases hopen with ⟨rfl, hbrace, rfl⟩ | ⟨rfl, hbrace, hdefaulted, rfl⟩
  · -- the body begins behind the brace and the line feeds that are taken with it
    obtain ⟨t, ht⟩ := List.head?_eq_some_iff.1 hbrace
    have hu := rest_behind_brace ht
    rw [ht]
    rcases h with ⟨hagenda, -, hdepth, body, t', hbody, hclose, rfl, rfl⟩ | ⟨_, hfalse, _⟩ |
      ⟨hagenda, values, v, hbind, rfl, hend⟩
    · rw [hs] at hdepth hbody
      obtain ⟨htext, -, hnesting⟩ := hnested.sound hdepth rfl hbody
      obtain ⟨rest, hrest⟩ := List.head?_eq_some_iff.1 hclose
      rw [hu, hrest] at htext
      refine ⟨by rw [hnesting, hs]; rfl, rest, ?_, ?_⟩
      · exact .agenda hagenda (hnested.blanks (blanks_dropFeeds t) htext)
      · exact Cursor.trim_rest_advance hrest
    · exact absurd hfalse (by decide)
    · obtain ⟨hclose, rfl⟩ : v.rest.head? = some '\x7d' ∧ s' = { s with cursor := v.advance } := by
        simpa using hend
      obtain ⟨bound, rest, htext, hnodup, hcomplete, hrest⟩ :=
        bindKeywords_sound (hr.nodup_keywords _) hbind
      rw [hu] at htext
      refine ⟨rfl, rest, ?_, ?_⟩
      · exact .keywords hagenda (htext.blanks (blanks_dropFeeds t)) hnodup hcomplete
      · exact Cursor.trim_rest_advance hrest
  · rcases h with ⟨_, hfalse, _⟩ | ⟨hagenda, -, rfl, rfl⟩ | ⟨hagenda, values, v, hbind, rfl, hend⟩
    · exact absurd hfalse (by decide)
    · exact ⟨rfl, _, .bareAgenda hagenda hdefaulted hbrace, by rw [Cursor.rest_pastBlanks]⟩
    · obtain rfl : s' = { s with cursor := v } := by simpa using hend
      obtain ⟨hcomplete, rfl⟩ := (bindKeywords_unbraced_iff (hr.nodup_keywords _)).1 hbind
      exact ⟨rfl, _, .bareKeywords hagenda hdefaulted hbrace hcomplete,
        by rw [Cursor.rest_pastBlanks]⟩

theorem ok_of_bodyText (hr : ctx.workspace.methods.Sound) (hnested : Nests ctx nested p depth)
    (hs : s.nesting = ⟨depth, files⟩) {text rest : List Char} {call' : Call} {a : Statement}
    (hcall : call.unplaced = call')
    (h : BodyText (ctx.workspace.methods.get call.method) (p files) call' text rest a)
    (hc : trim s.cursor.rest = trim text) (hrest : NothingOpens rest) :
    ∃ found s', statement ctx nested call s = .ok found s' ∧ found.unplaced = a ∧
      trim s'.cursor.rest = trim rest ∧ s'.nesting = s.nesting := by
  have hkeywords := hr.nodup_keywords call.method
  cases h with
  | @bareKeywords _ values hagenda hdefaulted _ hcomplete =>
    have hbind : bindKeywords (ctx.workspace.methods.get call.method) false call.position
        s.cursor.pastBlanks = .ok values s.cursor.pastBlanks :=
      (bindKeywords_unbraced_iff hkeywords).2 ⟨hcomplete, rfl⟩
    refine ⟨_, _, statement_eq_ok_iff.2 ⟨false, _, openBrace_of_bare (hc ▸ hrest.2) hdefaulted,
      .inr (.inr ⟨hagenda, values, _, hbind, rfl, .inr ⟨rfl, rfl⟩⟩)⟩, ?_, ?_, rfl⟩
    · rw [Statement.unplaced, hcall]
    · rw [Cursor.rest_pastBlanks, hc, trim_trim]
  | bareAgenda hagenda hdefaulted _ =>
    refine ⟨_, _, statement_eq_ok_iff.2 ⟨false, _, openBrace_of_bare (hc ▸ hrest.2) hdefaulted,
      .inr (.inl ⟨hagenda, rfl, rfl, rfl⟩)⟩, ?_, ?_, rfl⟩
    · rw [Statement.unplaced, hcall]
      rfl
    · rw [Cursor.rest_pastBlanks, hc, trim_trim]
  | @keywords t _ bound values hagenda htext hnodup hcomplete =>
    rw [trim_solid (by decide) (by decide)] at hc
    have hopen := openBrace_of_brace (ctx.workspace.methods.get call.method) hc
    have hu := rest_behind_brace hc
    obtain ⟨v, hbind, hv⟩ : ∃ v, bindKeywords (ctx.workspace.methods.get call.method) true
        call.position s.cursor.pastBlanks.advance = .ok values v ∧ v.rest = '\x7d' :: rest :=
      bindKeywords_complete hkeywords htext hnodup hcomplete (by rw [hu, trim_dropFeeds])
    refine ⟨_, _, statement_eq_ok_iff.2 ⟨true, _, hopen, .inr (.inr ⟨hagenda, values, v, hbind, rfl,
      .inl ⟨rfl, by rw [hv]; rfl, rfl⟩⟩)⟩, ?_, ?_, rfl⟩
    · rw [Statement.unplaced, hcall]
    · exact Cursor.trim_rest_advance hv
  | @agenda t _ a hagenda hbody =>
    rw [trim_solid (by decide) (by decide)] at hc
    have hopen := openBrace_of_brace (ctx.workspace.methods.get call.method) hc
    have hu := rest_behind_brace hc
    have hdepth := hnested.level hbody
    obtain ⟨body, u, hread, rfl, hrest', hnesting⟩ : ∃ body u, nested .brace
        ⟨s.cursor.pastBlanks.advance, { s.nesting with depth := s.nesting.depth + 1 }⟩ = .ok body u ∧
        Agenda.unplaced body = a ∧ u.cursor.rest = '\x7d' :: rest ∧
        u.nesting = { s.nesting with depth := s.nesting.depth + 1 } :=
      hnested.complete (by rw [hs]) (by rw [hu, trim_dropFeeds]) hbody rfl
    refine ⟨_, _, statement_eq_ok_iff.2 ⟨true, _, hopen, .inl ⟨hagenda, rfl, by rwa [hs], body, u,
      hread, by rw [hrest']; rfl, rfl, rfl⟩⟩, ?_, ?_, ?_⟩
    · rw [Statement.unplaced, hcall]
    · exact Cursor.trim_rest_advance hrest'
    · rw [hnesting]
      rfl

/-! ## 5. Included texts -/

/-- The agendas that a path stands for, when agendas of one level below are `p` and some files are
    open. -/
def Included (ctx : Context) (p : List String → Phrase Agenda) (files : List String)
    (path : String) (found : Agenda) : Prop :=
  ∃ text, ctx.texts path = .ok text ∧ text.name ∉ files ∧
    p (files ++ [text.name]) text.text.toList [] found

theorem inclusion_eq_ok_iff {path : String} {here : Position} {found : Agenda} :
    inclusion ctx nested path here s = .ok found s' ↔ ∃ text t, ctx.texts path = .ok text ∧
      text.name ∉ s.nesting.files ∧ s.nesting.depth < ctx.settings.maxDepth ∧
      nested .endOfText ⟨.start text.name text.text.toList,
        ⟨s.nesting.depth + 1, s.nesting.files ++ [text.name]⟩⟩ = .ok found t ∧
      s' = ⟨s.cursor, ⟨t.nesting.depth - 1, t.nesting.files.dropLast⟩⟩ := by
  rw [inclusion]
  cases htexts : ctx.texts path with
  | error e => simp
  | ok text =>
    simp only [bind_eq_ok_iff, get_eq_ok_iff, check_eq_ok_iff, enter_eq_ok_iff, openFile_eq_ok_iff,
      closeFile_eq_ok_iff, leave_eq_ok_iff, pure_eq_ok_iff, and_assoc, exists_and_left,
      exists_eq_left, exists_const, Except.ok.injEq, exists_eq_left']
    constructor
    · rintro ⟨hnew, hdepth, _, t, hread, rfl, rfl⟩
      exact ⟨hnew, hdepth, t, hread, rfl⟩
    · rintro ⟨hnew, hdepth, t, hread, rfl⟩
      exact ⟨hnew, hdepth, found, t, hread, rfl, rfl⟩

theorem included_of_ok (hnested : Nests ctx nested p depth) (hs : s.nesting = ⟨depth, files⟩)
    {path : String} {here : Position} {found : Agenda}
    (h : inclusion ctx nested path here s = .ok found s') :
    Included ctx p files path (Agenda.unplaced found) ∧ s' = s := by
  obtain ⟨c, nesting⟩ := s
  obtain rfl : nesting = ⟨depth, files⟩ := hs
  obtain ⟨text, t, htexts, hnew, hdepth, hread, rfl⟩ := inclusion_eq_ok_iff.1 h
  obtain ⟨htext, hend, hnesting⟩ := hnested.sound hdepth rfl hread
  have hend : t.cursor.rest = [] := hend
  rw [hend, Cursor.rest_start] at htext
  refine ⟨⟨text, htexts, hnew, hnested.blanks (blanks_dropFeeds _) htext⟩, ?_⟩
  rw [hnesting, Nat.add_sub_cancel, List.dropLast_concat]

theorem ok_of_included (hnested : Nests ctx nested p depth) (hs : s.nesting = ⟨depth, files⟩)
    {path : String} (here : Position) {a : Agenda} (h : Included ctx p files path a) :
    ∃ found, inclusion ctx nested path here s = .ok found s ∧ Agenda.unplaced found = a := by
  obtain ⟨c, nesting⟩ := s
  obtain rfl : nesting = ⟨depth, files⟩ := hs
  obtain ⟨text, htexts, hnew, htext⟩ := h
  obtain ⟨found, t, hread, hfound, -, hnesting⟩ : ∃ found t, nested .endOfText
      ⟨.start text.name text.text.toList, ⟨depth + 1, files ++ [text.name]⟩⟩ = .ok found t ∧
      Agenda.unplaced found = a ∧ t.cursor.rest = [] ∧
      t.nesting = ⟨depth + 1, files ++ [text.name]⟩ :=
    hnested.complete rfl (by rw [Cursor.rest_start, trim_dropFeeds]) htext rfl
  refine ⟨found, inclusion_eq_ok_iff.2 ⟨text, t, htexts, hnew, hnested.level htext, hread, ?_⟩,
    hfound⟩
  rw [hnesting, Nat.add_sub_cancel, List.dropLast_concat]

/-! ## 6. Sequences of statements -/

theorem atTerminator_eq_ok_iff {terminator : Terminator} {ended : Bool} :
    atTerminator terminator c = .ok ended c' ↔ c' = c ∧
      (terminator = .brace → c.rest ≠ []) ∧ (ended = true ↔ terminator.Ends c.rest) := by
  cases terminator with
  | brace =>
    rw [atTerminator, bind_eq_ok_iff]
    simp only [Scan.current_eq_ok_iff, pure_eq_ok_iff, Terminator.Ends, true_implies]
    cases hrest : c.rest with
    | nil => simp
    | cons ch t =>
      simp only [List.head?_cons, Option.some.injEq, ne_eq, reduceCtorEq, not_false_eq_true,
        true_and]
      constructor
      · rintro ⟨_, _, ⟨rfl, rfl⟩, rfl, rfl⟩
        exact ⟨rfl, decide_eq_true_iff⟩
      · rintro ⟨rfl, hended⟩
        exact ⟨ch, c', ⟨rfl, rfl⟩, Bool.eq_iff_iff.2 (hended.trans decide_eq_true_iff.symm), rfl⟩
  | endOfText =>
    simp only [atTerminator, bind_eq_ok_iff, get_eq_ok_iff, pure_eq_ok_iff, and_assoc,
      exists_and_left, exists_eq_left, Cursor.atEnd, Terminator.Ends, reduceCtorEq, false_implies,
      true_and]
    rw [and_comm, Bool.eq_iff_iff, List.isEmpty_iff]

/-- The text behind an agenda begins neither with blanks nor with something that opens. -/
theorem Terminator.Ends.solid {terminator : Terminator} {last : List Char}
    (h : terminator.Ends last) : trim last = last ∧ NothingOpens last := by
  cases terminator with
  | brace =>
    obtain ⟨t, rfl⟩ := List.head?_eq_some_iff.1 (show last.head? = some '\x7d' from h)
    rw [NothingOpens, trim_solid (by decide) (by decide)]
    simp
  | endOfText =>
    obtain rfl : last = [] := h
    simp [NothingOpens]

theorem not_ends_of_name {terminator : Terminator} {ch : Char} {t : List Char}
    (h : Scan.isNameChar ch = true) : ¬ terminator.Ends (ch :: t) := by
  cases terminator with
  | brace =>
    intro hend
    obtain rfl : ch = '\x7d' := Option.some.inj hend
    exact absurd h (by decide)
  | endOfText => exact List.cons_ne_nil ch t

/-- What a turn finds behind blanks: a head, unless the agenda ends there. -/
def nextHead? (w : Workspace) (terminator : Terminator) : Scan (Option Head) := do
  Scan.skipBlanks
  if ← atTerminator terminator then
    return none
  return some (← head w)

/-- What a turn reads behind a head. -/
def behindHead (ctx : Context) (nested : Terminator → Read Agenda) (before : Agenda) :
    Head → Read (Turn Agenda Agenda)
  | .inclusion path here => do
    let included ← inclusion ctx nested path here
    return .again (included.reverse ++ before)
  | .call call => do
    let next ← statement ctx nested call
    return .again (next :: before)

/-- Only what is read behind a head depends on the reader of the level below. -/
theorem agendaTurn_eq (terminator : Terminator) (before : Agenda) :
    agendaTurn ctx nested terminator before = (do
      match ← scan (nextHead? ctx.workspace terminator) with
      | none => return .done before.reverse
      | some found => behindHead ctx nested before found) := by
  rw [agendaTurn, nextHead?, scan_bind, bind_assoc]
  refine bind_congr fun _ => ?_
  rw [scan_bind, bind_assoc]
  refine bind_congr fun ended => ?_
  cases ended with
  | true => rfl
  | false =>
    rw [if_neg Bool.false_ne_true, if_neg Bool.false_ne_true, scan_bind, bind_assoc]
    refine bind_congr fun found => ?_
    cases found <;> rfl

theorem nextHead?_eq_ok_iff {w : Workspace} {terminator : Terminator} {found : Option Head} :
    nextHead? w terminator c = .ok found c' ↔
      (terminator.Ends c.pastBlanks.rest ∧ found = none ∧ c' = c.pastBlanks) ∨
      (¬ terminator.Ends c.pastBlanks.rest ∧ (terminator = .brace → c.pastBlanks.rest ≠ []) ∧
        ∃ first, head w c.pastBlanks = .ok first c' ∧ found = some first) := by
  simp only [nextHead?, bind_eq_ok_iff, Scan.skipBlanks_eq_ok_iff, atTerminator_eq_ok_iff,
    and_assoc, exists_and_left, exists_eq_left, exists_const]
  constructor
  · rintro ⟨hrest, ended, hends, h⟩
    cases ended with
    | true =>
      rw [if_pos rfl, pure_eq_ok_iff] at h
      exact .inl ⟨hends.1 rfl, h⟩
    | false =>
      -- the end has been looked for first, so a head is read only where it is not
      have hnot : ¬ terminator.Ends c.pastBlanks.rest := fun hend => by simpa using hends.2 hend
      rw [if_neg Bool.false_ne_true, bind_eq_ok_iff] at h
      obtain ⟨first, u, hhead, h⟩ := h
      obtain ⟨rfl, rfl⟩ := pure_eq_ok_iff.1 h
      exact .inr ⟨hnot, hrest, first, hhead, rfl⟩
  · rintro (⟨hend, rfl, rfl⟩ | ⟨hnot, hrest, first, hhead, rfl⟩)
    · refine ⟨?_, true, by simpa using hend, ?_⟩
      · rintro rfl hnil
        rw [Terminator.Ends, hnil] at hend
        exact absurd hend (by simp)
      · rw [if_pos rfl, pure_eq_ok_iff]
        exact ⟨rfl, rfl⟩
    · refine ⟨hrest, false, by simpa using hnot, ?_⟩
      rw [if_neg Bool.false_ne_true, bind_eq_ok_iff]
      exact ⟨first, c', hhead, pure_eq_ok_iff.2 ⟨rfl, rfl⟩⟩

/-- One turn of reading an agenda: the end, an included text or a statement. -/
theorem agendaTurn_eq_ok_iff {terminator : Terminator} {before : Agenda}
    {turn : Turn Agenda Agenda} :
    agendaTurn ctx nested terminator before s = .ok turn s' ↔
      (terminator.Ends s.cursor.pastBlanks.rest ∧ turn = .done before.reverse ∧
        s' = { s with cursor := s.cursor.pastBlanks }) ∨
      (¬ terminator.Ends s.cursor.pastBlanks.rest ∧
        (terminator = .brace → s.cursor.pastBlanks.rest ≠ []) ∧
        ((∃ path here u found,
            head ctx.workspace s.cursor.pastBlanks = .ok (.inclusion path here) u ∧
            inclusion ctx nested path here { s with cursor := u } = .ok found s' ∧
            turn = .again (found.reverse ++ before)) ∨
          (∃ call u found, head ctx.workspace s.cursor.pastBlanks = .ok (.call call) u ∧
            statement ctx nested call { s with cursor := u } = .ok found s' ∧
            turn = .again (found :: before)))) := by
  rw [agendaTurn_eq, scan_bind_eq_ok_iff]
  constructor
  · rintro ⟨found, u, hnext, h⟩
    rcases nextHead?_eq_ok_iff.1 hnext with ⟨hend, rfl, rfl⟩ | ⟨hnot, hrest, first, hhead, rfl⟩
    · exact .inl ⟨hend, pure_eq_ok_iff.1 h⟩
    refine .inr ⟨hnot, hrest, ?_⟩
    cases first with
    | inclusion path here =>
      obtain ⟨found, _, hread, h⟩ := bind_eq_ok_iff.1 h
      obtain ⟨rfl, rfl⟩ := pure_eq_ok_iff.1 h
      exact .inl ⟨path, here, u, found, hhead, hread, rfl⟩
    | call call =>
      obtain ⟨found, _, hread, h⟩ := bind_eq_ok_iff.1 h
      obtain ⟨rfl, rfl⟩ := pure_eq_ok_iff.1 h
      exact .inr ⟨call, u, found, hhead, hread, rfl⟩
  · rintro (⟨hend, rfl, rfl⟩ | ⟨hnot, hrest, h⟩)
    · exact ⟨none, _, nextHead?_eq_ok_iff.2 (.inl ⟨hend, rfl, rfl⟩), rfl⟩
    · rcases h with ⟨path, here, u, found, hhead, hread, rfl⟩ | ⟨call, u, found, hhead, hread, rfl⟩
      · refine ⟨_, u, nextHead?_eq_ok_iff.2 (.inr ⟨hnot, hrest, _, hhead, rfl⟩), ?_⟩
        exact bind_eq_ok_iff.2 ⟨found, s', hread, rfl⟩
      · refine ⟨_, u, nextHead?_eq_ok_iff.2 (.inr ⟨hnot, hrest, _, hhead, rfl⟩), ?_⟩
        exact bind_eq_ok_iff.2 ⟨found, s', hread, rfl⟩

/-- In front of a directive or a call, a turn does not end the agenda. -/
theorem nextHead?_of_head {w : Workspace} (terminator : Terminator) {first : Head}
    (h : head w c.pastBlanks = .ok first c') : nextHead? w terminator c = .ok (some first) c' := by
  -- a head begins with a name, so the text neither ends here nor closes a brace
  obtain ⟨ch, t, ht, hch⟩ : ∃ ch t, c.pastBlanks.rest = ch :: t ∧ Scan.isNameChar ch = true := by
    rcases head_eq_ok_iff.1 h with ⟨u, _, hname, _, _⟩ | ⟨name, u, _, _, _, hname, _, _, _⟩
    · obtain ⟨t, hname, -⟩ := (Scan.requiredName_reads .methodName).sound hname
      exact NameText.head hname
    · obtain ⟨t, hname, -⟩ := (Scan.requiredName_reads .methodName).sound hname
      exact NameText.head hname
  refine nextHead?_eq_ok_iff.2 (.inr ⟨?_, fun _ => ?_, first, h, rfl⟩)
  · rw [ht]
    exact not_ends_of_name hch
  · rw [ht]
    exact List.cons_ne_nil ch t

theorem agendaTurn_of_head {terminator : Terminator} {before : Agenda} {first : Head}
    (h : head ctx.workspace s.cursor.pastBlanks = .ok first c) :
    agendaTurn ctx nested terminator before s
      = behindHead ctx nested before first ⟨c, s.nesting⟩ := by
  have hnext : scan (nextHead? ctx.workspace terminator) s = .ok (some first) ⟨c, s.nesting⟩ :=
    scan_eq_ok_iff.2 ⟨c, nextHead?_of_head terminator h, rfl⟩
  rw [agendaTurn_eq, bind_of_ok hnext]

/-- The statements of an agenda, when agendas of one level below are `p`. -/
abbrev Statements (ctx : Context) (p : List String → Phrase Agenda) (files : List String) :
    Phrase Agenda :=
  SequenceText (StatementText ctx.workspace (p files)) (Included ctx p files)

/-- A turn that does not end the agenda reads a part of it. -/
theorem part_of_turn (hr : ctx.workspace.methods.Sound) (hnested : Nests ctx nested p depth)
    (hs : s.nesting = ⟨depth, files⟩) {terminator : Terminator} {before next : Agenda}
    (h : agendaTurn ctx nested terminator before s = .ok (.again next) s') :
    s'.nesting = s.nesting ∧ ∃ (found : Agenda) (rest : List Char), next = found.reverse ++ before ∧
      PartText (StatementText ctx.workspace (p files)) (Included ctx p files) (trim s.cursor.rest)
        rest (Agenda.unplaced found) ∧
      trim s'.cursor.rest = trim rest := by
  rcases agendaTurn_eq_ok_iff.1 h with ⟨_, hdone, _⟩ |
    ⟨_, _, ⟨path, here, u, included, hhead, hread, hagain⟩ | ⟨call, u, first, hhead, hread, hagain⟩⟩
  · exact absurd hdone (by simp)
  · obtain rfl := Turn.again.inj hagain
    obtain ⟨-, rest, hdirective, hu⟩ := directiveText_of_ok hhead
    have hs' : (Progress.mk u s.nesting).nesting = ⟨depth, files⟩ := hs
    obtain ⟨hincluded, rfl⟩ := included_of_ok hnested hs' hread
    rw [Cursor.rest_pastBlanks] at hdirective
    exact ⟨rfl, included, rest, rfl, .directive hdirective hincluded, by rw [hu, trim_dropFeeds]⟩
  · obtain rfl := Turn.again.inj hagain
    obtain ⟨-, base, rest, hcall, hu⟩ := callText_of_ok hr hhead
    have hs' : (Progress.mk u s.nesting).nesting = ⟨depth, files⟩ := hs
    obtain ⟨hnesting, rest', hbody, hs''⟩ := bodyText_of_ok hr hnested hs' hread
    rw [Cursor.rest_pastBlanks] at hcall
    exact ⟨hnesting, [first], rest', rfl, .statement (.mk hcall (blanks_trim rest) (hu ▸ hbody)),
      hs''⟩

/-- The turns of reading an agenda read statements behind those that were found before. -/
theorem statements_of_turns (hr : ctx.workspace.methods.Sound) (hnested : Nests ctx nested p depth)
    (hs : s.nesting = ⟨depth, files⟩) {terminator : Terminator} {fuel : List Char}
    {before found : Agenda}
    (h : takeTurns (agendaTurn ctx nested terminator) (scan (Scan.fail .endOfText)) fuel before s
      = .ok found s') :
    ∃ others, found = before.reverse ++ others ∧
      Statements ctx p files s.cursor.rest s'.cursor.rest (Agenda.unplaced others) ∧
      terminator.Ends s'.cursor.rest ∧ s'.nesting = s.nesting := by
  -- from turn to turn the nesting is the same
  refine takeTurns_induction (motive := fun before s found s' =>
    s.nesting = ⟨depth, files⟩ → ∃ others, found = before.reverse ++ others ∧
      Statements ctx p files s.cursor.rest s'.cursor.rest (Agenda.unplaced others) ∧
      terminator.Ends s'.cursor.rest ∧ s'.nesting = s.nesting)
    (fun h => by simp at h) ?done ?again h hs
  case done =>
    intro before s found s' hturn hs
    rcases agendaTurn_eq_ok_iff.1 hturn with ⟨hend, hdone, rfl⟩ |
      ⟨_, _, ⟨_, _, _, _, _, _, hagain⟩ | ⟨_, _, _, _, _, hagain⟩⟩
    · obtain rfl := Turn.done.inj hdone
      refine ⟨[], (List.append_nil _).symm, .nil ?_, hend, rfl⟩
      rw [Cursor.rest_pastBlanks]
      exact blanks_trim _
    · exact absurd hagain (by simp)
    · exact absurd hagain (by simp)
  case again =>
    intro before s next v found s' hturn ih hs
    have hsolid : Phrase.Solid (StatementText ctx.workspace (p files)) := statementText_solid
    obtain ⟨hnesting, part, rest, rfl, hpart, hv⟩ := part_of_turn hr hnested hs hturn
    obtain ⟨others, rfl, hothers, hend, hnesting'⟩ := ih (hnesting.trans hs)
    refine ⟨part ++ others, by simp, ?_, hend, hnesting'.trans hnesting⟩
    rw [Agenda.unplaced_append]
    exact .part (blanks_trim _) hpart (hothers.of_trim hsolid hend.solid.1 hv.symm)

theorem statements_of_ok (hr : ctx.workspace.methods.Sound) (hnested : Nests ctx nested p depth)
    (hs : s.nesting = ⟨depth, files⟩) {terminator : Terminator} {found : Agenda}
    (h : agendaBy ctx nested terminator s = .ok found s') :
    Statements ctx p files s.cursor.rest s'.cursor.rest (Agenda.unplaced found) ∧
      terminator.Ends s'.cursor.rest ∧ s'.nesting = s.nesting := by
  simp only [agendaBy, bind_eq_ok_iff, get_eq_ok_iff, and_assoc, exists_and_left,
    exists_eq_left] at h
  obtain ⟨others, rfl, hothers⟩ := statements_of_turns hr hnested hs h
  exact hothers

/-- A part of an agenda is read in one turn. -/
theorem turn_of_part (hr : ctx.workspace.methods.Sound) (hnested : Nests ctx nested p depth)
    (hs : s.nesting = ⟨depth, files⟩) {terminator : Terminator} {text rest : List Char} {a : Agenda}
    (h : PartText (StatementText ctx.workspace (p files)) (Included ctx p files) text rest a)
    (hc : trim s.cursor.rest = text) (hrest : NothingOpens rest) (before : Agenda) :
    ∃ found s', agendaTurn ctx nested terminator before s = .ok (.again (found.reverse ++ before)) s' ∧
      Agenda.unplaced found = a ∧ trim s'.cursor.rest = trim rest ∧ s'.nesting = s.nesting := by
  have hstart : s.cursor.pastBlanks.rest = text := by rw [Cursor.rest_pastBlanks, hc]
  cases h with
  | @statement _ _ first hfirst =>
    obtain ⟨ch, t, ht, hch⟩ := hfirst.head
    cases hfirst with
    | @mk _ t₁ t₂ _ base call _ hcall hblanks hbody =>
      -- the call must end before anything that could be its parentheses
      have hparen : (trim t₁).head? ≠ some '(' := by
        rw [hblanks.trim_eq]
        exact hbody.head_ne hrest
      obtain ⟨u, hhead, hu⟩ := ok_of_callText hr (hstart ▸ hcall) hparen
      have hs' : (Progress.mk u s.nesting).nesting = ⟨depth, files⟩ := hs
      obtain ⟨found, v, hread, hfound, hv, hnesting⟩ := ok_of_bodyText hr hnested hs'
        (show Call.unplaced { call with position := s.cursor.pastBlanks.position } = call from
          hcall.unplaced_eq) hbody (by rw [hu, hblanks.trim_eq]) hrest
      have hgoes : ¬ terminator.Ends s.cursor.pastBlanks.rest := by
        rw [hstart, ht]
        exact not_ends_of_name hch
      refine ⟨[found], v, agendaTurn_eq_ok_iff.2 (.inr ⟨hgoes, fun _ => ?_, .inr ?_⟩), ?_, hv,
        hnesting⟩
      · rw [hstart, ht]
        exact List.cons_ne_nil _ _
      · exact ⟨_, u, found, hhead, hread, rfl⟩
      · rw [Agenda.unplaced, hfound]
        rfl
  | @directive _ _ path included hfirst hincluded =>
    obtain ⟨ch, t, ht, hch⟩ := hfirst.head
    obtain ⟨u, hhead, hu⟩ := ok_of_directiveText (w := ctx.workspace) (hstart ▸ hfirst)
    have hs' : (Progress.mk u s.nesting).nesting = ⟨depth, files⟩ := hs
    obtain ⟨found, hread, hfound⟩ := ok_of_included hnested hs' s.cursor.pastBlanks.position hincluded
    have hgoes : ¬ terminator.Ends s.cursor.pastBlanks.rest := by
      rw [hstart, ht]
      exact not_ends_of_name hch
    refine ⟨found, ⟨u, s.nesting⟩, agendaTurn_eq_ok_iff.2 (.inr ⟨hgoes, fun _ => ?_, .inl ?_⟩), hfound,
      ?_, rfl⟩
    · rw [hstart, ht]
      exact List.cons_ne_nil _ _
    · exact ⟨path, _, u, found, hhead, hread, rfl⟩
    · rw [hu, trim_dropFeeds]

/-- What the turns of reading an agenda still have to read is read. -/
theorem turns_of_statements (hr : ctx.workspace.methods.Sound) (hnested : Nests ctx nested p depth)
    {terminator : Terminator} {text last : List Char} {a : Agenda}
    (h : Statements ctx p files text last a) (hend : terminator.Ends last) {fuel : List Char}
    {before : Agenda} (hs : s.nesting = ⟨depth, files⟩) (hc : trim s.cursor.rest = trim text)
    (hfuel : (trim text).length ≤ fuel.length) :
    ∃ found s', takeTurns (agendaTurn ctx nested terminator) (scan (Scan.fail .endOfText)) fuel
        before s = .ok (before.reverse ++ found) s' ∧ Agenda.unplaced found = a ∧
      s'.cursor.rest = last ∧ s'.nesting = s.nesting := by
  have hstatement := statementText_proper (w := ctx.workspace) (hnested.bounded files)
  obtain ⟨hlast, hopens⟩ := hend.solid
  -- one turn for each part; a part takes text, so there is fuel for the others
  refine SequenceText.part_induction (motive := fun text a => ∀ {s : Progress} {fuel : List Char}
    {before : Agenda}, s.nesting = ⟨depth, files⟩ → trim s.cursor.rest = trim text →
      (trim text).length ≤ fuel.length → ∃ found s', takeTurns (agendaTurn ctx nested terminator)
        (scan (Scan.fail .endOfText)) fuel before s = .ok (before.reverse ++ found) s' ∧
          Agenda.unplaced found = a ∧ s'.cursor.rest = last ∧ s'.nesting = s.nesting)
    ?nil ?part h hs hc hfuel
  case nil =>
    intro text hblanks s fuel before hs hc hfuel
    rw [hblanks.trim_eq, hlast] at hc
    have hturn : agendaTurn ctx nested terminator before s = .ok (.done before.reverse)
        { s with cursor := s.cursor.pastBlanks } :=
      agendaTurn_eq_ok_iff.2 (.inl ⟨by rwa [Cursor.rest_pastBlanks, hc], rfl, rfl⟩)
    refine ⟨[], { s with cursor := s.cursor.pastBlanks }, ?_, rfl, ?_, rfl⟩
    · rw [List.append_nil]
      exact takeTurns_of_done hturn
    · rw [Cursor.rest_pastBlanks, hc]
  case part =>
    intro text t₁ t₂ part others hnext hpart hothers ih s fuel before hs hc hfuel
    have hless : t₂.length < t₁.length := (partText_proper hstatement).length_lt hpart
    have hlength := length_trim_le t₂
    rw [hnext.trim_eq, partText_solid statementText_solid hpart] at hc hfuel
    obtain ⟨found, u, hturn, hfound, hu, hnesting⟩ := turn_of_part hr hnested hs hpart hc
      (hothers.nothingOpens StatementText.head hopens) before
    have hfuel' : (trim t₂).length ≤ fuel.tail.length := by
      rw [List.length_tail]
      omega
    obtain ⟨rest, s', hturns, hrest, hs', hnesting'⟩ := ih (hnesting.trans hs) hu hfuel'
    refine ⟨found ++ rest, s', takeTurns_of_again hturn (by omega) ?_, ?_, hs',
      hnesting'.trans hnesting⟩
    · rw [hturns, List.reverse_append, List.reverse_reverse, List.append_assoc]
    · rw [Agenda.unplaced_append, hfound, hrest]

theorem ok_of_statements (hr : ctx.workspace.methods.Sound) (hnested : Nests ctx nested p depth)
    (hs : s.nesting = ⟨depth, files⟩) {terminator : Terminator} {text last : List Char} {a : Agenda}
    (hc : trim s.cursor.rest = trim text) (h : Statements ctx p files text last a)
    (hend : terminator.Ends last) :
    ∃ found s', agendaBy ctx nested terminator s = .ok found s' ∧ Agenda.unplaced found = a ∧
      s'.cursor.rest = last ∧ s'.nesting = s.nesting := by
  obtain ⟨found, s', hturns, hfound⟩ := turns_of_statements hr hnested h hend hs hc
    (hc ▸ length_trim_le s.cursor.rest)
  refine ⟨found, s', ?_, hfound⟩
  simp only [agendaBy, bind_eq_ok_iff, get_eq_ok_iff, and_assoc, exists_and_left, exists_eq_left]
  exact hturns

/-! ## 7. Levels -/

/-- A reader of agendas that nests on one level gives one that nests on the level above. -/
theorem Nests.agendaBy (hr : ctx.workspace.methods.Sound) (hnested : Nests ctx nested p (depth + 1))
    (hdepth : depth < ctx.settings.maxDepth) :
    Nests ctx (Reading.agendaBy ctx nested) (Statements ctx p) depth where
  blanks := fun hblanks h => SequenceText.blanks hblanks h
  bounded := fun files => sequenceText_bounded (statementText_proper (hnested.bounded files))
  level := fun _ => hdepth
  sound := fun _ hs h => statements_of_ok hr hnested hs h
  complete := fun hs hc h hend => ok_of_statements hr hnested hs hc h hend

/-- Where no level is left, there are no agendas, and none are read. -/
theorem nests_nothing (x : Terminator → Read Agenda) :
    Nests ctx x (AgendaText ctx.workspace ctx.texts 0) ctx.settings.maxDepth where
  blanks := fun _ h => h.elim
  bounded := fun _ _ _ _ h => h.elim
  level := fun h => h.elim
  sound := fun hdepth => absurd hdepth (Nat.lt_irrefl _)
  complete := fun _ _ h => h.elim

/-- With `levels` levels left, agendas are read as the grammar says. -/
theorem agenda_nests (hr : ctx.workspace.methods.Sound) {levels : Nat}
    (hlevels : depth + levels = ctx.settings.maxDepth) :
    Nests ctx (agenda ctx levels) (AgendaText ctx.workspace ctx.texts levels) depth := by
  induction levels generalizing depth with
  | zero =>
    obtain rfl : depth = ctx.settings.maxDepth := hlevels
    exact nests_nothing _
  | succ levels ih => exact (ih (by omega)).agendaBy hr (by omega)

end Levels

end ControlScript.Reading
