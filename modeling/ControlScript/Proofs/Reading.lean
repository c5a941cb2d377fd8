import ControlScript.Proofs.Reading.Statement
import ControlScript.Reading

/-!
# Reading control scripts as the grammar says

A control script is accepted exactly when the grammar derives it, and its agenda is the derived one.
-/

namespace ControlScript.Reading

open Grammar

variable {ctx : Context} {file source : String} {s s' : Progress}

/-! ## 1. Runs of the reader -/

theorem parse_eq_ok_iff {found : Agenda} :
    parse ctx file source = .ok found ↔ ∃ s', script ctx file source {} = .ok found s' := by
  unfold parse
  cases h : (script ctx file source).run {} with
  | ok a s' =>
    have h' : script ctx file source {} = .ok a s' := h
    simp [h']
  | error f s' =>
    have h' : script ctx file source {} = .error f s' := h
    simp [h']

theorem endOfScript_eq_ok_iff {entry : String} {c c' : Cursor} {u : Unit} :
    endOfScript entry c = .ok u c' ↔ c' = c.pastBlanks ∧ c.pastBlanks.rest = [] := by
  simp only [endOfScript, bind_eq_ok_iff, Scan.skipBlanks_eq_ok_iff, Scan.peek_eq_ok_iff, and_assoc,
    exists_and_left, exists_eq_left, exists_const]
  cases hrest : c.pastBlanks.rest with
  | nil =>
    rw [List.head?_nil, pure_eq_ok_iff]
    simp
  | cons ch t =>
    rw [List.head?_cons]
    simp

/-- A script that is read is a statement of the entry method with an agenda; what was read before
    does not matter. -/
theorem script_eq_ok_iff {found : Agenda} : script ctx file source s = .ok found s' ↔
    ∃ call u t, head ctx.workspace (Cursor.start file source.toList).pastBlanks
        = .ok (.call call) u ∧
      statement ctx (agenda ctx ctx.settings.maxDepth) call ⟨u, ⟨0, [file]⟩⟩
        = .ok (.agenda call found) t ∧
      (ctx.workspace.methods.get call.method).name = ctx.settings.entry ∧
      t.cursor.pastBlanks.rest = [] ∧ s' = { t with cursor := t.cursor.pastBlanks } := by
  rw [script, bind_eq_ok_iff]
  simp only [set_eq_ok_iff, exists_eq_left, exists_const, scan_bind_eq_ok_iff,
    Scan.skipBlanks_eq_ok_iff]
  constructor
  · rintro ⟨found, u, hhead, h⟩
    cases found with
    | inclusion path here => simp at h
    | call call =>
      simp only [bind_eq_ok_iff, check_eq_ok_iff, scan_eq_ok_iff, endOfScript_eq_ok_iff, ne_eq,
        Decidable.not_not] at h
      obtain ⟨outermost, t, hread, hname, _, _, ⟨_, ⟨rfl, hend⟩, rfl⟩, h⟩ := h
      -- the entry method takes an agenda, so the other kind of statement is refused
      have hcall := call_of_statement hread
      cases outermost with
      | keywords call' values => simp at h
      | agenda call' body =>
        obtain rfl : call' = call := hcall
        obtain ⟨rfl, rfl⟩ := pure_eq_ok_iff.1 h
        exact ⟨call', u, t, hhead, hread, hname, hend, rfl⟩
  · rintro ⟨call, u, t, hhead, hread, hname, hend, rfl⟩
    refine ⟨_, u, hhead, ?_⟩
    rw [bind_eq_ok_iff]
    refine ⟨_, t, hread, ?_⟩
    rw [check_eq_ok_iff, scan_bind_eq_ok_iff]
    exact ⟨by simpa using hname, ⟨⟩, _, endOfScript_eq_ok_iff.2 ⟨rfl, hend⟩,
      pure_eq_ok_iff.2 ⟨rfl, rfl⟩⟩

/-! ## 2. Scripts -/

/-- The agendas of a script. -/
abbrev Body (ctx : Context) (file : String) : Phrase Agenda :=
  AgendaText ctx.workspace ctx.texts ctx.settings.maxDepth [file]

theorem scriptText_of_ok (hr : ctx.workspace.methods.Sound) {found : Agenda}
    (h : parse ctx file source = .ok found) :
    ScriptText ctx.workspace (Body ctx file) ctx.settings.entry source.toList
      (Agenda.unplaced found) := by
  obtain ⟨s', h⟩ := parse_eq_ok_iff.1 h
  obtain ⟨call, u, t, hhead, hread, hname, hend, rfl⟩ := script_eq_ok_iff.1 h
  have hnests : Nests ctx (agenda ctx ctx.settings.maxDepth) _ 0 :=
    agenda_nests hr (Nat.zero_add _)
  obtain ⟨-, base, rest, hcall, hu⟩ := callText_of_ok hr hhead
  obtain ⟨-, rest', hbody, ht⟩ := bodyText_of_ok hr hnests rfl hread
  rw [hu, Statement.unplaced] at hbody
  rw [Cursor.rest_pastBlanks, Cursor.rest_start, trim_dropFeeds] at hcall
  rw [Cursor.rest_pastBlanks, ht] at hend
  exact .mk (blanks_trim source.toList) (.mk hcall (blanks_trim rest) hbody)
    (blanks_nil_iff.2 hend) hname

theorem ok_of_scriptText (hr : ctx.workspace.methods.Sound) {a : Agenda}
    (h : ScriptText ctx.workspace (Body ctx file) ctx.settings.entry source.toList a) :
    ∃ found, parse ctx file source = .ok found ∧ Agenda.unplaced found = a := by
  have hnests : Nests ctx (agenda ctx ctx.settings.maxDepth) _ 0 :=
    agenda_nests hr (Nat.zero_add _)
  have hopens : NothingOpens [] := by simp [NothingOpens]
  cases h with
  | @mk t₁ rest call hblanks hstatement hlast hname =>
    -- only blanks are behind the outermost statement, so no brace or parenthesis can extend it
    have hopens' : NothingOpens rest := by rwa [NothingOpens, hlast.trim_eq]
    cases hstatement with
    | @mk _ t₂ t₃ _ base call' _ hcall hbehind hbody =>
      obtain rfl : call' = call := by cases hbody <;> rfl
      have hstart : (Cursor.start file source.toList).pastBlanks.rest = t₁ := by
        rw [Cursor.rest_pastBlanks, Cursor.rest_start, trim_dropFeeds, hblanks.trim_eq,
          callText_solid hcall]
      obtain ⟨u, hhead, hu⟩ := ok_of_callText hr (hstart ▸ hcall)
        (by rw [hbehind.trim_eq]; exact hbody.head_ne hopens')
      obtain ⟨found, t, hread, hfound, ht, -⟩ := ok_of_bodyText hr hnests
        (show (Progress.mk u ⟨0, [file]⟩).nesting = ⟨0, [file]⟩ from rfl)
        (show Call.unplaced { call' with
          position := (Cursor.start file source.toList).pastBlanks.position } = call' from
            hcall.unplaced_eq) hbody (by rw [hu, hbehind.trim_eq]) hopens'
      have hcalled := call_of_statement hread
      cases found with
      | keywords call'' values => simp [Statement.unplaced] at hfound
      | agenda call'' body =>
        obtain rfl : call'' = _ := hcalled
        rw [Statement.unplaced, Statement.agenda.injEq] at hfound
        refine ⟨body, parse_eq_ok_iff.2 ⟨_, script_eq_ok_iff.2 ⟨_, u, t, hhead, hread, hname, ?_,
          rfl⟩⟩, hfound.2⟩
        rw [Cursor.rest_pastBlanks, ht, hlast.trim_eq, trim_nil]

/-- Reading succeeds exactly on the scripts that the grammar derives, with the derived agenda. -/
theorem exists_parse_iff (hr : ctx.workspace.methods.Sound) {a : Agenda} :
    (∃ found, parse ctx file source = .ok found ∧ Agenda.unplaced found = a) ↔
      ScriptText ctx.workspace (Body ctx file) ctx.settings.entry source.toList a := by
  constructor
  · rintro ⟨found, h, rfl⟩
    exact scriptText_of_ok hr h
  · exact ok_of_scriptText hr

/-! ## 3. Acceptance -/

/-- Whether a script is accepted with an agenda that passes a test. -/
def acceptsWith (ctx : Context) (file source : String) (test : Agenda → Bool) : Bool :=
  match parse ctx file source with
  | .ok found => test found
  | .error _ => false

theorem acceptsWith_iff {test : Agenda → Bool} : acceptsWith ctx file source test = true ↔
    ∃ found, parse ctx file source = .ok found ∧ test found = true := by
  unfold acceptsWith
  cases parse ctx file source with
  | ok found => simp
  | error fault => simp

/-- Whether a script is rejected with a given fault. -/
def rejectsWith (ctx : Context) (file source : String) (fault : Fault) : Bool :=
  match parse ctx file source with
  | .ok _ => false
  | .error found => found = fault

theorem rejectsWith_iff {fault : Fault} :
    rejectsWith ctx file source fault = true ↔ parse ctx file source = .error fault := by
  unfold rejectsWith
  cases parse ctx file source with
  | ok found => simp
  | error found => simp

/-- Reading against the small workspace, with no texts to include. -/
def Context.small : Context := { workspace := .small, texts := .ofList [] }

end ControlScript.Reading
