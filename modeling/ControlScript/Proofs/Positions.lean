import ControlScript.Proofs.Acceptance
import ControlScript.Proofs.Cycles
import ControlScript.Proofs.Order

/-!
# Positions of statements

The position of a statement is where the name of its method is written: the line of that number has
the name behind as many characters as the column says, and neither in front of it nor behind it is
another character of a name.  Statements of one file stand behind each other.
-/

namespace ControlScript

/-! ## 1. Between names -/

open Grammar

/-- No name goes on from the text in front of a place to the text behind it. -/
def Apart (passed rest : List Char) : Prop :=
  ∀ l ∈ passed.getLast?, ∀ r ∈ rest.head?, Scan.isNameChar l = true → Scan.isNameChar r = false

section Apart

variable {passed run text rest : List Char} {c : Char}

theorem apart_concat (hc : Scan.isNameChar c = false) (passed rest : List Char) :
    Apart (passed ++ [c]) rest := by
  intro l hl r _ hname
  rw [List.getLast?_concat] at hl
  obtain rfl := Option.some.inj hl
  exact absurd hname (by simp [hc])

theorem apart_of_head (hrest : ∀ r ∈ rest.head?, Scan.isNameChar r = false)
    (passed : List Char) : Apart passed rest := fun _ _ r hr _ => hrest r hr

theorem Apart.append (h : Apart run rest) (hrun : run ≠ []) (passed : List Char) :
    Apart (passed ++ run) rest := by
  intro l hl
  rw [List.getLast?_append_of_ne_nil _ hrun] at hl
  exact h l hl

/-- Blanks and comments are no parts of names. -/
theorem Apart.blanks (hblanks : Blanks text rest) (h : Apart passed text) :
    ∃ run, text = run ++ rest ∧ Apart (passed ++ run) rest := by
  induction hblanks generalizing passed with
  | none => exact ⟨[], rfl, by rwa [List.append_nil]⟩
  | @blank c text rest hc _ ih =>
    have hname : Scan.isNameChar c = false := by
      cases hname : Scan.isNameChar c with
      | false => rfl
      | true => exact absurd hc (by simp [(isBlank_of_isNameChar hname).1])
    obtain ⟨run, rfl, hrun⟩ := ih (apart_concat hname passed text)
    refine ⟨c :: run, rfl, ?_⟩
    rwa [List.append_assoc, List.singleton_append] at hrun
  | @comment body text rest _ hend _ ih =>
    -- a comment ends in front of a line feed or with the text
    have hapart : Apart (passed ++ '#' :: body) text := by
      apply apart_of_head
      intro r hr
      rw [hend r hr]
      exact not_isNameChar_feed
    obtain ⟨run, rfl, hrun⟩ := ih hapart
    refine ⟨'#' :: (body ++ run), by rw [List.cons_append, List.append_assoc], ?_⟩
    rwa [List.append_assoc, List.cons_append] at hrun

end Apart

/-- A cursor is in a text, and not inside of a name. -/
structure Cursor.Fresh (text : IncludedText) (c : Cursor) : Prop where
  within : c.Within text
  apart : ∃ passed, text.text.toList = passed ++ c.rest ∧ Apart passed c.rest

namespace Cursor

variable {c c' : Cursor} {text : IncludedText}

theorem Fresh.blanks (h : c.Fresh text) (hreach : c.Reaches c') (hblanks : Blanks c.rest c'.rest) :
    c'.Fresh text := by
  obtain ⟨passed, htext, hapart⟩ := h.apart
  obtain ⟨run, hrun, hapart⟩ := hapart.blanks hblanks
  refine ⟨h.within.trans hreach, passed ++ run, ?_, hapart⟩
  rw [htext, hrun, List.append_assoc]

theorem Fresh.pastBlanks (h : c.Fresh text) : c.pastBlanks.Fresh text := by
  apply h.blanks c.reaches_pastBlanks
  rw [rest_pastBlanks]
  exact blanks_trim c.rest

/-- Behind a run of characters that no name goes on from, a cursor is not inside of a name. -/
theorem Within.fresh (h : c.Within text) (hreach : c.Reaches c') {run rest : List Char}
    (hrest : c.rest = run ++ rest) (hrun : run ≠ []) (hapart : Apart run rest)
    (hc' : c'.rest = dropFeeds rest) : c'.Fresh text := by
  obtain ⟨passed, htext, -⟩ := h.passed
  obtain ⟨feeds, hfeeds, hapart⟩ := (hapart.append hrun passed).blanks (blanks_dropFeeds rest)
  refine ⟨h.trans hreach, passed ++ run ++ feeds, ?_, hc' ▸ hapart⟩
  rw [hc', List.append_assoc, List.append_assoc, ← hfeeds, ← hrest]
  exact htext

theorem Within.fresh_advance (h : c.Within text) {ch : Char} (hhead : c.rest.head? = some ch)
    (hch : Scan.isNameChar ch = false) : c.advance.Fresh text := by
  obtain ⟨rest, hrest⟩ := List.head?_eq_some_iff.1 hhead
  have hapart : Apart ([] ++ [ch]) rest := apart_concat hch [] rest
  exact h.fresh c.reaches_advance hrest (List.cons_ne_nil ch []) hapart (rest_advance_of hrest)

theorem fresh_start (file source : String) :
    (start file source.toList).Fresh ⟨file, source⟩ := by
  have hapart : Apart [] source.toList := fun _ hl => by simp at hl
  obtain ⟨feeds, hfeeds, hapart⟩ := hapart.blanks (blanks_dropFeeds source.toList)
  refine ⟨within_start ⟨file, source⟩, feeds, ?_, ?_⟩
  · rw [rest_start]
    exact hfeeds
  · rw [rest_start]
    exact hapart

end Cursor

namespace Reading

variable {ctx : Context} {file source : String} {terminator : Terminator} {s u : Progress}
  {w : Workspace} {c c' : Cursor} {text : IncludedText}

/-! ## 2. Places between names -/

theorem fresh_of_requiredName (h : c.Within text) {expected : Expected} {name : String}
    (hread : Scan.requiredName expected c = .ok name c') : c'.Fresh text := by
  obtain ⟨rest, hname, hc'⟩ := (Scan.requiredName_reads expected).sound hread
  have hne : name.toList ≠ [] := by simpa using hname.nonempty
  exact h.fresh ((Scan.forward_requiredName expected).reaches hread) hname.run.spelled hne
    (apart_of_head hname.run.stops _) hc'

theorem fresh_of_string (h : c.Within text) {path : String}
    (hread : Literal.string c = .ok path c') : c'.Fresh text := by
  obtain ⟨rest, hstring, hc'⟩ := Scan.string_reads.sound hread
  have hquote : Scan.isNameChar '"' = false := by decide
  have hspelled : c.rest = ('"' :: path.toList ++ ['"']) ++ rest := by
    rw [hstring.spelled, List.append_assoc, List.singleton_append, List.cons_append]
  exact h.fresh (Literal.forward_string.reaches hread) hspelled (by simp)
    (apart_concat hquote _ rest) hc'

theorem fresh_of_variables (h : c.Fresh text) {base : MethodId} {b : Binding}
    (hread : bindVariables w base c = .ok b c') : c'.Fresh text := by
  have hclose : Scan.isNameChar ')' = false := by decide
  by_cases hcount : (w.methods.get base).slotCount = 0
  · obtain ⟨-, ⟨-, rfl⟩ | ⟨_, hhead, rfl⟩⟩ := (bindVariables_slotless_iff hcount).1 hread
    · exact h
    · have hwithin : c.advance.pastBlanks.Within text :=
        h.within.trans (c.reaches_advance.trans c.advance.reaches_pastBlanks)
      exact hwithin.fresh_advance hhead hclose
  · obtain ⟨-, method, ids, u, hslots, hhead, rfl, -⟩ := (bindVariables_slots_iff hcount).1 hread
    have hreach := (forward_bindSlots w base 0 _ _).reaches hslots
    have hwithin : u.Within text :=
      h.within.trans (c.reaches_advance.trans (c.advance.reaches_pastBlanks.trans hreach))
    exact hwithin.fresh_advance hhead hclose

theorem fresh_of_head (h : c.Within text) {found : Head} (hread : head w c = .ok found c') :
    c'.Fresh text := by
  rcases head_eq_ok_iff.1 hread with ⟨u, path, hname, hpath, -⟩ |
    ⟨name, u, base, b, _, hname, _, hbind, -⟩
  · have hu := (fresh_of_requiredName h hname).pastBlanks
    exact fresh_of_string hu.within hpath
  · have hu := (fresh_of_requiredName h hname).pastBlanks
    exact fresh_of_variables hu hbind

/-- Behind a statement is a brace, or the blanks behind its head. -/
theorem fresh_of_statement (h : c.Fresh text) {levels : Nat} {call : Call} {nesting : Nesting}
    {found : Statement}
    (hread : statement ctx (agenda ctx levels) call ⟨c, nesting⟩ = .ok found u) :
    u.cursor.Fresh text := by
  have hclose : Scan.isNameChar '\x7d' = false := by decide
  obtain ⟨braced, v, hopen, hbody⟩ := statement_eq_ok_iff.1 hread
  have hv : v.Within text := h.within.trans ((forward_openBrace _).reaches hopen)
  have hbare : braced = false → v.Fresh text := by
    rintro rfl
    rcases openBrace_eq_ok_iff.1 hopen with ⟨hfalse, -⟩ | ⟨-, -, -, rfl⟩
    · cases hfalse
    · exact h.pastBlanks
  rcases hbody with ⟨_, _, _, body, t, hnested, hhead, _, rfl⟩ | ⟨_, hbraced, _, rfl⟩ |
    ⟨_, values, t, hbind, _, hend⟩
  · have ht : t.cursor.Within text := hv.trans ((agenda_onward ctx levels).reaches hnested)
    exact ht.fresh_advance hhead hclose
  · exact hbare hbraced
  · have ht : t.Within text := hv.trans (reaches_bindKeywords hbind)
    rcases hend with ⟨_, hhead, rfl⟩ | ⟨rfl, rfl⟩
    · exact ht.fresh_advance hhead hclose
    -- without braces nothing is read for the keywords
    · obtain ⟨_, _, hpure, hcomplete⟩ := bind_eq_ok_iff.1 hbind
      obtain ⟨-, rfl⟩ := pure_eq_ok_iff.1 hpure
      obtain ⟨-, rfl⟩ := ofExcept_eq_ok_iff.1 hcomplete
      exact hbare rfl

/-- The text of a file that is read: the script, or an included text under another name. -/
def ReadFrom (ctx : Context) (file source : String) (text : IncludedText) : Prop :=
  text = ⟨file, source⟩ ∨ text.name ≠ file ∧ ∃ path, ctx.texts path = .ok text

theorem fresh_of_inside? (h : s.cursor.Fresh text) (hinside : inside? ctx s = some u) :
    u.cursor.Fresh text := by
  obtain ⟨call, c, v, hhead, hopen, -, rfl⟩ := inside?_eq_some_iff.1 hinside
  have hc := fresh_of_head h.pastBlanks.within hhead
  rcases openBrace_eq_ok_iff.1 hopen with ⟨-, hbrace, rfl⟩ | ⟨hfalse, -⟩
  · exact hc.pastBlanks.within.fresh_advance hbrace (by decide)
  · cases hfalse

theorem fresh_of_turn (h : s.cursor.Fresh text) {before found : Agenda}
    (hturn : agendaTurn ctx (reader ctx) terminator before s = .ok (.again found) u) :
    u.cursor.Fresh text := by
  have hpast := h.pastBlanks
  rcases agendaTurn_eq_ok_iff.1 hturn with ⟨_, hdone, _⟩ |
    ⟨_, _, ⟨path, here, c, included, hhead, hread, _⟩ | ⟨call, c, next, hhead, hread, _⟩⟩
  · cases hdone
  · obtain ⟨_, _, _, _, _, _, rfl⟩ := inclusion_eq_ok_iff.1 hread
    exact fresh_of_head hpast.within hhead
  · exact fresh_of_statement (fresh_of_head hpast.within hhead) hread

/-- Reading comes to places in texts, and to none inside of a name. -/
theorem Visits.fresh (h : Visits ctx file source terminator s) :
    ∃ text, ReadFrom ctx file source text ∧ s.cursor.Fresh text := by
  induction h with
  | outermost _ hinside =>
    have hstart := Cursor.fresh_start file source
    exact ⟨_, .inl rfl, fresh_of_inside? hstart hinside⟩
  | next _ hturn ih =>
    obtain ⟨text, htext, hs⟩ := ih
    exact ⟨text, htext, fresh_of_turn hs hturn⟩
  | inside _ _ hinside ih =>
    obtain ⟨text, htext, hs⟩ := ih
    exact ⟨text, htext, fresh_of_inside? hs hinside⟩
  | included hs _ hincluded _ =>
    obtain ⟨path, text, _, htext, hnew, rfl⟩ := included?_eq_some_iff.1 hincluded
    refine ⟨text, .inr ⟨?_, path, htext⟩, Cursor.fresh_start text.name text.text⟩
    obtain ⟨-, names, hfiles, -⟩ := hs.opened
    rintro rfl
    exact hnew (hfiles ▸ List.mem_cons_self)

/-! ## 3. Names at positions -/

/-- A name is written in a text, and that no longer name is: the line, counted from one, has it
    behind as many characters as the column says, and neither in front of it nor behind it is a
    character of names. -/
structure StandsAt (name text : String) (line column : Nat) : Prop where
  nonempty : name ≠ ""
  isName : ∀ c ∈ name.toList, Scan.isNameChar c = true
  counted : 0 < line
  written : ∃ before behind,
    (pieces '\n' text.toList)[line - 1]? = some (before ++ name.toList ++ behind) ∧
    column = before.length + 1 ∧
    (∀ c ∈ before.getLast?, Scan.isNameChar c = false) ∧
    ∀ c ∈ behind.head?, Scan.isNameChar c = false

/-- A name that is read at a place between names stands there. -/
theorem standsAt_of_requiredName (h : c.Fresh text) {expected : Expected} {name : String}
    (hread : Scan.requiredName expected c = .ok name c') :
    StandsAt name text.text c.place.line c.place.column := by
  obtain ⟨passed, htext, hplace⟩ := h.within.passed
  obtain ⟨passed', htext', hapart⟩ := h.apart
  obtain rfl : passed' = passed := List.append_cancel_right (htext'.symm.trans htext)
  obtain ⟨rest, hname, -⟩ := (Scan.requiredName_reads expected).sound hread
  have hplace : c.place = Place.afterAll {} passed' := hplace
  rw [Place.afterAll_eq] at hplace
  refine ⟨hname.nonempty, hname.run.all, ?_, passed'.rtakeWhile (· != '\n'),
    rest.takeWhile (· != '\n'), ?_, ?_, ?_, ?_⟩
  · rw [hplace]
    exact Nat.succ_pos _
  · -- the name has no line feed in it, so it is all in the line
    have hline : ∀ c ∈ name.toList, (c != '\n') = true := by
      intro c hc
      have hchar := hname.run.all c hc
      refine bne_iff_ne.2 ?_
      rintro rfl
      exact absurd hchar (by decide)
    have htext : text.text.toList = passed' ++ (name.toList ++ rest) := by
      rw [← hname.run.spelled]
      exact htext
    rw [hplace, Nat.add_sub_cancel, htext, getElem?_pieces,
      List.takeWhile_append_of_pos hline, List.append_assoc]
  · rw [hplace]
  · intro l hl
    obtain ⟨front, hfront⟩ := passed'.rtakeWhile_suffix (· != '\n')
    have hlast : l ∈ passed'.getLast? := by
      rw [← hfront]
      exact List.mem_getLast?_append_of_mem_getLast? hl
    obtain ⟨r, t, hr, hchar⟩ := hname.head
    cases hl : Scan.isNameChar l with
    | false => rfl
    | true =>
      have hfalse := hapart l hlast r (by rw [hr]; rfl) hl
      exact absurd hchar (by simp [hfalse])
  · intro r hr
    rw [List.head?_takeWhile] at hr
    exact hname.run.stops r (Option.filter_eq_some_iff.1 hr).1

theorem method_of_bindSlots {base m method : MethodId} {index : Nat} {slots : List Slot}
    {ids : List VariableId}
    (h : bindSlots w base index slots (some m) c = .ok (method, ids) c') : method = m := by
  induction slots generalizing index c ids with
  | nil =>
    obtain ⟨heq, -⟩ := pure_eq_ok_iff.1 h
    exact (Prod.mk.inj heq).1
  | cons slot slots ih =>
    obtain ⟨-, id, u, m', others, -, hknown, -, hothers, -⟩ := bindSlots_cons_iff.1 h
    obtain hm | ⟨hnone, -⟩ := hknown
    · obtain rfl := Option.some.inj hm
      exact ih hothers
    · cases hnone

/-- The method of a call is the one that was found by name, or specializes it. -/
theorem method_of_bindVariables {base : MethodId} {b : Binding}
    (h : bindVariables w base c = .ok b c') :
    b.method = base ∨ ∃ group, w.methods.resolve? base group = some b.method := by
  by_cases hcount : (w.methods.get base).slotCount = 0
  · obtain ⟨rfl, -⟩ := (bindVariables_slotless_iff hcount).1 h
    exact .inl rfl
  · obtain ⟨-, method, ids, u, hslots, -, -, rfl⟩ := (bindVariables_slots_iff hcount).1 h
    obtain ⟨slot, slots, hcons⟩ := List.exists_cons_of_ne_nil (mt List.length_eq_zero_iff.2 hcount)
    rw [hcons] at hslots
    obtain ⟨-, id, v, m, others, -, hknown, -, hothers, -⟩ := bindSlots_cons_iff.1 hslots
    obtain rfl := method_of_bindSlots hothers
    rcases hknown with hknown | ⟨-, hresolve⟩
    · rw [knownMethod?] at hknown
      split at hknown
      · cases hknown
      · exact .inl (Option.some.inj hknown).symm
    · exact .inr ⟨_, hresolve⟩

/-- A call begins with the name that its method is called by. -/
theorem name_of_head {call : Call} (h : head w c = .ok (.call call) c') :
    ∃ u, Scan.requiredName .methodName c = .ok (w.methods.calledAs call.method).name u := by
  rcases head_eq_ok_iff.1 h with ⟨_, _, _, _, heq⟩ | ⟨name, u, base, b, _, hname, hfind, hbind, heq⟩
  · cases heq
  · obtain rfl := Head.call.inj heq
    have hcalled := MethodRegistry.calledAs_of_find? hfind (method_of_bindVariables hbind)
    exact ⟨u, by rw [hcalled]; exact hname⟩

theorem standsAt_of_head (h : c.Fresh text) {call : Call} (hhead : head w c = .ok (.call call) c') :
    call.position.file = text.name ∧ StandsAt (w.methods.calledAs call.method).name text.text
      call.position.line call.position.column := by
  obtain ⟨u, hname⟩ := name_of_head hhead
  rw [position_of_head hhead]
  exact ⟨h.within.file, standsAt_of_requiredName h hname⟩

/-- The name of every statement stands at its position. -/
theorem named_of_parse {found : Agenda} (h : parse ctx file source = .ok found) :
    ∀ v ∈ Agenda.preorder found, ∃ text, ReadFrom ctx file source text ∧
      v.call.position.file = text.name ∧
      StandsAt (ctx.workspace.methods.calledAs v.call.method).name text.text
        v.call.position.line v.call.position.column := by
  intro v hv
  obtain ⟨terminator, u, c, hu, hhead⟩ := found_of_parse h v hv
  obtain ⟨text, htext, hfresh⟩ := hu.fresh
  exact ⟨text, htext, standsAt_of_head hfresh.pastBlanks hhead⟩

/-! ## 4. Scripts -/

/-- In a script that includes nothing, all statements are written in its own text. -/
theorem file_of_parse {found : Agenda} (hnamed : NamedByPath ctx.texts)
    (halone : ∀ path, ¬ Expands ctx file source file path)
    (h : parse ctx file source = .ok found) :
    ∀ v ∈ Agenda.preorder found, v.call.position.file = file := by
  intro v hv
  obtain ⟨terminator, u, c, hu, hhead⟩ := found_of_parse h v hv
  have hchain := hu.includeChain hnamed
  obtain ⟨-, names, hfiles, -⟩ := hu.opened
  have hlinks := hchain.links
  have hlast := hchain.innermost
  rw [hfiles] at hlinks hlast
  cases names with
  | nil =>
    rw [position_of_head hhead]
    exact (Cursor.reaches_pastBlanks _).file.trans (Option.some.inj hlast).symm
  | cons path names => exact absurd (List.isChain_cons_cons.1 hlinks).1 (halone path)

/-- The text of a file: that of the script, or a text that is kept in memory. -/
def fileText? (texts : List (String × String)) (file source name : String) : Option String :=
  if name = file then some source else List.lookup name texts

theorem fileText?_of_readFrom {texts : List (String × String)} {settings : Settings}
    (h : ReadFrom ⟨w, .ofList texts, settings⟩ file source text) :
    fileText? texts file source text.name = some text.text := by
  rw [fileText?]
  rcases h with rfl | ⟨hname, path, htext⟩
  · rw [if_pos rfl]
  · rw [if_neg hname]
    have htext : TextSource.ofList texts path = .ok text := htext
    rw [TextSource.ofList] at htext
    split at htext
    · rename_i found hlookup
      obtain rfl := Except.ok.inj htext
      exact hlookup
    · cases htext

/-- The positions of an agenda are those of its statements in the texts. -/
structure PositionsFaithful (w : Workspace) (texts : List (String × String)) (settings : Settings)
    (file source : String) (found : Agenda) : Prop where
  named : ∀ s ∈ Agenda.preorder found, ∃ text,
    fileText? texts file source s.call.position.file = some text ∧
    StandsAt (w.methods.calledAs s.call.method).name text s.call.position.line
      s.call.position.column
  ordered : (Agenda.placesIn file found).Pairwise Place.Before
  increasing : (∀ path, ¬ Expands ⟨w, .ofList texts, settings⟩ file source file path) →
    ((Agenda.preorder found).map (·.call.position.place)).Pairwise Place.Before

/-- With texts that are kept in memory, the positions of all statements are faithful. -/
theorem positions_faithful {texts : List (String × String)} {settings : Settings}
    {found : Agenda} (h : parse ⟨w, .ofList texts, settings⟩ file source = .ok found) :
    PositionsFaithful w texts settings file source found where
  named := by
    intro s hs
    obtain ⟨text, htext, hfile, hstands⟩ := named_of_parse h s hs
    refine ⟨text.text, ?_, hstands⟩
    rw [hfile]
    exact fileText?_of_readFrom htext
  ordered := inOrder_of_parse h
  increasing := by
    intro halone
    have hfiles := file_of_parse (namedByPath_ofList texts) halone h
    have hordered := inOrder_of_parse h
    have hall := List.filter_eq_self.2 fun s hs => decide_eq_true (hfiles s hs)
    rwa [Agenda.placesIn, hall] at hordered

/-- In a script with an included text there are positions in both texts. -/
theorem positions_faithful_included : ∃ found,
    parse ⟨.small, .ofList [("part", "Copy(x, y)")], {}⟩ "main"
      "Arts \x7b\n  Wait\n  INCLUDE \"part\" Copy(y, x) \x7d" = .ok found ∧
    (Agenda.preorder found).map (·.call.position)
      = [⟨"main", 2, 3⟩, ⟨"part", 1, 1⟩, ⟨"main", 3, 18⟩] ∧
    PositionsFaithful .small [("part", "Copy(x, y)")] {} "main"
      "Arts \x7b\n  Wait\n  INCLUDE \"part\" Copy(y, x) \x7d" found := by
  have hread : acceptsWith ⟨.small, .ofList [("part", "Copy(x, y)")], {}⟩ "main"
      "Arts \x7b\n  Wait\n  INCLUDE \"part\" Copy(y, x) \x7d" (fun found =>
        (Agenda.preorder found).map (·.call.position)
          = [⟨"main", 2, 3⟩, ⟨"part", 1, 1⟩, ⟨"main", 3, 18⟩]) = true := by decide +kernel
  obtain ⟨found, hfound, hpositions⟩ := acceptsWith_iff.1 hread
  exact ⟨found, hfound, of_decide_eq_true hpositions, positions_faithful hfound⟩

end Reading

end ControlScript
