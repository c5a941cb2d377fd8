import ControlScript.Proofs.Lines
import ControlScript.Proofs.Runs

/-!
# Statements in order

The statements of a script that are written in its own text stand behind each other in the order in
which they are read, on whatever levels.  The texts that are included in between have none of them,
since the script is open and cannot be included.
-/

namespace ControlScript

/-- The place of a position in its file. -/
def Position.place (p : Position) : Place := ⟨p.line, p.column⟩

/-- The statements in the braces of a statement. -/
def Statement.inner : Statement → Agenda
  | .keywords _ _ => []
  | .agenda _ body => body

/-- The places of the statements that are written in a file, on all levels. -/
def Agenda.placesIn (file : String) (a : Agenda) : List Place :=
  ((Agenda.preorder a).filter (·.call.position.file = file)).map (·.call.position.place)

/-! ## 1. Places in order -/

/-- Places that stand behind each other, from one place on and in front of another one. -/
structure InOrder (first : Place) (places : List Place) (last : Place) : Prop where
  sorted : places.Pairwise Place.Before
  from_first : ∀ p ∈ places, ¬ p.Before first
  to_last : ∀ p ∈ places, p.Before last
  forward : ¬ last.Before first

namespace InOrder

variable {first middle last : Place} {places others : List Place}

theorem nil (h : ¬ last.Before first) : InOrder first [] last :=
  ⟨.nil, List.forall_mem_nil _, List.forall_mem_nil _, h⟩

theorem append (h : InOrder first places middle) (h' : InOrder middle others last) :
    InOrder first (places ++ others) last := by
  have hfirst := h.forward
  have hlast := h'.forward
  refine ⟨List.pairwise_append.2 ⟨h.sorted, h'.sorted, ?_⟩, ?_, ?_, ?_⟩
  · intro p hp q hq
    have := h.to_last p hp
    have := h'.from_first q hq
    unfold Place.Before at *
    omega
  · refine List.forall_mem_append.2 ⟨h.from_first, fun q hq => ?_⟩
    have := h'.from_first q hq
    unfold Place.Before at *
    omega
  · refine List.forall_mem_append.2 ⟨fun p hp => ?_, h'.to_last⟩
    have := h.to_last p hp
    unfold Place.Before at *
    omega
  · unfold Place.Before at *
    omega

theorem mono (h : InOrder first places middle) (hlast : ¬ last.Before middle) :
    InOrder first places last := by
  have happended := h.append (InOrder.nil hlast)
  rwa [List.append_nil] at happended

/-- A place and then others behind it. -/
theorem cons (hfirst : first.Before middle) (h : InOrder middle places last) :
    InOrder first (first :: places) last := by
  have hone : InOrder first [first] middle := by
    refine ⟨List.pairwise_singleton _ _, ?_, ?_, ?_⟩
    · refine List.forall_mem_singleton.2 ?_
      unfold Place.Before
      omega
    · exact List.forall_mem_singleton.2 hfirst
    · unfold Place.Before at *
      omega
  exact hone.append h

end InOrder

namespace Cursor

variable {c c' : Cursor}

theorem Reaches.forward (h : c.Reaches c') : ¬ c'.place.Before c.place := by
  obtain ⟨run, -, hplace⟩ := h.passed
  rw [hplace]
  by_cases hrun : run = []
  · rw [hrun, Place.afterAll_nil]
    unfold Place.Before
    omega
  · have hbefore := Place.before_afterAll hrun c.place
    unfold Place.Before at *
    omega

/-- Where a cursor has left text behind, it is at a later place. -/
theorem Reaches.before (h : c.Reaches c') (hless : c'.rest.length < c.rest.length) :
    c.place.Before c'.place := by
  obtain ⟨run, hrest, hplace⟩ := h.passed
  rw [hplace]
  apply Place.before_afterAll
  rintro rfl
  rw [hrest, List.nil_append] at hless
  exact absurd hless (Nat.lt_irrefl _)

end Cursor

namespace Agenda

variable {file : String}

theorem placesIn_append (a b : Agenda) :
    placesIn file (a ++ b) = placesIn file a ++ placesIn file b := by
  rw [placesIn, preorder_append, List.filter_append, List.map_append, placesIn, placesIn]

theorem placesIn_singleton (s : Statement) : placesIn file [s] =
    if s.call.position.file = file then s.call.position.place :: placesIn file s.inner
    else placesIn file s.inner := by
  have hpreorder : preorder [s] = s :: preorder s.inner := by
    cases s with
    | keywords call values => rfl
    | agenda call body => exact List.append_nil _
  rw [placesIn, hpreorder, List.filter_cons]
  simp only [decide_eq_true_eq]
  split
  · rfl
  · rfl

end Agenda

namespace Reading

variable {ctx : Context} {file source : String} {terminator : Terminator} {s t u : Progress}
  {first : Place} {places others : List Place}

/-! ## 2. Runs that find statements in order -/

/-- The places in a file that have been found when reading comes to a state: those behind `first`
    if reading is in the file, and otherwise none. -/
structure Along (file : String) (first : Place) (places : List Place) (s : Progress) : Prop where
  here : s.cursor.file = file → InOrder first places s.cursor.place
  elsewhere : s.cursor.file ≠ file → places = []

theorem Along.start (file : String) (s : Progress) : Along file s.cursor.place [] s where
  here := fun _ => .nil (Cursor.Reaches.refl s.cursor).forward
  elsewhere := fun _ => rfl

theorem Along.reaches (h : Along file first places s) (hreach : s.cursor.Reaches t.cursor) :
    Along file first places t where
  here := fun hfile => (h.here (hreach.file ▸ hfile)).mono hreach.forward
  elsewhere := fun hfile => h.elsewhere (hreach.file ▸ hfile)

theorem Along.append (h : Along file first places s) (hfile : t.cursor.file = s.cursor.file)
    (h' : Along file s.cursor.place others t) : Along file first (places ++ others) t where
  here := fun ht => (h.here (hfile ▸ ht)).append (h'.here ht)
  elsewhere := fun ht => by rw [h.elsewhere (hfile ▸ ht), h'.elsewhere ht, List.append_nil]

section Statement

variable {call : Call} {c v : Cursor} {nesting : Nesting} {found : Statement}

/-- What is read in the braces of a statement is found behind its head. -/
theorem inner_along
    (hnested : ∀ {u a t}, u.cursor.file = v.file → u.nesting.files = nesting.files →
      levelsLeft ctx u < levelsLeft ctx ⟨v, nesting⟩ → turnsLeft ctx .brace [] u = .ok a t →
        Along file u.cursor.place (Agenda.placesIn file a) t)
    (h : statement ctx (reader ctx) call ⟨v, nesting⟩ = .ok found t) :
    Along file v.place (Agenda.placesIn file found.inner) t := by
  have hstart := Along.start file ⟨v, nesting⟩
  have hnothing : Along file v.place [] t :=
    hstart.reaches ((agenda_onward ctx _).statement h)
  obtain ⟨braced, b, hopen, hbody⟩ := statement_eq_ok_iff.1 h
  have hbrace := (forward_openBrace _).reaches hopen
  rcases hbody with ⟨_, _, hlevel, body, w, hread, _, rfl, rfl⟩ | ⟨_, _, rfl, _⟩ |
    ⟨_, values, _, _, rfl, _⟩
  · have hlevel : (Progress.mk v nesting).nesting.depth < ctx.settings.maxDepth := hlevel
    have hread' := turnsLeft_of_reader hread
    have hplaces := hnested hbrace.file rfl (levelsLeft_below hlevel) hread'
    have hopened : Along file v.place [] ⟨b, { nesting with depth := nesting.depth + 1 }⟩ :=
      hstart.reaches hbrace
    have hfile : w.cursor.file = b.file := ((agenda_onward ctx _).reaches hread).file
    exact (hopened.append hfile hplaces).reaches w.cursor.reaches_advance
  · exact hnothing
  · exact hnothing

/-- A statement and the statements in its braces are found in order. -/
theorem statement_along (hhead : head ctx.workspace c = .ok (.call call) v)
    (hinner : Along file v.place (Agenda.placesIn file found.inner) t)
    (h : statement ctx (reader ctx) call ⟨v, nesting⟩ = .ok found t) :
    Along file c.place (Agenda.placesIn file [found]) t := by
  have hforward := (forward_head _).reaches hhead
  have hfile : t.cursor.file = c.file :=
    (hforward.trans ((agenda_onward ctx _).statement h)).file
  have hplace : c.place.Before v.place := hforward.before ((head_takes _).less hhead)
  have hposition : found.call.position = c.position := by
    rw [call_of_statement h, position_of_head hhead]
  rw [Agenda.placesIn_singleton, hposition]
  refine ⟨fun ht => ?_, fun ht => ?_⟩
  · have hc : c.position.file = file := hfile.symm.trans ht
    rw [if_pos hc]
    exact .cons hplace (hinner.here ht)
  · have hc : c.position.file ≠ file := fun hc => ht (hfile.trans hc)
    rw [if_neg hc]
    exact hinner.elsewhere ht

end Statement

/-- Where a file is open, reading goes on to find its statements in order. -/
theorem turns_along (hopen : file ∈ s.nesting.files) {before found : Agenda}
    (hbefore : Along file first (Agenda.placesIn file before.reverse) s)
    (h : turnsLeft ctx terminator before s = .ok found t) :
    Along file first (Agenda.placesIn file found) t := by
  induction terminator, s using turns_induction ctx generalizing before found first t with
  | @h terminator s ihnested ihbehind =>
  rw [turnsLeft_eq] at h
  cases hturn : agendaTurn ctx (reader ctx) terminator before s with
  | error e v =>
    rw [hturn] at h
    cases h
  | ok turn v =>
    rw [hturn] at h
    have hpast : Along file first (Agenda.placesIn file before.reverse)
        ⟨s.cursor.pastBlanks, s.nesting⟩ := hbefore.reaches s.cursor.reaches_pastBlanks
    have hnesting := nesting_of_turn hturn
    rcases agendaTurn_eq_ok_iff.1 hturn with ⟨_, rfl, rfl⟩ |
      ⟨_, _, ⟨path, here, c, included, hhead, hread, rfl⟩ | ⟨call, c, next, hhead, hread, rfl⟩⟩
    · obtain ⟨rfl, rfl⟩ := EStateM.Result.ok.inj h
      exact hpast
    · obtain ⟨text, w, htext, hnew, hlevel, hnested, rfl⟩ := inclusion_eq_ok_iff.1 hread
      -- the file is open, so the included text is not its text
      have hincluded : Agenda.placesIn file included = [] := by
        have halong := ihnested (levelsLeft_below hlevel) (List.mem_append_left _ hopen)
          (Along.start file _) (turnsLeft_of_reader hnested)
        have hfile : w.cursor.file = text.name := ((agenda_onward ctx _).reaches hnested).file
        apply halong.elsewhere
        rw [hfile]
        rintro rfl
        exact hnew hopen
      refine ihbehind hturn (hnesting ▸ hopen) ?_ h
      rw [List.reverse_append, List.reverse_reverse, Agenda.placesIn_append, hincluded,
        List.append_nil]
      exact hpast.reaches ((forward_head _).reaches hhead)
    · have hinner : Along file c.place (Agenda.placesIn file next.inner) v := by
        refine inner_along (fun _ hfiles hless hbody => ?_) hread
        exact ihnested hless (hfiles ▸ hopen) (Along.start file _) hbody
      have hnext := statement_along hhead hinner hread
      have hfile : v.cursor.file = s.cursor.pastBlanks.file :=
        (((forward_head _).reaches hhead).trans ((agenda_onward ctx _).statement hread)).file
      refine ihbehind hturn (hnesting ▸ hopen) ?_ h
      rw [List.reverse_cons, Agenda.placesIn_append]
      exact hpast.append hfile hnext

/-- The statements of a script that are written in its own text are in order. -/
theorem inOrder_of_parse {found : Agenda} (h : parse ctx file source = .ok found) :
    (Agenda.placesIn file found).Pairwise Place.Before := by
  obtain ⟨_, h⟩ := parse_eq_ok_iff.1 h
  obtain ⟨call, c, t, hhead, hread, -⟩ := script_eq_ok_iff.1 h
  have hinner : Along file c.place (Agenda.placesIn file found) t := by
    refine inner_along (fun _ hfiles _ hbody => ?_) hread
    exact turns_along (hfiles ▸ List.mem_singleton_self file) (Along.start file _) hbody
  have hfile : t.cursor.file = file := by
    have hreach := ((forward_head _).reaches hhead).trans ((agenda_onward ctx _).statement hread)
    rw [hreach.file, (Cursor.reaches_pastBlanks _).file]
    rfl
  exact (hinner.here hfile).sorted

end Reading

end ControlScript
