import ControlScript.Proofs.Loops
import ControlScript.Proofs.Nesting
import Mathlib.Logic.Function.Iterate

/-!
# Reading ends

The loops and levels of reading are bounded by texts and settings, so that they end by construction.
None of these bounds ever decides what is read: finitely many steps of the loops and the recursion
do, whatever would be done beyond them.  A statement takes text, and a nested agenda has fewer levels
left; the steps are counted by the levels first and the text second.
-/

namespace ControlScript.Reading

/-! ## 1. Statements and agendas -/

variable {ctx : Context} {c c' : Cursor} {s s' : Progress} {x y : Terminator → Read Agenda}

/-- The number of levels that can still be entered. -/
def levelsLeft (ctx : Context) (s : Progress) : Nat := ctx.settings.maxDepth - s.nesting.depth

theorem levelsLeft_below (h : s.nesting.depth < ctx.settings.maxDepth) {c : Cursor}
    {files : List String} :
    levelsLeft ctx ⟨c, ⟨s.nesting.depth + 1, files⟩⟩ < levelsLeft ctx s := by
  show ctx.settings.maxDepth - (s.nesting.depth + 1) < ctx.settings.maxDepth - s.nesting.depth
  omega

/-- A run that may read nested agendas reads one at most, and with fewer than `levels` levels
    left: it depends on nothing else that a reader of nested agendas does. -/
def CallsDeeper {β : Type} (ctx : Context) (levels : Nat)
    (run : (Terminator → Read Agenda) → β) : Prop :=
  (∀ x y, run x = run y) ∨ ∃ terminator u, levelsLeft ctx u < levels ∧
    ∀ x y, x terminator u = y terminator u → run x = run y

/-- What is done with the result of a run does not read nested agendas. -/
theorem CallsDeeper.after {β γ : Type} {levels : Nat} {run : (Terminator → Read Agenda) → Read β}
    (h : CallsDeeper ctx levels fun x => run x s) (f : β → γ) :
    CallsDeeper ctx levels fun x => (f <$> run x) s := by
  have hmap : ∀ x y, run x s = run y s → (f <$> run x) s = (f <$> run y) s := by
    intro x y hxy
    show EStateM.map f (run x) s = EStateM.map f (run y) s
    rw [EStateM.map, EStateM.map, hxy]
  rcases h with h | ⟨terminator, u, hless, h⟩
  · exact .inl fun x y => hmap x y (h x y)
  · exact .inr ⟨terminator, u, hless, fun x y hxy => hmap x y (h x y hxy)⟩

/-- Readers that do the same with fewer levels left are told apart by no such run. -/
theorem CallsDeeper.congr {β : Type} {levels : Nat} {run : (Terminator → Read Agenda) → β}
    (h : CallsDeeper ctx levels run)
    (hxy : ∀ terminator u, levelsLeft ctx u < levels → x terminator u = y terminator u) :
    run x = run y := by
  rcases h with h | ⟨terminator, u, hless, h⟩
  · exact h x y
  · exact h x y (hxy terminator u hless)

theorem enter_of_le {settings : Settings} {here : Position}
    (h : settings.maxDepth ≤ s.nesting.depth) :
    enter settings here s = .error ⟨.nestingTooDeep settings.maxDepth, here⟩ s := by
  show (if s.nesting.depth ≥ settings.maxDepth then _ else _ : Read Unit) s = _
  rw [if_pos h]
  rfl

theorem enter_of_lt {settings : Settings} {here : Position}
    (h : s.nesting.depth < settings.maxDepth) :
    enter settings here s = .ok ⟨⟩ { s with nesting.depth := s.nesting.depth + 1 } :=
  enter_eq_ok_iff.2 ⟨h, rfl⟩

theorem statement_callsDeeper (call : Call) (s : Progress) :
    CallsDeeper ctx (levelsLeft ctx s) fun x => statement ctx x call s := by
  cases hopen : scan (openBrace (ctx.workspace.methods.get call.method)) s with
  | error e t =>
    refine .inl fun x y => ?_
    show statement ctx x call s = statement ctx y call s
    rw [statement, statement, bind_of_error hopen, bind_of_error hopen]
  | ok braced t =>
    have hnesting : t.nesting = s.nesting := by
      obtain ⟨u, -, rfl⟩ := scan_eq_ok_iff.1 hopen
      rfl
    cases hagenda : (ctx.workspace.methods.get call.method).takesAgenda with
    | false =>
      refine .inl fun x y => ?_
      simp only [statement, bind_of_ok hopen, hagenda]
      rfl
    | true =>
      cases braced with
      | false =>
        refine .inl fun x y => ?_
        simp only [statement, bind_of_ok hopen, hagenda]
        rfl
      | true =>
        by_cases hlevel : t.nesting.depth < ctx.settings.maxDepth
        · -- the body is all that is read by the reader of the level below
          refine .inr ⟨.brace, { t with nesting.depth := t.nesting.depth + 1 }, ?_, ?_⟩
          · have hlevels : levelsLeft ctx t = levelsLeft ctx s := by
              rw [levelsLeft, hnesting, levelsLeft]
            rw [← hlevels]
            exact levelsLeft_below hlevel
          · intro x y h
            simp only [statement, bind_of_ok hopen, hagenda, if_true,
              bind_of_ok (enter_of_lt hlevel)]
            exact bind_congr_of_eq h
        · refine .inl fun x y => ?_
          simp only [statement, bind_of_ok hopen, hagenda, if_true,
            bind_of_error (enter_of_le (Nat.le_of_not_lt hlevel))]

theorem inclusion_callsDeeper (path : String) (here : Position) (s : Progress) :
    CallsDeeper ctx (levelsLeft ctx s) fun x => inclusion ctx x path here s := by
  cases htext : ctx.texts path with
  | error e =>
    refine .inl fun x y => ?_
    simp only [inclusion, htext]
  | ok text =>
    have hget : (get : Read Progress) s = .ok s s := rfl
    by_cases hopen : text.name ∈ s.nesting.files
    · refine .inl fun x y => ?_
      simp only [inclusion, htext, bind_of_ok hget, if_pos hopen]
      rfl
    by_cases hlevel : s.nesting.depth < ctx.settings.maxDepth
    · let inside : Progress := ⟨.start text.name text.text.toList,
        ⟨s.nesting.depth + 1, s.nesting.files ++ [text.name]⟩⟩
      have hfile : openFile text { s with nesting.depth := s.nesting.depth + 1 } = .ok ⟨⟩ inside :=
        openFile_eq_ok_iff.2 rfl
      refine .inr ⟨.endOfText, inside, ?_, ?_⟩
      · exact levelsLeft_below hlevel
      · intro x y h
        simp only [inclusion, htext, bind_of_ok hget, if_neg hopen,
          bind_of_ok (enter_of_lt hlevel), bind_of_ok hfile]
        exact bind_congr_of_eq h
    · refine .inl fun x y => ?_
      simp only [inclusion, htext, bind_of_ok hget, if_neg hopen,
        bind_of_error (enter_of_le (Nat.le_of_not_lt hlevel))]

theorem behindHead_callsDeeper (before : Agenda) (first : Head) (s : Progress) :
    CallsDeeper ctx (levelsLeft ctx s) fun x => behindHead ctx x before first s := by
  cases first with
  | inclusion path here =>
    exact (inclusion_callsDeeper path here s).after fun included =>
      (Turn.again (included.reverse ++ before) : Turn Agenda Agenda)
  | call call =>
    exact (statement_callsDeeper call s).after fun next =>
      (Turn.again (next :: before) : Turn Agenda Agenda)

theorem agendaTurn_callsDeeper (terminator : Terminator) (before : Agenda) (s : Progress) :
    CallsDeeper ctx (levelsLeft ctx s) fun x => agendaTurn ctx x terminator before s := by
  cases hnext : scan (nextHead? ctx.workspace terminator) s with
  | error e t =>
    refine .inl fun x y => ?_
    simp only [agendaTurn_eq, bind_of_error hnext]
  | ok found t =>
    -- scans leave the nesting as it is
    have hlevels : levelsLeft ctx t = levelsLeft ctx s := by
      obtain ⟨u, -, rfl⟩ := scan_eq_ok_iff.1 hnext
      rfl
    simp only [agendaTurn_eq, bind_of_ok hnext]
    cases found with
    | none => exact .inl fun x y => rfl
    | some first =>
      rw [← hlevels]
      exact behindHead_callsDeeper before first t

/-! ## 2. Levels -/

/-- A reader leaves as many levels and files as it has found, if it starts with fewer than `levels`
    levels left. -/
structure Restores (ctx : Context) (levels : Nat) (x : Terminator → Read Agenda) : Prop where
  nesting : ∀ {terminator s a s'}, levelsLeft ctx s < levels → x terminator s = .ok a s' →
    s'.nesting = s.nesting

/-- Readers do the same where they start with fewer than `levels` levels left. -/
def SameBelow (ctx : Context) (levels : Nat) (x y : Terminator → Read Agenda) : Prop :=
  ∀ terminator s, levelsLeft ctx s < levels → x terminator s = y terminator s

theorem Restores.mono {levels levels' : Nat} (h : levels' ≤ levels) (hx : Restores ctx levels x) :
    Restores ctx levels' x :=
  ⟨fun hs hread => hx.nesting (Nat.lt_of_lt_of_le hs h) hread⟩

theorem Restores.statement {call : Call} {found : Statement}
    (hx : Restores ctx (levelsLeft ctx s) x) (h : statement ctx x call s = .ok found s') :
    s'.nesting = s.nesting := by
  obtain ⟨braced, v, -, hbody⟩ := statement_eq_ok_iff.1 h
  rcases hbody with ⟨_, _, hlevel, body, t, hnested, _, _, rfl⟩ | ⟨_, _, _, rfl⟩ |
    ⟨_, _, _, _, _, ⟨_, _, rfl⟩ | ⟨_, rfl⟩⟩
  · have hlevel : s.nesting.depth < ctx.settings.maxDepth := hlevel
    rw [hx.nesting (levelsLeft_below hlevel) hnested, Nat.add_sub_cancel]
  · rfl
  · rfl
  · rfl

theorem Restores.inclusion {path : String} {here : Position} {found : Agenda}
    (hx : Restores ctx (levelsLeft ctx s) x) (h : inclusion ctx x path here s = .ok found s') :
    s'.nesting = s.nesting := by
  obtain ⟨text, t, -, -, hlevel, hnested, rfl⟩ := inclusion_eq_ok_iff.1 h
  have hlevel : s.nesting.depth < ctx.settings.maxDepth := hlevel
  rw [hx.nesting (levelsLeft_below hlevel) hnested, Nat.add_sub_cancel, List.dropLast_concat]

theorem Restores.agendaTurn {terminator : Terminator} {found : Agenda}
    {turn : Turn Agenda Agenda} (hx : Restores ctx (levelsLeft ctx s) x)
    (h : agendaTurn ctx x terminator found s = .ok turn s') : s'.nesting = s.nesting := by
  rcases agendaTurn_eq_ok_iff.1 h with ⟨_, _, rfl⟩ |
    ⟨_, _, ⟨path, here, u, a, _, hread, _⟩ | ⟨call, u, a, _, hread, _⟩⟩
  · rfl
  · have hu : Restores ctx (levelsLeft ctx ⟨u, s.nesting⟩) x := hx
    exact hu.inclusion hread
  · have hu : Restores ctx (levelsLeft ctx ⟨u, s.nesting⟩) x := hx
    exact hu.statement hread

theorem Restores.agendaBy {levels : Nat} (hx : Restores ctx levels x) :
    Restores ctx (levels + 1) (agendaBy ctx x) := by
  refine ⟨fun {terminator s a s'} hs h => ?_⟩
  simp only [Reading.agendaBy, bind_eq_ok_iff, get_eq_ok_iff, and_assoc, exists_and_left,
    exists_eq_left] at h
  have hturn : ∀ {found s turn s'}, levelsLeft ctx s ≤ levels →
      Reading.agendaTurn ctx x terminator found s = .ok turn s' → s'.nesting = s.nesting :=
    fun hs h => (hx.mono hs).agendaTurn h
  refine takeTurns_induction (motive := fun _ s _ s' => levelsLeft ctx s ≤ levels →
    s'.nesting = s.nesting) (fun h => by simp at h) ?done ?again h (Nat.le_of_lt_succ hs)
  case done => exact fun h hs => hturn hs h
  case again =>
    intro found s next u a s' h ih hs
    have hnesting := hturn hs h
    have hlevels : levelsLeft ctx u ≤ levels := by rwa [levelsLeft, hnesting]
    rw [ih hlevels, hnesting]

/-- However many levels a reader of agendas has, it leaves levels and files as it has found them. -/
theorem agenda_restores (ctx : Context) (levels bound : Nat) :
    Restores ctx bound (agenda ctx levels) := by
  induction levels generalizing bound with
  | zero =>
    have hbottom : Restores ctx bound
        fun _ => scan (Scan.fail (.nestingTooDeep ctx.settings.maxDepth)) :=
      ⟨fun _ h => by simp at h⟩
    exact hbottom.agendaBy.mono (Nat.le_succ bound)
  | succ levels ih => exact (ih bound).agendaBy.mono (Nat.le_succ bound)

/-- Agendas are read in the same way when those inside of them are. -/
theorem SameBelow.agendaBy {levels : Nat} (hxy : SameBelow ctx levels x y)
    (hx : Restores ctx levels x) :
    SameBelow ctx (levels + 1) (agendaBy ctx x) (agendaBy ctx y) := by
  intro terminator s hs
  show takeTurns (agendaTurn ctx x terminator) _ s.cursor.rest [] s =
    takeTurns (agendaTurn ctx y terminator) _ s.cursor.rest [] s
  generalize s.cursor.rest = text
  generalize ([] : Agenda) = found
  -- a turn reads inside only below `s`, where the readers agree, and leaves the level it began on
  induction text generalizing found s with
  | nil =>
    have hturn := (agendaTurn_callsDeeper terminator found s).congr
      fun inner u hu => hxy inner u (Nat.lt_of_lt_of_le hu (Nat.le_of_lt_succ hs))
    unfold takeTurns
    exact bind_congr_of_eq hturn
  | cons ch fewer ih =>
    have hturn := (agendaTurn_callsDeeper terminator found s).congr
      fun inner u hu => hxy inner u (Nat.lt_of_lt_of_le hu (Nat.le_of_lt_succ hs))
    unfold takeTurns
    cases hfound : agendaTurn ctx x terminator found s with
    | error e u => rw [bind_of_error hfound, bind_of_error (hturn ▸ hfound)]
    | ok turn u =>
      rw [bind_of_ok hfound, bind_of_ok (hturn ▸ hfound)]
      cases turn with
      | done result => rfl
      | again next =>
        have hnesting := (hx.mono (Nat.le_of_lt_succ hs)).agendaTurn hfound
        apply ih
        rwa [levelsLeft, hnesting]

/-- How an agenda is read with `levels` levels left does not depend on what is done `levels` levels
    below. -/
theorem iterate_agendaBy (bottom : Terminator → Read Agenda) (levels : Nat) :
    Restores ctx levels ((agendaBy ctx)^[levels] bottom) ∧
      ∀ bottom' more, SameBelow ctx levels ((agendaBy ctx)^[levels] bottom)
        ((agendaBy ctx)^[levels + more] bottom') := by
  induction levels with
  | zero =>
    exact ⟨⟨fun hs => absurd hs (Nat.not_lt_zero _)⟩,
      fun _ _ _ _ hs => absurd hs (Nat.not_lt_zero _)⟩
  | succ levels ih =>
    obtain ⟨hrestores, hsame⟩ := ih
    rw [Function.iterate_succ_apply']
    refine ⟨hrestores.agendaBy, fun bottom' more => ?_⟩
    rw [Nat.add_right_comm, Function.iterate_succ_apply']
    exact (hsame bottom' more).agendaBy hrestores

theorem agenda_eq_iterate (ctx : Context) (levels : Nat) : agenda ctx levels =
    (agendaBy ctx)^[levels + 1] fun _ => scan (Scan.fail (.nestingTooDeep ctx.settings.maxDepth)) := by
  induction levels with
  | zero => rfl
  | succ levels ih => rw [Function.iterate_succ_apply', ← ih, agenda]

/-- The reader that scripts are read with. -/
abbrev reader (ctx : Context) : Terminator → Read Agenda := agenda ctx ctx.settings.maxDepth

theorem levelsLeft_le (ctx : Context) (s : Progress) : levelsLeft ctx s ≤ ctx.settings.maxDepth :=
  Nat.sub_le _ _

/-- The reader of scripts reads agendas by itself: its levels are enough everywhere. -/
theorem reader_eq (ctx : Context) : reader ctx = agendaBy ctx (reader ctx) := by
  funext terminator s
  have hlevels : levelsLeft ctx s < ctx.settings.maxDepth + 1 :=
    Nat.lt_succ_of_le (levelsLeft_le ctx s)
  let bottom : Terminator → Read Agenda :=
    fun _ => scan (Scan.fail (.nestingTooDeep ctx.settings.maxDepth))
  calc reader ctx terminator s
      = (agendaBy ctx)^[ctx.settings.maxDepth + 1] bottom terminator s := by
        rw [reader, agenda_eq_iterate]
    _ = (agendaBy ctx)^[ctx.settings.maxDepth + 1 + 1] bottom terminator s :=
        (iterate_agendaBy bottom _).2 bottom 1 terminator s hlevels
    _ = agendaBy ctx (reader ctx) terminator s := by
        rw [Function.iterate_succ_apply', reader, agenda_eq_iterate]

theorem reader_restores {terminator : Terminator} {a : Agenda}
    (h : reader ctx terminator s = .ok a s') : s'.nesting = s.nesting := by
  exact (agenda_restores ctx _ _).nesting (Nat.lt_succ_of_le (levelsLeft_le ctx s)) h

/-! ## 3. Text of statements -/

/-- A reader that moves forward in the text of its cursor. -/
structure Onward (x : Terminator → Read Agenda) : Prop where
  reaches : ∀ {terminator s a s'}, x terminator s = .ok a s' → s.cursor.Reaches s'.cursor

theorem Onward.statement (hx : Onward x) {call : Call} {found : Statement}
    (h : statement ctx x call s = .ok found s') : s.cursor.Reaches s'.cursor := by
  obtain ⟨braced, u, hopen, h⟩ := statement_eq_ok_iff.1 h
  have hbrace := (forward_openBrace _).reaches hopen
  rcases h with ⟨_, _, _, body, t, hbody, _, _, rfl⟩ | ⟨_, _, _, rfl⟩ |
    ⟨_, values, v, hbind, _, hend⟩
  · have hinside : u.Reaches t.cursor := hx.reaches hbody
    exact hbrace.trans (hinside.trans t.cursor.reaches_advance)
  · exact hbrace
  · have hkeywords := hbrace.trans (reaches_bindKeywords hbind)
    rcases hend with ⟨_, _, rfl⟩ | ⟨_, rfl⟩
    · exact hkeywords.trans v.reaches_advance
    · exact hkeywords

/-- Behind an included text, reading goes on behind the directive. -/
theorem Onward.agendaTurn (hx : Onward x) {terminator : Terminator} {found next : Agenda}
    (h : agendaTurn ctx x terminator found s = .ok (.again next) s') :
    ∃ head u, Reading.head ctx.workspace s.cursor.pastBlanks = .ok head u ∧
      u.Reaches s'.cursor := by
  rcases agendaTurn_eq_ok_iff.1 h with ⟨_, hdone, _⟩ |
    ⟨_, _, ⟨path, here, u, a, hhead, hread, _⟩ | ⟨call, u, a, hhead, hread, _⟩⟩
  · cases hdone
  · refine ⟨_, u, hhead, ?_⟩
    obtain ⟨_, _, _, _, _, _, rfl⟩ := inclusion_eq_ok_iff.1 hread
    exact .refl u
  · exact ⟨_, u, hhead, hx.statement hread⟩

theorem Onward.turn_reaches (hx : Onward x) {terminator : Terminator} {found next : Agenda}
    (h : Reading.agendaTurn ctx x terminator found s = .ok (.again next) s') :
    s.cursor.Reaches s'.cursor := by
  obtain ⟨_, u, hhead, hu⟩ := hx.agendaTurn h
  exact s.cursor.reaches_pastBlanks.trans (((forward_head _).reaches hhead).trans hu)

theorem Onward.turn_length_lt (hx : Onward x) {terminator : Terminator} {found next : Agenda}
    (h : Reading.agendaTurn ctx x terminator found s = .ok (.again next) s') :
    s'.cursor.rest.length < s.cursor.rest.length := by
  obtain ⟨_, u, hhead, hu⟩ := hx.agendaTurn h
  have hblanks := s.cursor.reaches_pastBlanks.length_le
  have htaken := (head_takes ctx.workspace).less hhead
  have hrest := hu.length_le
  omega

theorem Onward.agendaBy (hx : Onward x) : Onward (agendaBy ctx x) := by
  refine ⟨fun {terminator s a s'} h => ?_⟩
  simp only [Reading.agendaBy, bind_eq_ok_iff, get_eq_ok_iff, and_assoc, exists_and_left,
    exists_eq_left] at h
  refine takeTurns_induction (motive := fun _ s _ s' => s.cursor.Reaches s'.cursor)
    (fun h => by simp at h) ?done ?again h
  case done =>
    intro found s a s' h
    rcases agendaTurn_eq_ok_iff.1 h with ⟨_, _, rfl⟩ |
      ⟨_, _, ⟨_, _, _, _, _, _, hagain⟩ | ⟨_, _, _, _, _, hagain⟩⟩
    · exact s.cursor.reaches_pastBlanks
    · cases hagain
    · cases hagain
  case again =>
    intro found s next u a s' h ih
    exact (hx.turn_reaches h).trans ih

theorem agenda_onward (ctx : Context) (levels : Nat) : Onward (agenda ctx levels) := by
  induction levels with
  | zero => exact Onward.agendaBy ⟨fun h => by simp at h⟩
  | succ levels ih => exact ih.agendaBy

/-- A statement takes text, its head at least. -/
theorem statement_takes {levels : Nat} {call : Call} {u : Cursor} {nesting : Nesting}
    {found : Statement} (hhead : head ctx.workspace c = .ok (.call call) u)
    (hread : statement ctx (agenda ctx levels) call ⟨u, nesting⟩ = .ok found s') :
    s'.cursor.rest.length < c.rest.length := by
  have htaken := (head_takes ctx.workspace).less hhead
  have hbody : s'.cursor.rest.length ≤ u.rest.length :=
    ((agenda_onward ctx levels).statement hread).length_le
  omega

/-! ## 4. Unrolling -/

/-- Reading the statements behind those of `found`, with the loop and the recursion unrolled `steps`
    times; what is still to be read then is left to `beyond`. -/
def unrolled (ctx : Context) (beyond : Terminator → Agenda → Read Agenda) :
    (steps : Nat) → Terminator → Agenda → Read Agenda
  | 0, terminator, found => beyond terminator found
  | steps + 1, terminator, found => do
    match ← agendaTurn ctx (fun inner => unrolled ctx beyond steps inner []) terminator found with
    | .done result => return result
    | .again next => unrolled ctx beyond steps terminator next

/-- The turns of the reader of scripts that are still to be taken. -/
def turnsLeft (ctx : Context) (terminator : Terminator) (found : Agenda) : Read Agenda := do
  takeTurns (agendaTurn ctx (reader ctx) terminator) (scan (Scan.fail .endOfText))
    (← get).cursor.rest found

theorem reader_eq_turnsLeft (terminator : Terminator) :
    reader ctx terminator = turnsLeft ctx terminator [] :=
  congrFun (reader_eq ctx) terminator

/-- What a turn leads to, when `others` takes the turns behind it. -/
def afterTurn {α β : Type} (others : α → Read β) :
    EStateM.Result Fault Progress (Turn α β) → EStateM.Result Fault Progress β
  | .ok (.done result) t => .ok result t
  | .ok (.again next) t => others next t
  | .error e t => .error e t

theorem unrolled_succ {beyond : Terminator → Agenda → Read Agenda} {steps : Nat}
    {terminator : Terminator} {found : Agenda}
    (h : agendaTurn ctx (fun inner => unrolled ctx beyond steps inner []) terminator found s =
      agendaTurn ctx (reader ctx) terminator found s) :
    unrolled ctx beyond (steps + 1) terminator found s =
      afterTurn (unrolled ctx beyond steps terminator)
        (agendaTurn ctx (reader ctx) terminator found s) := by
  rw [unrolled, ← h]
  show EStateM.bind _ _ s = _
  rw [EStateM.bind]
  cases agendaTurn ctx (fun inner => unrolled ctx beyond steps inner []) terminator found s with
  | error e t => rfl
  | ok turn t => cases turn <;> rfl

theorem turnsLeft_eq (terminator : Terminator) (found : Agenda) (s : Progress) :
    turnsLeft ctx terminator found s =
      afterTurn (turnsLeft ctx terminator) (agendaTurn ctx (reader ctx) terminator found s) := by
  have htakes : ∀ {found : Agenda} {s next u}, True →
      agendaTurn ctx (reader ctx) terminator found s = .ok (.again next) u →
      True ∧ u.cursor.rest.length < s.cursor.rest.length :=
    fun _ h => ⟨trivial, (agenda_onward ctx _).turn_length_lt h⟩
  show takeTurns _ _ s.cursor.rest found s = _
  cases hfound : agendaTurn ctx (reader ctx) terminator found s with
  | error e t => rw [takeTurns.eq_def, bind_of_error hfound, afterTurn]
  | ok turn t =>
    cases turn with
    | done result => rw [takeTurns_of_done hfound, afterTurn]
    | again next =>
      have hless := (htakes trivial hfound).2
      show _ = takeTurns _ _ t.cursor.rest next t
      cases htext : s.cursor.rest with
      | nil =>
        rw [htext] at hless
        exact absurd hless (Nat.not_lt_zero _)
      | cons ch fewer =>
        rw [htext, List.length_cons] at hless
        rw [takeTurns, bind_of_ok hfound]
        exact takeTurns_enough htakes trivial (by omega) (Nat.le_refl _)

/-- What holds of a place whenever it holds of all places with fewer levels left, and of the places
    that the turns there lead to, holds of every place. -/
theorem turns_induction (ctx : Context) {motive : Terminator → Progress → Prop}
    (h : ∀ {terminator s}, (∀ {inner u}, levelsLeft ctx u < levelsLeft ctx s → motive inner u) →
      (∀ {before next u}, agendaTurn ctx (reader ctx) terminator before s = .ok (.again next) u →
        motive terminator u) → motive terminator s)
    (terminator : Terminator) (s : Progress) : motive terminator s := by
  -- nested agendas have fewer levels left, and behind a turn there is less text left
  induction hlevels : levelsLeft ctx s using Nat.strongRecOn generalizing s terminator with
  | ind levels ihnested =>
  induction htext : s.cursor.rest.length using Nat.strongRecOn generalizing s with
  | ind text ihbehind =>
  refine h (fun {inner u} hless => ihnested _ (hlevels ▸ hless) inner u rfl) ?_
  intro before next u hturn
  have hsame : levelsLeft ctx u = levels := by
    rw [levelsLeft, (agenda_restores ctx _ _).agendaTurn hturn, ← hlevels, levelsLeft]
  have hless : u.cursor.rest.length < text := by
    rw [← htext]
    exact (agenda_onward ctx _).turn_length_lt hturn
  exact ihbehind _ hless u hsame rfl

/-- Finitely many steps decide what is read. -/
theorem exists_unrolled (s : Progress) (terminator : Terminator) (found : Agenda) :
    ∃ enough, ∀ steps, enough ≤ steps → ∀ beyond,
      unrolled ctx beyond steps terminator found s = turnsLeft ctx terminator found s := by
  induction terminator, s using turns_induction ctx generalizing found with
  | @h terminator s ihnested ihbehind =>
  obtain ⟨inside, hturn⟩ : ∃ inside, ∀ steps, inside ≤ steps → ∀ beyond,
      agendaTurn ctx (fun inner => unrolled ctx beyond steps inner []) terminator found s =
        agendaTurn ctx (reader ctx) terminator found s := by
    rcases agendaTurn_callsDeeper terminator found s with hnone | ⟨inner, u, hless, hone⟩
    · exact ⟨0, fun _ _ _ => hnone _ _⟩
    · obtain ⟨inside, hinner⟩ := @ihnested inner u hless []
      refine ⟨inside, fun steps hsteps beyond => hone _ _ ?_⟩
      rw [hinner steps hsteps beyond, reader_eq_turnsLeft]
  obtain ⟨behind, hothers⟩ : ∃ behind, ∀ steps, behind ≤ steps → ∀ beyond,
      afterTurn (unrolled ctx beyond steps terminator)
          (agendaTurn ctx (reader ctx) terminator found s) =
        afterTurn (turnsLeft ctx terminator)
          (agendaTurn ctx (reader ctx) terminator found s) := by
    cases hfound : agendaTurn ctx (reader ctx) terminator found s with
    | error e t => exact ⟨0, fun _ _ _ => rfl⟩
    | ok turn t =>
      cases turn with
      | done result => exact ⟨0, fun _ _ _ => rfl⟩
      | again next => exact ihbehind hfound next
  refine ⟨max inside behind + 1, fun steps hsteps beyond => ?_⟩
  cases steps with
  | zero => omega
  | succ steps =>
    rw [unrolled_succ (hturn steps (by omega) beyond), hothers steps (by omega) beyond,
      turnsLeft_eq]

/-! ## 5. Scripts -/

/-- A control script, when its agendas are read by `nested`. -/
def scriptBy (ctx : Context) (nested : Terminator → Read Agenda) (file source : String) :
    Read Agenda := do
  let entry := ctx.settings.entry
  set { cursor := .start file source.toList, nesting := { depth := 0, files := [file] } : Progress }
  scan Scan.skipBlanks
  match ← scan (head ctx.workspace) with
  | .inclusion _ here => throw ⟨.startsWithInclude entry, here⟩
  | .call call =>
    let outermost ← statement ctx nested call
    let name := (ctx.workspace.methods.get call.method).name
    if name ≠ entry then
      throw ⟨.wrongEntryMethod entry name, call.position⟩
    scan (endOfScript name)
    match outermost with
    | .agenda _ body => return body
    | .keywords _ _ => throw ⟨.entryWithoutAgenda name, call.position⟩

theorem script_eq (ctx : Context) (file source : String) :
    script ctx file source = scriptBy ctx (reader ctx) file source := rfl

theorem scriptBy_callsDeeper (file source : String) (s : Progress) :
    CallsDeeper ctx ctx.settings.maxDepth fun x => scriptBy ctx x file source s := by
  have hset : ∀ start : Progress, (set start : Read PUnit) s = .ok ⟨⟩ start := fun _ => rfl
  let u : Progress := ⟨(Cursor.start file source.toList).pastBlanks, ⟨0, [file]⟩⟩
  have hblanks : scan Scan.skipBlanks ⟨.start file source.toList, ⟨0, [file]⟩⟩ = .ok ⟨⟩ u :=
    scan_eq_ok_iff.2 ⟨_, Scan.skipBlanks_eq_ok_iff.2 rfl, rfl⟩
  -- nothing is read inside before the outermost statement begins
  cases hhead : scan (head ctx.workspace) u with
  | error e t =>
    refine .inl fun x y => ?_
    simp only [scriptBy, bind_of_ok (hset _), bind_of_ok hblanks, bind_of_error hhead]
  | ok first t =>
    cases first with
    | inclusion path here =>
      refine .inl fun x y => ?_
      simp only [scriptBy, bind_of_ok (hset _), bind_of_ok hblanks, bind_of_ok hhead]
    | call call =>
      have hstart : ∀ x y, statement ctx x call t = statement ctx y call t →
          scriptBy ctx x file source s = scriptBy ctx y file source s := by
        intro x y h
        simp only [scriptBy, bind_of_ok (hset _), bind_of_ok hblanks, bind_of_ok hhead]
        exact bind_congr_of_eq h
      have hlevels : levelsLeft ctx t = ctx.settings.maxDepth := by
        obtain ⟨_, -, rfl⟩ := scan_eq_ok_iff.1 hhead
        rfl
      have hstatement : CallsDeeper ctx _ _ := statement_callsDeeper call t
      rcases hstatement with hnone | ⟨terminator, v, hless, hone⟩
      · exact .inl fun x y => hstart x y (hnone x y)
      · exact .inr ⟨terminator, v, hlevels ▸ hless, fun x y h => hstart x y (hone x y h)⟩

/-- Why reading ends, and that it does. -/
structure Ends (ctx : Context) : Prop where
  -- a script is read in finitely many steps, whatever is done beyond them
  script : ∀ (file source : String) (s : Progress), ∃ steps, ∀ beyond,
    scriptBy ctx (fun inner => unrolled ctx beyond steps inner []) file source s =
      script ctx file source s
  -- no more agendas and included texts are nested than the settings allow: it does not matter what
  -- is done below them
  levels : ∀ (bottom : Terminator → Read Agenda) (file source : String) (s : Progress),
    scriptBy ctx ((agendaBy ctx)^[ctx.settings.maxDepth] bottom) file source s =
      Reading.script ctx file source s
  deeper : ∀ (terminator : Terminator) (found : Agenda) (s : Progress),
    CallsDeeper ctx (levelsLeft ctx s) fun x => agendaTurn ctx x terminator found s
  statement : ∀ {levels : Nat} {call : Call} {c u : Cursor} {nesting : Nesting} {found : Statement}
    {s : Progress}, head ctx.workspace c = .ok (.call call) u →
      statement ctx (agenda ctx levels) call ⟨u, nesting⟩ = .ok found s →
        s.cursor.rest.length < c.rest.length
  directive : ∀ {path : String} {here : Position} {c u : Cursor},
    head ctx.workspace c = .ok (.inclusion path here) u → u.rest.length < c.rest.length
  keyword : ∀ {m : Method} {bound bound' : Bindings} {c c' : Cursor},
    keywordTurn m bound c = .ok (.again bound') c' →
      ∃ keyword ∈ m.keywords, ∃ value, List.lookup keyword.name bound = none ∧
        bound' = (keyword.name, value) :: bound
  keywords : ∀ (m : Method) (stuck : Scan Bindings) (text : List Char) (c : Cursor),
    m.keywords.length ≤ text.length →
      (do Scan.skipBlanks; takeTurns (keywordTurn m) stuck text []) c = bindings m c
  strings : ListEnds Literal.string
  integers : ListEnds Literal.integer
  floats : ListEnds Literal.float

/-- Reading ends, for all methods, all variables and all texts that may be included. -/
theorem reading_ends (ctx : Context) : Ends ctx where
  script := by
    intro file source s
    rw [script_eq]
    have hscript : CallsDeeper ctx _ _ := scriptBy_callsDeeper file source s
    rcases hscript with hnone | ⟨inner, u, -, hone⟩
    · exact ⟨0, fun _ => hnone _ _⟩
    · obtain ⟨steps, henough⟩ := exists_unrolled u inner []
      refine ⟨steps, fun beyond => hone _ _ ?_⟩
      rw [henough steps (Nat.le_refl _) beyond, reader_eq_turnsLeft]
  levels := by
    intro bottom file source s
    rw [script_eq]
    apply (scriptBy_callsDeeper file source s).congr
    intro terminator u hless
    rw [reader, agenda_eq_iterate]
    exact (iterate_agendaBy bottom _).2 _ 1 terminator u hless
  deeper := agendaTurn_callsDeeper
  statement := statement_takes
  directive := (head_takes ctx.workspace).less
  keyword := keywordTurn_binds
  keywords := fun m stuck _ c htext => bindings_end m stuck htext c
  strings := listEnds (Scan.string_reads.takes Grammar.stringText_proper)
  integers := listEnds (Scan.integer_reads.takes Grammar.integerText_proper)
  floats := listEnds (Scan.float_reads.takes Grammar.floatText_proper)

end ControlScript.Reading
