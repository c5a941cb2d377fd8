import ControlScript.Proofs.Scan
import ControlScript.Reading

/-!
# Scans move forward

A scan that succeeds has passed some part of the text in front of it, and the place where it ends is
the place behind that part.  So the position of everything that is read is its place in the text
that it is read from.

A scan that fails says what is wrong with the text.  It neither opens files nor enters levels, so it
is never refused for the sake of these, and it reports a place of the text: the one where it stands,
one that it has come by, or the one behind a character that ends its line too early.  A default is
read by a cursor of its own, and the places of that cursor are never reported.
-/

namespace ControlScript

/-- A fault for the sake of a bound on nesting or of a file that is open already. -/
def Fault.Refuses (f : Fault) : Prop :=
  f.cause.kind = .nestingTooDeep ∨ f.cause.kind = .includeCycle

theorem Fault.not_refuses {f : Fault} (hdepth : f.cause.kind ≠ .nestingTooDeep)
    (hcycle : f.cause.kind ≠ .includeCycle) : ¬ f.Refuses := by
  rintro (h | h)
  · exact hdepth h
  · exact hcycle h

/-! ## 1. Places in a text -/

/-- On one line, characters are counted by the column. -/
theorem Place.afterAll_of_line {run : List Char} (hline : '\n' ∉ run) (p : Place) :
    p.afterAll run = ⟨p.line, p.column + run.length⟩ := by
  induction run generalizing p with
  | nil => rfl
  | cons c run ih =>
    rw [List.mem_cons, not_or] at hline
    rw [afterAll_cons, after, if_neg (Ne.symm hline.1), ih hline.2, List.length_cons,
      Place.mk.injEq]
    exact ⟨rfl, Nat.add_right_comm p.column 1 run.length⟩

namespace Cursor

/-- A cursor is in front of the place where another one is, in one file. -/
structure Reaches (c c' : Cursor) : Prop where
  file : c'.file = c.file
  passed : ∃ run, c.rest = run ++ c'.rest ∧ c'.place = c.place.afterAll run

variable {c c' u : Cursor} {p : Position}

@[simp] theorem Reaches.refl (c : Cursor) : c.Reaches c := ⟨rfl, [], rfl, rfl⟩

theorem Reaches.trans (h : c.Reaches u) (h' : u.Reaches c') : c.Reaches c' := by
  obtain ⟨run, hrest, hplace⟩ := h.passed
  obtain ⟨run', hrest', hplace'⟩ := h'.passed
  refine ⟨h'.file.trans h.file, run ++ run', ?_, ?_⟩
  · rw [hrest, hrest', List.append_assoc]
  · rw [hplace', hplace, Place.afterAll_append]

theorem reaches_move (c : Cursor) (n : Nat) : c.Reaches (c.move n) :=
  ⟨rfl, c.rest.take n, (List.take_append_drop n c.rest).symm, rfl⟩

theorem reaches_advance (c : Cursor) : c.Reaches c.advance := reaches_move c _

theorem reaches_past (c : Cursor) (run : List Char) : c.Reaches (c.past run) := by
  by_cases hnil : run = []
  · rw [hnil, past_nil]
    exact .refl c
  · rw [past_of_ne_nil hnil]
    exact reaches_move c _

theorem reaches_pastBlanks (c : Cursor) : c.Reaches c.pastBlanks := by
  rw [pastBlanks]
  split
  · exact .refl c
  · exact reaches_move c _

/-- A position is that of a place in the text in front of a cursor. -/
def Marks (c : Cursor) (p : Position) : Prop := ∃ u, c.Reaches u ∧ u.position = p

theorem Reaches.marks (h : c.Reaches u) : c.Marks u.position := ⟨u, h, rfl⟩

theorem Reaches.marks_of (h : c.Reaches u) (hu : u.Marks p) : c.Marks p := by
  obtain ⟨v, hv, hp⟩ := hu
  exact ⟨v, h.trans hv, hp⟩

/-- What is left of a line is in front of a cursor, character by character. -/
theorem marks_of_line {run rest : List Char} (hrest : c.rest = run ++ rest) (hline : '\n' ∉ run) :
    c.Marks ⟨c.file, c.place.line, c.place.column + run.length⟩ :=
  ⟨⟨c.file, rest, ⟨c.place.line, c.place.column + run.length⟩, false⟩,
    ⟨rfl, run, hrest, (Place.afterAll_of_line hline c.place).symm⟩, rfl⟩

theorem marks_nextColumn {ch : Char} (hhead : c.rest.head? = some ch) (hline : ch ≠ '\n') :
    c.Marks c.position.nextColumn := by
  obtain ⟨rest, hrest⟩ := List.head?_eq_some_iff.1 hhead
  have hspelled : c.rest = [ch] ++ rest := hrest
  exact marks_of_line hspelled (by simpa using Ne.symm hline)

/-- A fault for what is written in the text in front of a cursor, which is reported there. -/
structure Reports (c : Cursor) (f : Fault) : Prop where
  plain : ¬ f.Refuses
  marked : c.Marks f.position

theorem Marks.reports {cause : Cause} (h : c.Marks p) (hdepth : cause.kind ≠ .nestingTooDeep)
    (hcycle : cause.kind ≠ .includeCycle) : c.Reports ⟨cause, p⟩ :=
  ⟨Fault.not_refuses hdepth hcycle, h⟩

/-- A cursor is somewhere in a text that has a name. -/
def Within (text : IncludedText) (c : Cursor) : Prop :=
  Reaches ⟨text.name, text.text.toList, {}, false⟩ c

theorem within_start (text : IncludedText) : (start text.name text.text.toList).Within text := by
  obtain ⟨hfile, run, hrest, hplace⟩ :=
    reaches_move ⟨text.name, text.text.toList, {}, false⟩ (feeds text.text.toList)
  exact ⟨hfile, run, hrest, hplace⟩

end Cursor

/-! ## 2. Scans that move forward -/

namespace Scan

/-- How a scan may end that begins in the text in front of a cursor: in that text, or with a fault
    for what is written there. -/
def Ends {α : Type} (o : Cursor) : EStateM.Result Fault Cursor α → Prop
  | .ok _ c' => o.Reaches c'
  | .error f _ => o.Reports f

/-- A scan of the text in front of a cursor that ends there, or fails because of what is written
    there. -/
structure Forward {α : Type} (o : Cursor) (x : Scan α) : Prop where
  ends : ∀ {c}, o.Reaches c → Ends o (x c)

section Steps

variable {α β σ : Type} {o c c' : Cursor} {x : Scan α} {f : α → Scan β}

theorem Forward.reaches {a : α} (hx : Forward c x) (h : x c = .ok a c') : c.Reaches c' := by
  have hends := hx.ends (.refl c)
  rwa [h] at hends

theorem Forward.reports {fault : Fault} (hx : Forward o x) (hc : o.Reaches c)
    (h : x c = .error fault c') : o.Reports fault := by
  have hends := hx.ends hc
  rwa [h] at hends

theorem Forward.not_refuses {fault : Fault} (hx : Forward c x) (h : x c = .error fault c') :
    ¬ fault.Refuses := (hx.reports (.refl c) h).plain

theorem forward_pure {a : α} : Forward o (pure a) := ⟨id⟩

theorem Forward.bind (hx : Forward o x) (hf : ∀ a, Forward o (f a)) : Forward o (x >>= f) := by
  refine ⟨fun {c} hc => ?_⟩
  have hends := hx.ends hc
  cases hxu : x c with
  | error fault u =>
    rw [hxu] at hends
    rw [bind_of_error hxu]
    exact hends
  | ok a u =>
    rw [hxu] at hends
    rw [bind_of_ok hxu]
    exact (hf a).ends hends

theorem Forward.map {g : α → β} (hx : Forward o x) : Forward o (g <$> x) := by
  rw [map_eq_pure_bind]
  exact hx.bind fun _ => forward_pure

theorem forward_throw {fault : Fault} (h : o.Reports fault) : Forward o (throw fault : Scan α) :=
  ⟨fun _ => h⟩

theorem forward_fail {cause : Cause} (hdepth : cause.kind ≠ .nestingTooDeep)
    (hcycle : cause.kind ≠ .includeCycle) : Forward o (fail cause : Scan α) :=
  ⟨fun hc => hc.marks.reports hdepth hcycle⟩

theorem forward_ofExcept {found : Except Fault α}
    (h : ∀ fault, found = .error fault → o.Reports fault) :
    Forward o (ofExcept found : Scan α) := by
  cases found with
  | ok a => exact forward_pure
  | error fault => exact forward_throw (h fault rfl)

/-- A position that is kept is reported later as a place that has been come by. -/
theorem forward_position {g : Position → Scan β} (hg : ∀ here, o.Marks here → Forward o (g here)) :
    Forward o (position >>= g) := ⟨fun {c} hc => (hg c.position hc.marks).ends hc⟩

theorem Forward.ite {p : Prop} [Decidable p] {y : Scan α} (hx : Forward o x) (hy : Forward o y) :
    Forward o (if p then x else y) := by
  split
  · exact hx
  · exact hy

/-- What follows a check moves forward, if the check is passed. -/
theorem Forward.check {p : Prop} [Decidable p] {fault : Fault} {y : Scan β}
    (h : o.Reports fault) (hy : Forward o y) :
    Forward o (if p then throw fault >>= f else y) := .ite ⟨fun _ => h⟩ hy

theorem Forward.unless {p : Prop} [Decidable p] {expected : Expected} {found : Char} {y : Scan β}
    (hy : Forward o y) : Forward o (if p then fail (.unexpected expected found) >>= f else y) :=
  .ite ⟨fun hc => hc.marks.reports nofun nofun⟩ hy

theorem forward_takeTurns {turn : σ → Scan (Turn σ β)} {stuck : Scan β} {text : List Char}
    {state : σ} (hstuck : Forward o stuck) (hturn : ∀ s, Forward o (turn s)) :
    Forward o (takeTurns turn stuck text state) := by
  induction text generalizing state with
  | nil =>
    rw [takeTurns]
    refine (hturn state).bind fun found => ?_
    cases found with
    | done result => exact forward_pure
    | again next => exact hstuck
  | cons c fewer ih =>
    rw [takeTurns]
    refine (hturn state).bind fun found => ?_
    cases found with
    | done result => exact forward_pure
    | again next => exact ih

/-- What is read behind a character of the line may report the place behind the character. -/
theorem ends_behind {g : Position → Bool → Scan β} {ch : Char} (hc : o.Reaches c)
    (hhead : c.rest.head? = some ch) (hline : ch ≠ '\n')
    (hg : ∀ here broken, o.Marks here.nextColumn → Forward o (g here broken)) :
    Ends o ((position >>= fun here => advance >>= fun _ => lineBroken >>= g here) c) :=
  (hg c.position c.advance.lineBreak (hc.marks_of (Cursor.marks_nextColumn hhead hline))).ends
    (hc.trans c.reaches_advance)

end Steps

/-! ## 3. Characters, blanks and names -/

section Characters

variable {o : Cursor}

theorem forward_get : Forward o get := ⟨id⟩

theorem forward_peek : Forward o peek := ⟨id⟩

theorem forward_lineBroken : Forward o lineBroken := ⟨id⟩

theorem forward_advance : Forward o advance := ⟨fun {c} hc => hc.trans c.reaches_advance⟩

theorem forward_current : Forward o current := by
  unfold current
  refine forward_peek.bind fun found => ?_
  split
  · exact forward_pure
  · exact forward_fail nofun nofun

theorem forward_expect (ch : Char) : Forward o (expect ch) := by
  unfold expect
  exact forward_current.bind fun found => .unless forward_advance

theorem forward_takeWhile (p : Char → Bool) : Forward o (Scan.takeWhile p) := by
  refine ⟨fun {c} hc => ?_⟩
  have hrun : Scan.takeWhile p c = .ok _ (c.past _) := takeWhile_eq_ok_iff.2 ⟨rfl, rfl⟩
  rw [hrun]
  exact hc.trans (c.reaches_past _)

theorem forward_skipBlanks : Forward o skipBlanks := by
  refine ⟨fun {c} hc => ?_⟩
  have hblanks : skipBlanks c = .ok ⟨⟩ c.pastBlanks := skipBlanks_eq_ok_iff.2 rfl
  rw [hblanks]
  exact hc.trans c.reaches_pastBlanks

theorem forward_requiredName (expected : Expected) : Forward o (requiredName expected) := by
  unfold requiredName name
  refine ((forward_takeWhile _).bind fun _ => forward_pure).bind fun found => ?_
  refine .ite ?_ forward_pure
  exact forward_current.bind fun _ => ⟨fun hc => hc.marks.reports nofun nofun⟩

theorem Forward.repeat {σ β : Type} {turn : σ → Scan (Turn σ β)} {state : σ}
    (hturn : ∀ s, Forward o (turn s)) : Forward o (Scan.repeat turn state) := by
  unfold Scan.repeat
  exact forward_get.bind fun _ => forward_takeTurns (forward_fail nofun nofun) hturn

end Characters

end Scan

/-! ## 4. Literals -/

namespace Literal

open Scan

variable {o : Cursor}

theorem forward_string : Forward o string := by
  refine ⟨fun {c} hc => ?_⟩
  rw [string, bind_of_ok (position_eq_ok_iff.2 ⟨rfl, rfl⟩)]
  cases hopen : expect '"' c with
  | error f c' =>
    rw [bind_of_error hopen]
    exact (forward_expect '"').reports hc hopen
  | ok _ c' =>
    obtain ⟨hhead, rfl⟩ := expect_eq_ok_iff.1 hopen
    obtain ⟨text, htext⟩ := List.head?_eq_some_iff.1 hhead
    have hopened := hc.trans c.reaches_advance
    rw [bind_of_ok hopen, bind_of_ok (lineBroken_eq_ok_iff.2 ⟨rfl, rfl⟩)]
    by_cases hbreak : c.advance.lineBreak = true
    · rw [if_pos hbreak]
      exact (hc.marks_of (Cursor.marks_nextColumn hhead (by decide))).reports nofun nofun
    rw [if_neg hbreak]
    dsimp only
    rw [bind_of_ok (takeWhile_eq_ok_iff.2 ⟨rfl, rfl⟩),
      bind_of_ok (lineBroken_eq_ok_iff.2 ⟨rfl, rfl⟩)]
    refine (Forward.check ?_ ((forward_expect _).bind fun _ => forward_pure)).ends
      (hopened.trans (c.advance.reaches_past _))
    -- the body is on the line of the opening quote, so its end is as many columns further on
    have hrun := Grammar.run_takeWhile (fun ch => ch != '"' && ch != '\n') c.advance.rest
    have hline : '\n' ∉ '"' :: c.advance.rest.takeWhile (fun ch => ch != '"' && ch != '\n') := by
      intro hmem
      rcases List.mem_cons.1 hmem with heq | hmem
      · exact absurd heq (by decide)
      · simpa using hrun.all _ hmem
    have hspelled := hrun.spelled
    rw [(Cursor.behind_advance htext (by decide)).rest_of_not hbreak] at hspelled hline ⊢
    have hmarks := Cursor.marks_of_line (htext.trans (congrArg ('"' :: ·) hspelled)) hline
    rw [List.length_cons, Nat.add_comm _ 1, ← Nat.add_assoc] at hmarks
    exact (hc.marks_of hmarks).reports nofun nofun

theorem forward_sign? : Forward o sign? := by
  refine ⟨fun {c} hc => ?_⟩
  rw [sign?, bind_of_ok (peek_eq_ok_iff.2 ⟨rfl, rfl⟩)]
  cases hsign : c.rest.head?.bind Sign.ofChar? with
  | none => exact hc
  | some sign =>
    obtain ⟨ch, hhead, hch⟩ := Option.bind_eq_some_iff.1 hsign
    obtain rfl := Sign.ofChar?_eq_some_iff.1 hch
    exact ends_behind hc hhead (by cases sign <;> decide) fun _ _ hnext =>
      .check (hnext.reports nofun nofun) forward_pure

theorem forward_digits : Forward o digits := forward_takeWhile _

theorem forward_wholeNumeral : Forward o wholeNumeral := by
  unfold wholeNumeral
  refine forward_sign?.bind fun _ => forward_current.bind fun _ => .unless ?_
  exact forward_digits.bind fun _ => forward_pure

theorem forward_fraction? (whole : List Char) : Forward o (fraction? whole) := by
  refine ⟨fun {c} hc => ?_⟩
  rw [fraction?, bind_of_ok (peek_eq_ok_iff.2 ⟨rfl, rfl⟩)]
  by_cases hpoint : c.rest.head? = some '.'
  · rw [if_neg (not_not_intro hpoint)]
    exact ends_behind hc hpoint (by decide) fun _ _ hnext =>
      .ite (.check (hnext.reports nofun nofun) forward_pure)
        (forward_digits.bind fun _ => forward_pure)
  · rw [if_pos hpoint]
    exact hc

theorem forward_exponent? : Forward o exponent? := by
  refine ⟨fun {c} hc => ?_⟩
  rw [exponent?, bind_of_ok (peek_eq_ok_iff.2 ⟨rfl, rfl⟩)]
  cases hhead : c.rest.head? with
  | none => exact hc
  | some mark =>
    dsimp only
    by_cases hmark : mark ≠ 'e' ∧ mark ≠ 'E'
    · rw [if_pos hmark]
      exact hc
    · rw [if_neg hmark]
      have hline : mark ≠ '\n' := by
        rintro rfl
        exact hmark ⟨by decide, by decide⟩
      exact ends_behind hc hhead hline fun _ _ hnext =>
        .check (hnext.reports nofun nofun) (forward_wholeNumeral.bind fun _ => forward_pure)

theorem forward_decimalNumeral : Forward o decimalNumeral := by
  unfold decimalNumeral
  refine forward_position fun start hstart => forward_sign?.bind fun _ => forward_digits.bind
    fun whole => forward_lineBroken.bind fun _ => .ite forward_pure ?_
  refine (forward_fraction? whole).bind fun _ => forward_lineBroken.bind
    fun _ => .ite forward_pure (.check (hstart.reports nofun nofun) ?_)
  exact forward_exponent?.bind fun _ => forward_pure

theorem forward_integer : Forward o integer := by
  unfold integer
  refine forward_position fun start hstart => forward_wholeNumeral.bind fun numeral => ?_
  split
  · exact forward_pure
  · exact forward_throw (hstart.reports nofun nofun)

theorem forward_float : Forward o float := by
  unfold float
  refine forward_position fun start hstart => forward_decimalNumeral.bind fun numeral => ?_
  split
  · exact forward_pure
  · exact forward_throw (hstart.reports nofun nofun)

theorem forward_list {α : Type} {item : Scan α} (hitem : Forward o item) :
    Forward o (list item) := by
  unfold list
  refine (forward_expect _).bind fun _ => forward_skipBlanks.bind fun _ => ?_
  refine (Forward.repeat fun found => ?_).bind fun _ => forward_advance.bind fun _ => forward_pure
  have hnext : Forward o (do
      let next ← item
      skipBlanks
      return Turn.again (β := List α) (next :: found)) :=
    hitem.bind fun _ => forward_skipBlanks.bind fun _ => forward_pure
  refine forward_current.bind fun _ => .ite forward_pure (.ite ?_ hnext)
  exact (forward_expect _).bind fun _ => forward_skipBlanks.bind fun _ => hnext

theorem forward_value (kind : ValueKind) : Forward o (value kind) := by
  cases kind with
  | string => exact forward_string.map
  | integer => exact forward_integer.map
  | float => exact forward_float.map
  | stringList => exact (forward_list forward_string).map
  | integerList => exact (forward_list forward_integer).map
  | floatList => exact (forward_list forward_float).map

end Literal

/-! ## 5. Variables and keywords -/

namespace Reading

open Scan

variable {o : Cursor}

theorem forward_registeredVariable (vars : VariableRegistry) :
    Forward o (registeredVariable vars) := by
  unfold registeredVariable
  refine forward_position fun here hhere => (forward_requiredName _).bind fun name => ?_
  split
  · exact forward_pure
  · exact forward_throw (hhere.reports nofun nofun)

theorem forward_specialize {methods : MethodRegistry} {base : MethodId} {group : Group}
    {here : Position} (hhere : o.Marks here) : Forward o (specialize methods base group here) := by
  unfold specialize
  split
  · exact forward_pure
  · exact forward_throw (hhere.reports nofun nofun)

theorem forward_checkSlot {method : Method} {index : Nat} {var : Variable} {here : Position}
    (hhere : o.Marks here) : Forward o (checkSlot method index var here) := by
  unfold checkSlot
  split
  · exact .ite forward_pure (forward_throw (hhere.reports nofun nofun))
  · exact forward_pure

theorem forward_bindSlots (w : Workspace) (base : MethodId) (index : Nat) (slots : List Slot)
    (known : Option MethodId) : Forward o (bindSlots w base index slots known) := by
  induction slots generalizing index known with
  | nil => exact forward_pure
  | cons slot slots ih =>
    unfold bindSlots
    -- what follows the comma is the same with and without one
    refine (fun hslot => .ite ((forward_expect _).bind fun _ => forward_skipBlanks.bind
      fun _ => hslot) hslot) ?_
    refine forward_position fun here hhere => (forward_registeredVariable _).bind fun id => ?_
    cases known with
    | some method =>
      refine forward_pure.bind fun _ => (forward_checkSlot hhere).bind fun _ => ?_
      exact forward_skipBlanks.bind fun _ => (ih _ _).bind fun _ => forward_pure
    | none =>
      refine (forward_specialize hhere).bind fun _ => (forward_checkSlot hhere).bind fun _ => ?_
      exact forward_skipBlanks.bind fun _ => (ih _ _).bind fun _ => forward_pure

theorem forward_bindVariables (w : Workspace) (base : MethodId) :
    Forward o (bindVariables w base) := by
  unfold bindVariables
  refine .ite ?_ ?_
  · refine forward_peek.bind fun _ => .ite ?_ forward_pure
    exact forward_advance.bind fun _ => forward_skipBlanks.bind fun _ => (forward_expect _).bind
      fun _ => forward_pure
  · refine (forward_expect _).bind fun _ => forward_skipBlanks.bind fun _ => ?_
    exact (forward_bindSlots _ _ _ _ _).bind fun _ => (forward_expect _).bind fun _ => forward_pure

theorem forward_checkUnset {bound : Bindings} {keyword : Keyword} {here : Position}
    (hhere : o.Marks here) : Forward o (checkUnset bound keyword here) := by
  unfold checkUnset
  exact .ite (forward_throw (hhere.reports nofun nofun)) forward_pure

theorem forward_nextKeyword (method : Method) (bound : Bindings) :
    Forward o (nextKeyword method bound) := by
  unfold nextKeyword
  refine forward_position fun here hhere => Forward.bind ?_ fun found => ?_
  · unfold unnamed?
    split
    · exact forward_current.bind fun _ => forward_pure
    · exact forward_pure
  · split
    · exact (forward_checkUnset hhere).bind fun _ => forward_pure
    · refine (forward_requiredName _).bind fun name => ?_
      split
      · exact forward_throw (hhere.reports nofun nofun)
      · exact (forward_checkUnset hhere).bind fun _ => forward_skipBlanks.bind fun _ =>
          (forward_expect _).bind fun _ => forward_skipBlanks.bind fun _ => forward_pure

theorem forward_bindings (method : Method) : Forward o (bindings method) := by
  unfold bindings
  refine forward_skipBlanks.bind fun _ => .repeat fun bound => ?_
  refine forward_current.bind fun _ => .ite forward_pure ?_
  refine (forward_nextKeyword _ _).bind fun keyword => (Literal.forward_value _).bind fun value =>
    forward_skipBlanks.bind fun _ => forward_peek.bind fun _ => .ite ?_ forward_pure
  exact forward_advance.bind fun _ => forward_skipBlanks.bind fun _ => forward_pure

/-- The first item that fails decides how all of them fail. -/
theorem split_of_mapM_eq_error {α β ε : Type} {f : α → Except ε β} {items : List α} {e : ε}
    (h : items.mapM f = .error e) : ∃ before a behind, items = before ++ a :: behind ∧
      (∀ b ∈ before, ∃ v, f b = .ok v) ∧ f a = .error e := by
  induction items with
  | nil => cases h
  | cons a items ih =>
    rw [List.mapM_cons] at h
    cases ha : f a with
    | error e' =>
      rw [ha] at h
      obtain rfl : e' = e := Except.error.inj h
      exact ⟨[], a, items, rfl, List.forall_mem_nil _, ha⟩
    | ok b =>
      cases hitems : items.mapM f with
      | ok bs =>
        rw [ha, hitems] at h
        cases h
      | error e' =>
        rw [ha, hitems] at h
        obtain rfl : e' = e := Except.error.inj h
        obtain ⟨before, a', behind, rfl, hbefore, ha'⟩ := ih hitems
        exact ⟨a :: before, a', behind, rfl, List.forall_mem_cons.2 ⟨⟨b, ha⟩, hbefore⟩, ha'⟩

/-- A keyword that is left out is reported for its default: there is none, or it is no literal, and
    whatever is wrong with it is reported as that. -/
def LacksDefault (method : Method) (keyword : Keyword) (cause : Cause) : Prop :=
  match keyword.default with
  | none => cause = .keywordNotSet keyword.name method.name
  | some literal =>
      ∃ inner, cause = .badDefault literal keyword.name method.name keyword.kind inner

theorem LacksDefault.kind_eq {method : Method} {keyword : Keyword} {cause : Cause}
    (h : LacksDefault method keyword cause) : cause.kind = .malformed := by
  rw [LacksDefault] at h
  split at h
  · rw [h]
    rfl
  · obtain ⟨inner, h⟩ := h
    rw [h]
    rfl

/-- A default that cannot be used is reported at the statement, not at a place in the default. -/
theorem defaultValue_error {method : Method} {keyword : Keyword} {here : Position} {f : Fault}
    (h : defaultValue method keyword here = .error f) :
    f.position = here ∧ LacksDefault method keyword f.cause := by
  cases hdefault : keyword.default with
  | none =>
    rw [defaultValue, hdefault] at h
    obtain rfl := Except.error.inj h
    rw [LacksDefault, hdefault]
    exact ⟨rfl, rfl⟩
  | some literal =>
    rw [defaultValue, hdefault] at h
    dsimp only at h
    split at h
    · cases h
    · obtain rfl := Except.error.inj h
      rw [LacksDefault, hdefault]
      exact ⟨rfl, _, rfl⟩

theorem complete_error {method : Method} {bound : Bindings} {here : Position} {f : Fault}
    (h : complete method bound here = .error f) : f.position = here ∧
      ∃ keyword, LacksDefault method keyword f.cause := by
  rw [complete] at h
  obtain ⟨_, keyword, _, -, -, hkeyword⟩ := split_of_mapM_eq_error h
  split at hkeyword
  · cases hkeyword
  · obtain ⟨hposition, hcause⟩ := defaultValue_error hkeyword
    exact ⟨hposition, keyword, hcause⟩

theorem complete_not_refuses {method : Method} {bound : Bindings} {here : Position} {f : Fault}
    (h : complete method bound here = .error f) : ¬ f.Refuses := by
  obtain ⟨-, keyword, hcause⟩ := complete_error h
  exact Fault.not_refuses (by rw [hcause.kind_eq]; nofun) (by rw [hcause.kind_eq]; nofun)

theorem bindKeywords_eq (method : Method) (braced : Bool) (here : Position) :
    bindKeywords method braced here = (if braced then bindings method else pure []) >>=
      fun bound => ofExcept (complete method bound here) := by
  cases braced with
  | false => rfl
  | true => rfl

theorem forward_written (method : Method) (braced : Bool) :
    Forward o (if braced then bindings method else pure []) :=
  .ite (forward_bindings method) forward_pure

/-- Whatever is wrong with a default, the statement is reported that leaves its keyword out. -/
theorem forward_bindKeywords (method : Method) (braced : Bool) {here : Position}
    (hhere : o.Marks here) : Forward o (bindKeywords method braced here) := by
  rw [bindKeywords_eq]
  refine (forward_written method braced).bind fun bound => forward_ofExcept fun fault hfault =>
    ⟨complete_not_refuses hfault, ?_⟩
  rw [(complete_error hfault).1]
  exact hhere

section Elsewhere

variable {c c' : Cursor} {method : Method} {braced : Bool} {here : Position}

/-! Where the statement stands does not matter for where its keywords end. -/

theorem reaches_bindKeywords {values : List Value}
    (h : bindKeywords method braced here c = .ok values c') : c.Reaches c' := by
  rw [bindKeywords_eq] at h
  obtain ⟨_, _, hwritten, hvalues⟩ := bind_eq_ok_iff.1 h
  obtain ⟨-, rfl⟩ := ofExcept_eq_ok_iff.1 hvalues
  exact (forward_written method braced).reaches hwritten

theorem bindKeywords_not_refuses {f : Fault}
    (h : bindKeywords method braced here c = .error f c') : ¬ f.Refuses := by
  rw [bindKeywords_eq] at h
  rcases bind_eq_error_iff.1 h with hwritten | ⟨_, _, -, hvalues⟩
  · exact (forward_written method braced).not_refuses hwritten
  · exact complete_not_refuses (ofExcept_eq_error_iff.1 hvalues).1

end Elsewhere

/-! ## 6. Heads, braces and ends -/

theorem forward_head (w : Workspace) : Forward o (head w) := by
  unfold head
  refine forward_position fun here hhere => (forward_requiredName _).bind fun name => .ite ?_ ?_
  · exact forward_skipBlanks.bind fun _ => Literal.forward_string.bind fun _ => forward_pure
  · split
    · exact forward_throw (hhere.reports nofun nofun)
    · exact forward_skipBlanks.bind fun _ => (forward_bindVariables _ _).bind fun _ => forward_pure

theorem forward_openBrace (method : Method) : Forward o (openBrace method) := by
  unfold openBrace
  refine forward_skipBlanks.bind fun _ => forward_peek.bind fun _ => .ite ?_ forward_pure
  exact (forward_expect _).bind fun _ => forward_pure

theorem forward_atTerminator (terminator : Terminator) : Forward o (atTerminator terminator) := by
  cases terminator with
  | brace => exact forward_current.bind fun _ => forward_pure
  | endOfText => exact forward_get.bind fun _ => forward_pure

theorem forward_endOfScript (entry : String) : Forward o (endOfScript entry) := by
  unfold endOfScript
  refine forward_skipBlanks.bind fun _ => forward_peek.bind fun found => ?_
  split
  · exact forward_pure
  · exact forward_fail nofun nofun

end Reading

end ControlScript
