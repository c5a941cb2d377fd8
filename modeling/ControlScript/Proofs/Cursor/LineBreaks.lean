import ControlScript.Primitive
import ControlScript.Proofs.Scan

/-!
# Line breaks of earlier moves

A cursor remembers whether its last move passed a line feed, and scans ask for that.  They only ask
behind a move of their own: what they find, where they end and how they fail does not depend on what
a cursor remembers from before.
-/

namespace ControlScript

/-- Two cursors at one place of one text, which may remember different moves. -/
structure Cursor.Coincides (c c' : Cursor) : Prop where
  file : c.file = c'.file
  rest : c.rest = c'.rest
  place : c.place = c'.place

namespace Cursor.Coincides

variable {c c' : Cursor}

theorem refl (c : Cursor) : c.Coincides c := ⟨rfl, rfl, rfl⟩

theorem position_eq (h : c.Coincides c') : c.position = c'.position := by
  rw [position, position, h.file, h.place]

/-- A move forgets the moves before it. -/
theorem move_eq (h : c.Coincides c') (n : Nat) : c.move n = c'.move n := by
  rw [move, move, h.file, h.rest, h.place]

theorem advanceBy_eq (h : c.Coincides c') (n : Nat) : c.advanceBy n = c'.advanceBy n := by
  rw [advanceBy, advanceBy, h.rest, h.move_eq]

theorem clearLineBreak_eq (h : c.Coincides c') : c.clearLineBreak = c'.clearLineBreak := by
  rw [clearLineBreak, clearLineBreak, h.file, h.rest, h.place]

end Cursor.Coincides

namespace Scan

/-! ## 1. Scans that do not know about earlier moves -/

/-- Two scans end alike: with the same finding or the same fault, and at one place. -/
inductive Alike {α : Type} :
    EStateM.Result Fault Cursor α → EStateM.Result Fault Cursor α → Prop where
  | ok {a : α} {u u' : Cursor} : u.Coincides u' → Alike (.ok a u) (.ok a u')
  | error {fault : Fault} {u u' : Cursor} :
      u.Coincides u' → Alike (.error fault u) (.error fault u')

/-- How a scan ends for two cursors: in the same way, or it leaves each of them as it is and finds
    the same, which is something that it may find without a move, or fails in the same way. -/
inductive Told {α : Type} (stays : α → Prop) (c c' : Cursor) :
    EStateM.Result Fault Cursor α → EStateM.Result Fault Cursor α → Prop where
  | moved {r : EStateM.Result Fault Cursor α} : Told stays c c' r r
  | found {a : α} : stays a → Told stays c c' (.ok a c) (.ok a c')
  | failed {fault : Fault} : Told stays c c' (.error fault c) (.error fault c')

theorem Told.alike {α : Type} {stays : α → Prop} {c c' : Cursor}
    {r r' : EStateM.Result Fault Cursor α} (h : Told stays c c' r r') (hc : c.Coincides c') :
    Alike r r' := by
  cases h with
  | moved =>
    cases r with
    | ok a u => exact .ok (.refl u)
    | error fault u => exact .error (.refl u)
  | found _ => exact .ok hc
  | failed => exact .error hc

/-- A scan that does not know which moves led to where it begins.  What it finds without a move of
    its own has the property `stays`. -/
structure Unaware {α : Type} (stays : α → Prop) (x : Scan α) : Prop where
  told : ∀ {c c' : Cursor}, c.Coincides c' → Told stays c c' (x c) (x c')

/-- Anything, which may be found without a move. -/
def Anything {α : Type} : α → Prop := fun _ => True

/-- Nothing is found without a move. -/
def Nothing {α : Type} : α → Prop := fun _ => False

section Steps

variable {α β : Type} {stays : α → Prop} {stays' : β → Prop} {x y : Scan α}
  {f : α → Scan β}

/-- What follows a move does not know either; it matters only what follows when there was none. -/
theorem Unaware.bind (hx : Unaware stays x) (hf : ∀ a, stays a → Unaware stays' (f a)) :
    Unaware stays' (x >>= f) := by
  refine ⟨fun {c c'} h => ?_⟩
  have htold := hx.told h
  generalize hr : x c = r at htold
  generalize hr' : x c' = r' at htold
  cases htold with
  | moved =>
    -- From one cursor on there is one run.
    have hsame : (x >>= f) c = (x >>= f) c' := by
      show EStateM.bind x f c = EStateM.bind x f c'
      rw [EStateM.bind, EStateM.bind, hr, hr']
    rw [hsame]
    exact .moved
  | found ha =>
    rw [bind_of_ok hr, bind_of_ok hr']
    exact (hf _ ha).told h
  | failed =>
    rw [bind_of_error hr, bind_of_error hr']
    exact .failed

/-- Behind a scan that finds nothing without a move, anything may follow. -/
theorem Unaware.andThen (hx : Unaware Nothing x) (f : α → Scan β) : Unaware stays' (x >>= f) :=
  hx.bind fun _ h => h.elim

theorem Unaware.anything (hx : Unaware stays x) : Unaware Anything x := by
  refine ⟨fun {c c'} h => ?_⟩
  have htold := hx.told h
  generalize x c = r at htold
  generalize x c' = r' at htold
  cases htold with
  | moved => exact .moved
  | found _ => exact .found trivial
  | failed => exact .failed

theorem unaware_pure {a : α} (ha : stays a) : Unaware stays (pure a) := ⟨fun _ => .found ha⟩

theorem unaware_throw {fault : Fault} : Unaware stays (throw fault : Scan α) :=
  ⟨fun _ => .failed⟩

theorem unaware_fail {cause : Cause} : Unaware stays (fail cause : Scan α) := by
  refine ⟨fun {c c'} h => ?_⟩
  have hfail : ∀ u, (fail cause : Scan α) u = .error ⟨cause, u.position⟩ u := fun _ => rfl
  rw [hfail, hfail, h.position_eq]
  exact .failed

theorem Unaware.map {g : α → β} (hx : Unaware stays x) : Unaware Anything (g <$> x) := by
  rw [map_eq_pure_bind]
  exact hx.bind fun _ _ => unaware_pure trivial

theorem Unaware.ite {p : Prop} [Decidable p] (hx : Unaware stays x) (hy : Unaware stays y) :
    Unaware stays (if p then x else y) := by
  split
  · exact hx
  · exact hy

/-- Whether a move passed a line feed may be looked up, if it is not used. -/
theorem Unaware.lineBroken (hx : Unaware stays x) :
    Unaware stays (Scan.lineBroken >>= fun _ => x) := ⟨fun h => hx.told h⟩

end Steps

/-! ## 2. Characters, blanks and names -/

theorem unaware_peek : Unaware Anything peek := by
  refine ⟨fun {c c'} h => ?_⟩
  have hpeek : ∀ u, peek u = .ok u.rest.head? u := fun _ => rfl
  rw [hpeek, hpeek, h.rest]
  exact .found trivial

theorem unaware_position : Unaware Anything position := by
  refine ⟨fun {c c'} h => ?_⟩
  have hposition : ∀ u, position u = .ok u.position u := fun _ => rfl
  rw [hposition, hposition, h.position_eq]
  exact .found trivial

theorem unaware_current : Unaware Anything current := by
  unfold current
  refine unaware_peek.bind fun found _ => ?_
  split
  · exact unaware_pure trivial
  · exact unaware_fail

/-- A change that depends on the place alone is a move. -/
theorem unaware_modify {f : Cursor → Cursor}
    (hf : ∀ {c c' : Cursor}, c.Coincides c' → f c = f c') :
    Unaware Nothing (modify f : Scan Unit) := by
  refine ⟨fun {c c'} h => ?_⟩
  have hmodify : ∀ u, (modify f : Scan Unit) u = .ok ⟨⟩ (f u) := fun _ => rfl
  rw [hmodify, hmodify, hf h]
  exact .moved

theorem unaware_advance : Unaware Nothing advance := unaware_modify fun h => h.advanceBy_eq 1

theorem unaware_expect (ch : Char) : Unaware Nothing (expect ch) := by
  unfold expect
  exact unaware_current.bind fun _ _ => .ite (unaware_fail.andThen _) unaware_advance

/-- A run of characters is moved over unless it is empty. -/
theorem unaware_takeWhile (p : Char → Bool) : Unaware (· = []) (Scan.takeWhile p) := by
  refine ⟨fun {c c'} h => ?_⟩
  have htake : ∀ u, Scan.takeWhile p u = .ok (u.rest.takeWhile p) (u.past (u.rest.takeWhile p)) :=
    fun _ => takeWhile_eq_ok_iff.2 ⟨rfl, rfl⟩
  rw [htake, htake, h.rest]
  by_cases hnil : c'.rest.takeWhile p = []
  · rw [hnil]
    exact .found rfl
  · rw [Cursor.past_of_ne_nil hnil, Cursor.past_of_ne_nil hnil, h.advanceBy_eq]
    exact .moved

theorem unaware_skipBlanks : Unaware Anything skipBlanks := by
  refine ⟨fun {c c'} h => ?_⟩
  have hskip : ∀ u, skipBlanks u = .ok ⟨⟩ u.pastBlanks := fun _ => skipBlanks_eq_ok_iff.2 rfl
  rw [hskip, hskip, Cursor.pastBlanks, Cursor.pastBlanks, h.rest]
  split
  · exact .found trivial
  · rw [h.move_eq]
    exact .moved

theorem unaware_name : Unaware Anything name := by
  unfold name
  exact (unaware_takeWhile _).bind fun _ _ => unaware_pure trivial

end Scan

/-! ## 3. Literals -/

namespace Literal

open Scan

theorem unaware_string : Unaware Nothing string := by
  unfold string
  exact unaware_position.bind fun _ _ => (unaware_expect _).andThen _

theorem unaware_sign? : Unaware (· = none) sign? := by
  unfold sign?
  refine unaware_peek.bind fun found _ => ?_
  split
  · exact unaware_pure rfl
  · exact unaware_position.bind fun _ _ => unaware_advance.andThen _

theorem unaware_wholeNumeral : Unaware Anything wholeNumeral := by
  unfold wholeNumeral
  refine unaware_sign?.bind fun _ _ => unaware_current.bind fun _ _ => ?_
  refine .ite (unaware_fail.andThen _) ?_
  exact (unaware_takeWhile _).bind fun _ _ => unaware_pure trivial

theorem unaware_fraction? (whole : List Char) : Unaware (· = none) (fraction? whole) := by
  unfold fraction?
  refine unaware_peek.bind fun _ _ => .ite (unaware_pure rfl) ?_
  exact unaware_position.bind fun _ _ => unaware_advance.andThen _

theorem unaware_exponent? : Unaware (· = none) exponent? := by
  unfold exponent?
  refine unaware_peek.bind fun found _ => ?_
  split
  · exact unaware_pure rfl
  · refine .ite (unaware_pure rfl) ?_
    exact unaware_position.bind fun _ _ => unaware_advance.andThen _

/-- Whether a line has ended is only asked behind digits, and behind a point. -/
theorem unaware_decimalNumeral : Unaware Anything decimalNumeral := by
  unfold decimalNumeral
  refine unaware_position.bind fun _ _ => unaware_sign?.bind fun _ _ =>
    (unaware_takeWhile _).bind fun whole hwhole => ?_
  -- No digit was passed, so the line break that is asked for here may be that of an earlier move;
  -- but it only counts behind digits.  It is the same behind a fraction.
  subst hwhole
  simp only [List.isEmpty_nil, Bool.not_true, Bool.false_and, Bool.false_eq_true, if_false]
  refine Unaware.lineBroken ((unaware_fraction? _).bind fun fraction hfraction => ?_)
  subst hfraction
  simp only [Option.isSome_none, Bool.false_and, Bool.false_eq_true, if_false]
  refine Unaware.lineBroken (.ite (unaware_throw.andThen _) ?_)
  exact unaware_exponent?.bind fun _ _ => unaware_pure trivial

theorem unaware_integer : Unaware Anything integer := by
  unfold integer
  refine unaware_position.bind fun _ _ => unaware_wholeNumeral.bind fun _ _ => ?_
  split
  · exact unaware_pure trivial
  · exact unaware_throw

theorem unaware_float : Unaware Anything float := by
  unfold float
  refine unaware_position.bind fun _ _ => unaware_decimalNumeral.bind fun _ _ => ?_
  split
  · exact unaware_pure trivial
  · exact unaware_throw

/-- Behind the bracket that begins a list, everything follows a move. -/
theorem unaware_list {α : Type} (item : Scan α) : Unaware Nothing (list item) := by
  unfold list
  exact (unaware_expect _).andThen _

theorem unaware_value (kind : ValueKind) : Unaware Anything (value kind) := by
  cases kind with
  | string => exact unaware_string.map
  | integer => exact unaware_integer.map
  | float => exact unaware_float.map
  | stringList => exact (unaware_list _).map
  | integerList => exact (unaware_list _).map
  | floatList => exact (unaware_list _).map

end Literal

/-! ## 4. Primitives -/

namespace Primitive

open Scan

theorem unaware_scan (p : Primitive) : Unaware Anything p.scan := by
  cases p with
  | current => exact unaware_current
  | peek => exact unaware_peek
  | advance => exact unaware_advance.anything
  | advanceLine => exact (unaware_modify fun h => by
      rw [Cursor.advanceLine, Cursor.advanceLine, h.rest, h.advanceBy_eq]).anything
  | clearLineBreak => exact (unaware_modify fun h => h.clearLineBreak_eq).anything
  | skipBlanks => exact unaware_skipBlanks
  | name => exact unaware_name
  | expect c => exact (unaware_expect c).anything
  | string => exact Literal.unaware_string.anything
  | wholeNumeral => exact Literal.unaware_wholeNumeral
  | decimalNumeral => exact Literal.unaware_decimalNumeral
  | integer => exact Literal.unaware_integer
  | float => exact Literal.unaware_float
  | stringList => exact (Literal.unaware_list _).anything
  | integerList => exact (Literal.unaware_list _).anything
  | floatList => exact (Literal.unaware_list _).anything
  | value kind => exact Literal.unaware_value kind

/-- What a primitive finds or how it fails, and where it ends, is the same whether the last move
    before it passed a line feed or not. -/
theorem scan_alike (p : Primitive) (c : Cursor) (lineBreak : Bool) :
    Alike (p.scan c) (p.scan { c with lineBreak }) := by
  have h : c.Coincides { c with lineBreak } := ⟨rfl, rfl, rfl⟩
  exact ((unaware_scan p).told h).alike h

end Primitive

end ControlScript
