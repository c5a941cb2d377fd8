import ControlScript.Primitive
import ControlScript.Proofs.Canonical.Values
import ControlScript.Proofs.Cursor.Bytes

/-!
# Primitives move

Whatever is read, and also when it cannot be read, a cursor is changed by moves only.  So a cursor
over bytes can be moved along with it, and is faithful wherever the primitives come.
-/

namespace ControlScript

open Grammar

/-! ## 1. Moves character by character -/

theorem Scan.countBlanks_le (n : Nat) (inComment : Bool) (text : List Char) :
    Scan.countBlanks n inComment text ≤ n + text.length := by
  induction text generalizing n inComment with
  | nil => exact Nat.le_add_right _ _
  | cons c text ih =>
    have hnext := ih (n + 1)
    rw [List.length_cons, Nat.add_comm text.length 1, ← Nat.add_assoc]
    rw [Scan.countBlanks]
    split
    · exact hnext _
    split
    · exact hnext _
    split
    · exact hnext _
    · omega

namespace Cursor

variable {c : Cursor} {m n : Nat}

/-- Moving on from where a cursor has been moved to. -/
theorem move_add (hmore : (c.rest.drop n).take m ≠ []) : c.move (n + m) = (c.move n).move m := by
  rw [move, move, Cursor.mk.injEq]
  refine ⟨rfl, ?_, ?_, ?_⟩
  · rw [rest_move, List.drop_drop]
  · show c.place.afterAll (c.rest.take (n + m)) = _
    rw [List.take_add, Place.afterAll_append]
    rfl
  · show ((c.rest.take (n + m)).getLast? == some '\n') = _
    rw [List.take_add, List.getLast?_append_of_ne_nil _ hmore]
    rfl

/-- A move that ends in front of no line feed is at least as far as that over one character. -/
theorem feeds_le {tail : List Char} (hhead : (tail.drop n).head? ≠ some '\n') :
    feeds tail ≤ n := by
  rw [← Nat.not_lt]
  intro hlt
  have hrun := run_takeWhile (· == '\n') tail
  have hmem := List.getElem_mem hlt
  have hget : tail[n]? = (tail.takeWhile (· == '\n'))[n]? := by
    conv_lhs => rw [hrun.spelled]
    exact List.getElem?_append_left hlt
  have hfeed : (tail.takeWhile (· == '\n'))[n] = '\n' := by simpa using hrun.all _ hmem
  rw [List.head?_drop, hget, List.getElem?_eq_getElem hlt, hfeed] at hhead
  exact hhead rfl

/-- A cursor that is moved to where no line feed is next can be moved there character by
    character. -/
theorem exists_advances (hn : 0 < n) (hle : n ≤ c.rest.length)
    (hhead : (c.rest.drop n).head? ≠ some '\n') :
    ∃ moves : List Move, c.move n = moves.foldl Move.onCursor c := by
  -- One move over a character also passes the line feeds behind it, so it is at least one step of
  -- the `n`; what is left of them is done from where that move ends.
  induction n using Nat.strongRecOn generalizing c with
  | ind n ih =>
    have hfeeds : feeds (c.rest.drop 1) ≤ n - 1 := by
      apply feeds_le
      rwa [List.drop_drop, Nat.add_sub_cancel' hn]
    by_cases hone : n = 1 + feeds (c.rest.drop 1)
    · exact ⟨[.advance], by rw [hone]; rfl⟩
    · have hfar : 1 + feeds (c.rest.drop 1) ≤ n := by omega
      obtain ⟨m, hm⟩ := Nat.exists_eq_add_of_le hfar
      have hrest : c.advance.rest = c.rest.drop (1 + feeds (c.rest.drop 1)) := rfl
      have hlength : c.advance.rest.length = c.rest.length - (1 + feeds (c.rest.drop 1)) := by
        rw [hrest, List.length_drop]
      have hmore : (c.rest.drop (1 + feeds (c.rest.drop 1))).take m ≠ [] := by
        rw [← hrest]
        apply List.ne_nil_of_length_pos
        rw [List.length_take]
        omega
      have hhead' : (c.advance.rest.drop m).head? ≠ some '\n' := by
        rwa [hrest, List.drop_drop, ← hm]
      obtain ⟨moves, hmoves⟩ := ih m (by omega) (by omega) (by omega) hhead'
      refine ⟨.advance :: moves, ?_⟩
      rw [List.foldl_cons, Move.onCursor, ← hmoves, hm, move_add hmore]
      rfl

theorem exists_past (c : Cursor) (p : Char → Bool) :
    ∃ moves : List Move, c.past (c.rest.takeWhile p) = moves.foldl Move.onCursor c := by
  by_cases hnil : c.rest.takeWhile p = []
  · rw [hnil]
    exact ⟨[], rfl⟩
  · have hrun := (run_takeWhile p c.rest).drop_length
    have hlength := (c.rest.takeWhile_sublist p).length_le
    have hfeeds := ((c.rest.drop (c.rest.takeWhile p).length).takeWhile_sublist
      (· == '\n')).length_le
    rw [List.length_drop] at hfeeds
    rw [past_of_ne_nil hnil, advanceBy]
    refine exists_advances ?_ ?_ ?_
    · exact Nat.add_pos_left (List.length_pos_of_ne_nil hnil) _
    · rw [feeds]
      omega
    · rw [← List.drop_drop, drop_feeds]
      exact head?_dropFeeds _

theorem exists_pastBlanks (c : Cursor) :
    ∃ moves : List Move, c.pastBlanks = moves.foldl Move.onCursor c := by
  rw [pastBlanks]
  split
  · exact ⟨[], rfl⟩
  · rename_i hne
    have hlength := Scan.countBlanks_le 0 false c.rest
    rw [Nat.zero_add] at hlength
    exact exists_advances (Nat.pos_of_ne_zero hne) hlength
      (head?_ne_feed_of_trim (trim_trim c.rest))

end Cursor

/-! ## 2. Scans that move the cursor only -/

namespace Scan

/-- A scan that changes the cursor by moves only, whether it finds something or fails. -/
structure Walks {α : Type} (x : Scan α) : Prop where
  walked : ∀ c, ∃ moves : List Move, left x c = moves.foldl Move.onCursor c

section Steps

variable {α β σ : Type} {x y : Scan α} {f : α → Scan β}

theorem Walks.bind (hx : Walks x) (hf : ∀ a, Walks (f a)) : Walks (x >>= f) := by
  refine ⟨fun c => ?_⟩
  obtain ⟨moves, hmoves⟩ := hx.walked c
  rw [left] at hmoves ⊢
  cases hxc : x c with
  | error e u =>
    rw [hxc] at hmoves
    rw [bind_of_error hxc]
    exact ⟨moves, hmoves⟩
  | ok a u =>
    rw [hxc] at hmoves
    obtain rfl : u = moves.foldl Move.onCursor c := hmoves
    obtain ⟨more, hmore⟩ := (hf a).walked (moves.foldl Move.onCursor c)
    rw [bind_of_ok hxc]
    exact ⟨moves ++ more, by rw [List.foldl_append]; exact hmore⟩

theorem walks_pure {a : α} : Walks (pure a) := ⟨fun _ => ⟨[], rfl⟩⟩

theorem walks_throw {fault : Fault} : Walks (throw fault : Scan α) := ⟨fun _ => ⟨[], rfl⟩⟩

theorem walks_fail {cause : Cause} : Walks (fail cause : Scan α) := ⟨fun _ => ⟨[], rfl⟩⟩

theorem Walks.map {g : α → β} (hx : Walks x) : Walks (g <$> x) := by
  rw [map_eq_pure_bind]
  exact hx.bind fun _ => walks_pure

theorem Walks.ite {p : Prop} [Decidable p] (hx : Walks x) (hy : Walks y) :
    Walks (if p then x else y) := by
  split
  · exact hx
  · exact hy

/-- What follows a check moves the cursor only, if the check is passed. -/
theorem Walks.check {p : Prop} [Decidable p] {fault : Fault} {y : Scan β} (hy : Walks y) :
    Walks (if p then throw fault >>= f else y) := .ite ⟨fun _ => ⟨[], rfl⟩⟩ hy

theorem Walks.unless {p : Prop} [Decidable p] {cause : Cause} {y : Scan β} (hy : Walks y) :
    Walks (if p then fail cause >>= f else y) := .ite ⟨fun _ => ⟨[], rfl⟩⟩ hy

theorem walks_takeTurns {turn : σ → Scan (Turn σ β)} {stuck : Scan β} {text : List Char}
    {state : σ} (hstuck : Walks stuck) (hturn : ∀ s, Walks (turn s)) :
    Walks (takeTurns turn stuck text state) := by
  induction text generalizing state with
  | nil =>
    rw [takeTurns]
    refine (hturn state).bind fun found => ?_
    cases found with
    | done result => exact walks_pure
    | again next => exact hstuck
  | cons c fewer ih =>
    rw [takeTurns]
    refine (hturn state).bind fun found => ?_
    cases found with
    | done result => exact walks_pure
    | again next => exact ih

end Steps

/-! ## 3. Characters, blanks and names -/

theorem walks_get : Walks get := ⟨fun _ => ⟨[], rfl⟩⟩

theorem walks_peek : Walks peek := ⟨fun _ => ⟨[], rfl⟩⟩

theorem walks_position : Walks position := ⟨fun _ => ⟨[], rfl⟩⟩

theorem walks_lineBroken : Walks lineBroken := ⟨fun _ => ⟨[], rfl⟩⟩

theorem walks_move (m : Move) : Walks (modify fun c => m.onCursor c : Scan Unit) :=
  ⟨fun _ => ⟨[m], rfl⟩⟩

theorem walks_current : Walks current := by
  unfold current
  refine walks_peek.bind fun found => ?_
  split
  · exact walks_pure
  · exact walks_fail

theorem walks_expect (ch : Char) : Walks (expect ch) := by
  unfold expect
  exact walks_current.bind fun _ => .unless (walks_move .advance)

theorem walks_takeWhile (p : Char → Bool) : Walks (Scan.takeWhile p) := by
  refine ⟨fun c => ?_⟩
  have hrun : Scan.takeWhile p c = .ok _ (c.past _) := takeWhile_eq_ok_iff.2 ⟨rfl, rfl⟩
  rw [left, hrun]
  exact c.exists_past p

theorem walks_skipBlanks : Walks skipBlanks := ⟨fun c => c.exists_pastBlanks⟩

theorem walks_name : Walks name := by
  unfold name
  exact (walks_takeWhile _).bind fun _ => walks_pure

theorem Walks.repeat {σ β : Type} {turn : σ → Scan (Turn σ β)} {state : σ}
    (hturn : ∀ s, Walks (turn s)) : Walks (Scan.repeat turn state) := by
  unfold Scan.repeat
  exact walks_get.bind fun _ => walks_takeTurns walks_fail hturn

end Scan

/-! ## 4. Literals -/

namespace Literal

open Scan

theorem walks_string : Walks string := by
  unfold string
  refine walks_position.bind fun _ => (walks_expect _).bind fun _ => walks_lineBroken.bind
    fun _ => .check ?_
  refine (walks_takeWhile _).bind fun _ => walks_lineBroken.bind fun _ => .check ?_
  exact (walks_expect _).bind fun _ => walks_pure

theorem walks_sign? : Walks sign? := by
  unfold sign?
  refine walks_peek.bind fun found => ?_
  split
  · exact walks_pure
  · exact walks_position.bind fun _ => (walks_move .advance).bind fun _ =>
      walks_lineBroken.bind fun _ => .check walks_pure

theorem walks_wholeNumeral : Walks wholeNumeral := by
  unfold wholeNumeral
  refine walks_sign?.bind fun _ => walks_current.bind fun _ => .unless ?_
  exact (walks_takeWhile _).bind fun _ => walks_pure

theorem walks_fraction? (whole : List Char) : Walks (fraction? whole) := by
  unfold fraction?
  refine walks_peek.bind fun _ => .ite walks_pure ?_
  refine walks_position.bind fun _ => (walks_move .advance).bind fun _ =>
    walks_lineBroken.bind fun _ => .ite (.check walks_pure) ?_
  exact (walks_takeWhile _).bind fun _ => walks_pure

theorem walks_exponent? : Walks exponent? := by
  unfold exponent?
  refine walks_peek.bind fun found => ?_
  split
  · exact walks_pure
  · refine .ite walks_pure (walks_position.bind fun _ => (walks_move .advance).bind fun _ =>
      walks_lineBroken.bind fun _ => .check ?_)
    exact walks_wholeNumeral.bind fun _ => walks_pure

theorem walks_decimalNumeral : Walks decimalNumeral := by
  unfold decimalNumeral
  refine walks_position.bind fun _ => walks_sign?.bind fun _ => (walks_takeWhile _).bind
    fun whole => walks_lineBroken.bind fun _ => .ite walks_pure ?_
  refine (walks_fraction? whole).bind fun _ => walks_lineBroken.bind
    fun _ => .ite walks_pure (.check ?_)
  exact walks_exponent?.bind fun _ => walks_pure

theorem walks_integer : Walks integer := by
  unfold integer
  refine walks_position.bind fun _ => walks_wholeNumeral.bind fun numeral => ?_
  split
  · exact walks_pure
  · exact walks_throw

theorem walks_float : Walks float := by
  unfold float
  refine walks_position.bind fun _ => walks_decimalNumeral.bind fun numeral => ?_
  split
  · exact walks_pure
  · exact walks_throw

theorem walks_list {α : Type} {item : Scan α} (hitem : Walks item) : Walks (list item) := by
  unfold list
  refine (walks_expect _).bind fun _ => walks_skipBlanks.bind fun _ => ?_
  refine (Walks.repeat fun found => ?_).bind fun _ => (walks_move .advance).bind
    fun _ => walks_pure
  have hnext : Walks (do
      let next ← item
      skipBlanks
      return Turn.again (β := List α) (next :: found)) :=
    hitem.bind fun _ => walks_skipBlanks.bind fun _ => walks_pure
  refine walks_current.bind fun _ => .ite walks_pure (.ite ?_ hnext)
  exact (walks_expect _).bind fun _ => walks_skipBlanks.bind fun _ => hnext

theorem walks_value (kind : ValueKind) : Walks (value kind) := by
  cases kind with
  | string => exact walks_string.map
  | integer => exact walks_integer.map
  | float => exact walks_float.map
  | stringList => exact (walks_list walks_string).map
  | integerList => exact (walks_list walks_integer).map
  | floatList => exact (walks_list walks_float).map

end Literal

/-! ## 5. Primitives -/

namespace Primitive

theorem walks_scan (p : Primitive) : Scan.Walks p.scan := by
  cases p with
  | current => exact Scan.walks_current
  | peek => exact Scan.walks_peek
  | advance => exact Scan.walks_move .advance
  | advanceLine => exact Scan.walks_move .advanceLine
  | clearLineBreak => exact Scan.walks_move .clearLineBreak
  | skipBlanks => exact Scan.walks_skipBlanks
  | name => exact Scan.walks_name
  | expect c => exact Scan.walks_expect c
  | string => exact Literal.walks_string
  | wholeNumeral => exact Literal.walks_wholeNumeral
  | decimalNumeral => exact Literal.walks_decimalNumeral
  | integer => exact Literal.walks_integer
  | float => exact Literal.walks_float
  | stringList => exact Literal.walks_list Literal.walks_string
  | integerList => exact Literal.walks_list Literal.walks_integer
  | floatList => exact Literal.walks_list Literal.walks_float
  | value kind => exact Literal.walks_value kind

/-- Any primitives, one after the other, move the cursor only. -/
theorem exists_moves (calls : List Primitive) (c : Cursor) :
    ∃ moves : List Move, run calls c = moves.foldl Move.onCursor c := by
  induction calls generalizing c with
  | nil => exact ⟨[], rfl⟩
  | cons p calls ih =>
    obtain ⟨moves, hmoves⟩ := (walks_scan p).walked c
    obtain ⟨more, hmore⟩ := ih (p.scan.left c)
    refine ⟨moves ++ more, ?_⟩
    rw [List.foldl_append, ← hmoves]
    exact hmore

/-- A cursor over bytes can be moved along with a cursor that primitives are carried out on. -/
theorem exists_keeps {source : String} {passed : List Char} {b : ByteCursor} {c : Cursor}
    (h : b.Keeps source passed c) (calls : List Primitive) :
    ∃ b' run, b.LeadsTo b' ∧ b'.Keeps source (passed ++ run) (Primitive.run calls c) := by
  obtain ⟨moves, hmoves⟩ := exists_moves calls c
  obtain ⟨run, hkeeps⟩ := h.moves moves
  rw [← hmoves] at hkeeps
  exact ⟨_, run, ⟨moves, rfl⟩, hkeeps⟩

/-- Wherever primitives come in a text, whether they find something or fail, the cursor is what is
    seen of a faithful cursor over the bytes of the text, which was moved there and is only moved
    forward by whatever follows. -/
theorem faithful_after_run (file source : String) (hfits : ByteCursor.Fits source)
    (calls : List Primitive) :
    ∃ b, (ByteCursor.start file source).LeadsTo b ∧
      b.view = run calls (Cursor.start file source.toList) ∧ b.Faithful source ∧
      (∀ m : Move, (m.onBytes b).view = m.onCursor b.view) ∧
      ∀ more, ∃ b', b.LeadsTo b' ∧ b'.view = run more b.view ∧ b.offset ≤ b'.offset := by
  obtain ⟨passed, hstart⟩ := ByteCursor.keeps_start file source
  obtain ⟨b, _, hleads, hkeeps⟩ := exists_keeps hstart calls
  refine ⟨b, hleads, hkeeps.view_eq hfits, hkeeps.faithful hfits, hkeeps.view_move hfits, ?_⟩
  intro more
  obtain ⟨b', _, hleads', hkeeps'⟩ := exists_keeps hkeeps more
  refine ⟨b', hleads', ?_, hkeeps.offset_le hkeeps'⟩
  rw [hkeeps'.view_eq hfits, hkeeps.view_eq hfits]

/-- A text with empty lines, a comment and characters of more than one byte, in which an integer, a
    string and a number cannot be read. -/
theorem faithful_after_run_failing :
    let source := "\n# \u00e9\nWait \u00e9 \"\u00fc\n\n  1e+\n 7"
    let calls := [skipBlanks, name, integer, skipBlanks, advance, skipBlanks, string, skipBlanks,
      decimalNumeral]
    ByteCursor.Fits source ∧
      run calls (Cursor.start "main" source.toList) = ⟨"main", [' ', '7'], ⟨6, 1⟩, true⟩ ∧
      ∃ b, (ByteCursor.start "main" source).LeadsTo b ∧
        b.view = run calls (Cursor.start "main" source.toList) ∧ b.Faithful source ∧
        (∀ m : Move, (m.onBytes b).view = m.onCursor b.view) ∧
        ∀ more, ∃ b', b.LeadsTo b' ∧ b'.view = run more b.view ∧ b.offset ≤ b'.offset := by
  intro source calls
  have hfits : ByteCursor.Fits source := ⟨by decide +kernel, by decide +kernel⟩
  exact ⟨hfits, by decide +kernel, faithful_after_run "main" source hfits calls⟩

end Primitive

end ControlScript
