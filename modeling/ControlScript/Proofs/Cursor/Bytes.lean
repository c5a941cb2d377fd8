import ControlScript.Cursor.Bytes
import ControlScript.Proofs.Lines
import ControlScript.Proofs.Movement
import Mathlib.Data.String.Basic

/-!
# Cursors over bytes are faithful

A cursor over bytes that is kept in step with a cursor: each move changes both in the same way, so
the offset is always in front of a character, which is no line feed, and the line and the column are
those of the text in front of it.
-/

namespace ControlScript

open Grammar

/-! ## 1. Line feeds -/

namespace Grammar

theorem eq_feed_of_mem {text : List Char} {ch : Char} (h : ch ∈ text.takeWhile (· == '\n')) :
    ch = '\n' := by
  simpa using (run_takeWhile (· == '\n') text).all ch h

theorem head?_dropFeeds (text : List Char) : (dropFeeds text).head? ≠ some '\n' := by
  intro h
  simpa using (run_takeWhile (· == '\n') text).stops '\n' h

end Grammar

/-! ## 2. Cursors in bytes -/

/-- A cursor behind a part of a text, as it is kept over the bytes of the text. -/
def Cursor.inBytes (c : Cursor) (passed : List Char) : ByteCursor where
  file := c.file
  source := .ofList (passed ++ c.rest)
  offset := ⟨String.utf8Len passed⟩
  line := .ofNat c.place.line
  column := .ofNat c.place.column
  lineBreak := c.lineBreak

namespace ByteCursor

variable {b : ByteCursor}

theorem advance_of_end (h : b.peek = none) : b.advance = b.clearLineBreak.passFeeds := by
  have hpeek : b.clearLineBreak.peek = none := h
  simp only [advance, hpeek]

theorem advance_of_peek {ch : Char} (h : b.peek = some ch) :
    b.advance = passFeeds { b.clearLineBreak with
      offset := b.offset + ch
      column := b.column + 1 } := by
  have hpeek : b.clearLineBreak.peek = some ch := h
  simp only [advance, hpeek]
  rfl

end ByteCursor

namespace Cursor

variable {c : Cursor} {passed run tail : List Char}

@[simp] theorem rest_inBytes (c : Cursor) (passed : List Char) :
    (c.inBytes passed).rest = .ofList c.rest := by
  have hend : (c.inBytes passed).source.rawEndPos
      = ⟨String.utf8Len passed + String.utf8Len c.rest⟩ := by
    rw [inBytes, String.rawEndPos_ofList, String.utf8Len_append]
  have hslice := String.extract_of_valid passed c.rest []
  rw [List.append_nil] at hslice
  rw [ByteCursor.rest, hend]
  exact hslice

@[simp] theorem passed_inBytes (c : Cursor) (passed : List Char) :
    (c.inBytes passed).passed = .ofList passed := by
  have hslice := String.extract_of_valid [] passed c.rest
  rw [String.utf8Len_nil, Nat.zero_add] at hslice
  exact hslice

@[simp] theorem peek_inBytes (c : Cursor) (passed : List Char) :
    (c.inBytes passed).peek = c.rest.head? := by
  rw [ByteCursor.peek, rest_inBytes, String.toList_ofList]

/-! ## 3. Moves -/

/-- The bytes of a run of characters of the line, and its columns, are added up. -/
theorem inBytes_append (file : String) (place : Place) (lineBreak : Bool) (passed : List Char)
    {run : List Char} (hline : '\n' ∉ run) (rest : List Char) :
    inBytes ⟨file, rest, place.afterAll run, lineBreak⟩ (passed ++ run)
      = { inBytes ⟨file, run ++ rest, place, lineBreak⟩ passed with
          offset := (⟨String.utf8Len passed⟩ : String.Pos.Raw) + String.ofList run
          column := .ofNat place.column + .ofNat run.length } := by
  have hoffset : (⟨String.utf8Len (passed ++ run)⟩ : String.Pos.Raw)
      = (⟨String.utf8Len passed⟩ : String.Pos.Raw) + String.ofList run := by
    rw [String.utf8Len_append, String.Pos.Raw.ext_iff, String.Pos.Raw.byteIdx_add_string,
      String.utf8ByteSize_ofList]
  rw [Place.afterAll_of_line hline]
  simp only [inBytes, List.append_assoc, hoffset, UInt32.ofNat_add]

theorem passFeeds_of_head (hhead : c.rest.head? ≠ some '\n') (passed : List Char) :
    (c.inBytes passed).passFeeds = c.inBytes passed := by
  rw [ByteCursor.passFeeds, peek_inBytes, if_neg hhead]

/-- Line feeds are passed one by one. -/
theorem passFeeds_inBytes (file : String) (text : List Char) (place : Place) (lineBreak : Bool)
    (passed : List Char) :
    (inBytes ⟨file, text, place, lineBreak⟩ passed).passFeeds
      = inBytes ⟨file, dropFeeds text, place.afterAll (text.takeWhile (· == '\n')),
          lineBreak || !(text.takeWhile (· == '\n')).isEmpty⟩
          (passed ++ text.takeWhile (· == '\n')) := by
  -- Each line feed that is passed is one more in front of the cursor, so the place, the flag and
  -- the passed part change from one step of the induction to the next.
  induction text generalizing place lineBreak passed with
  | nil =>
    rw [passFeeds_of_head (by simp)]
    simp [dropFeeds]
  | cons ch text ih =>
    by_cases hch : ch = '\n'
    · subst hch
      have hfeed : inBytes ⟨file, text, place.after '\n', true⟩ (passed ++ ['\n'])
          = { inBytes ⟨file, '\n' :: text, place, lineBreak⟩ passed with
              offset := ⟨String.utf8Len passed + 1⟩
              line := .ofNat place.line + 1
              column := 1
              lineBreak := true } := by
        simp only [inBytes, Place.after, if_pos, UInt32.ofNat_add, List.append_assoc,
          List.cons_append, String.utf8Len_append]
        rfl
      have hnext := ih (place.after '\n') true (passed ++ ['\n'])
      rw [hfeed, List.append_assoc, List.singleton_append, Bool.true_or] at hnext
      rw [ByteCursor.passFeeds, if_pos (by simp), List.takeWhile_cons_of_pos rfl,
        List.isEmpty_cons, Bool.not_false, Bool.or_true]
      exact hnext
    · have hhead : (ch :: text).head? ≠ some '\n' := by simpa using hch
      rw [passFeeds_of_head hhead, List.takeWhile_cons_of_neg (by simpa using hch),
        dropFeeds_of_head? hhead, List.append_nil, List.isEmpty_nil, Bool.not_true, Bool.or_false]
      rfl

/-- The cursor behind a run of characters of the line and the line feeds behind them. -/
theorem advanceBy_eq (hrest : c.rest = run ++ tail) (hline : '\n' ∉ run) :
    c.advanceBy run.length
      = ⟨c.file, dropFeeds tail, c.place.afterAll (run ++ tail.takeWhile (· == '\n')),
          !(tail.takeWhile (· == '\n')).isEmpty⟩ := by
  have htake : c.rest.take (run.length + feeds (c.rest.drop run.length))
      = run ++ tail.takeWhile (· == '\n') := by
    rw [hrest, List.drop_left, List.take_length_add_append, take_feeds]
  have hbreak : (tail.head? == some '\n') = !(tail.takeWhile (· == '\n')).isEmpty := by
    cases tail with
    | nil => rfl
    | cons ch tail => by_cases hch : ch = '\n' <;> simp [hch]
  have hbehind := behind_advanceBy hrest hline
  rw [Cursor.mk.injEq, ← hbehind.rest_eq, ← hbreak, ← hbehind.lineBreak_eq, ← htake]
  exact ⟨rfl, rfl, rfl, rfl⟩

/-- A cursor has been moved over a run of characters, with the line feeds behind it. -/
structure Passes (c : Cursor) (run : List Char) (c' : Cursor) : Prop where
  spelled : c.rest = run ++ c'.rest
  place : c'.place = c.place.afterAll run
  head : c'.rest.head? ≠ some '\n'
  lineBreak : c'.lineBreak = true ↔ '\n' ∈ run

theorem passes_advanceBy (hrest : c.rest = run ++ tail) (hline : '\n' ∉ run) :
    c.Passes (run ++ tail.takeWhile (· == '\n')) (c.advanceBy run.length) := by
  rw [advanceBy_eq hrest hline]
  refine ⟨?_, rfl, head?_dropFeeds tail, ?_⟩
  · rw [hrest, List.append_assoc, dropFeeds, List.takeWhile_append_dropWhile]
  · cases hnone : tail.takeWhile (· == '\n') with
    | nil => simp [hline]
    | cons ch feeds =>
      have hch : ch = '\n' := eq_feed_of_mem (hnone ▸ List.mem_cons_self)
      simp [hch]

theorem passes_clearLineBreak (hhead : c.rest.head? ≠ some '\n') :
    c.Passes [] c.clearLineBreak := ⟨rfl, rfl, hhead, by simp [clearLineBreak]⟩

/-- Passing a run of characters of the line in bytes, and then line feeds, is moving over them. -/
theorem passFeeds_advanceBy (hrest : c.rest = run ++ tail) (hline : '\n' ∉ run)
    (passed : List Char) :
    ByteCursor.passFeeds { c.clearLineBreak.inBytes passed with
        offset := (⟨String.utf8Len passed⟩ : String.Pos.Raw) + String.ofList run
        column := .ofNat c.place.column + .ofNat run.length }
      = (c.advanceBy run.length).inBytes (passed ++ (run ++ tail.takeWhile (· == '\n'))) := by
  have hpassed := passFeeds_inBytes c.file tail (c.place.afterAll run) false (passed ++ run)
  rw [inBytes_append c.file c.place false passed hline tail, Bool.false_or] at hpassed
  rw [advanceBy_eq hrest hline, Place.afterAll_append, ← List.append_assoc, clearLineBreak, hrest]
  exact hpassed

theorem clearLineBreak_inBytes (c : Cursor) (passed : List Char) :
    (c.inBytes passed).clearLineBreak = c.clearLineBreak.inBytes passed := rfl

theorem advanceLine_inBytes (c : Cursor) (passed : List Char) :
    ∃ run, c.Passes run c.advanceLine ∧
      (c.inBytes passed).advanceLine = c.advanceLine.inBytes (passed ++ run) := by
  have hrun := run_takeWhile (· != '\n') c.rest
  have hline : '\n' ∉ c.rest.takeWhile (· != '\n') := fun h => by simpa using hrun.all _ h
  refine ⟨_, passes_advanceBy hrun.spelled hline, ?_⟩
  rw [ByteCursor.advanceLine, clearLineBreak_inBytes, rest_inBytes, String.toList_ofList]
  exact passFeeds_advanceBy hrun.spelled hline passed

theorem advance_inBytes {ch : Char} (hrest : c.rest = ch :: tail) (hch : ch ≠ '\n')
    (passed : List Char) :
    ∃ run, c.Passes run c.advance ∧
      (c.inBytes passed).advance = c.advance.inBytes (passed ++ run) := by
  have hspelled : c.rest = [ch] ++ tail := hrest
  have hline : '\n' ∉ [ch] := by simpa using hch.symm
  have hpeek : (c.inBytes passed).peek = some ch := by rw [peek_inBytes, hrest, List.head?_cons]
  have hoffset : (c.inBytes passed).offset + ch
      = (⟨String.utf8Len passed⟩ : String.Pos.Raw) + String.ofList [ch] := by
    rw [String.Pos.Raw.ext_iff, String.Pos.Raw.byteIdx_add_string, String.utf8ByteSize_ofList,
      String.utf8Len_cons, String.utf8Len_nil, Nat.zero_add]
    rfl
  refine ⟨_, passes_advanceBy hspelled hline, ?_⟩
  rw [ByteCursor.advance_of_peek hpeek, hoffset]
  exact passFeeds_advanceBy hspelled hline passed

/-- At the end of the text there is nothing to move over. -/
theorem advance_inBytes_of_nil (hrest : c.rest = []) (passed : List Char) :
    c.advance = c.clearLineBreak ∧
      (c.inBytes passed).advance = c.clearLineBreak.inBytes passed := by
  have hpeek : (c.inBytes passed).peek = none := by rw [peek_inBytes, hrest, List.head?_nil]
  have hhead : c.clearLineBreak.rest.head? ≠ some '\n' := by simp [clearLineBreak, hrest]
  constructor
  · simp [advance, advanceBy, move, feeds, clearLineBreak, hrest]
  · rw [ByteCursor.advance_of_end hpeek, clearLineBreak_inBytes, passFeeds_of_head hhead]

/-- A move changes a cursor over bytes as it changes the cursor. -/
theorem move_inBytes (hhead : c.rest.head? ≠ some '\n') (passed : List Char) (m : Move) :
    ∃ run, c.Passes run (m.onCursor c) ∧
      m.onBytes (c.inBytes passed) = (m.onCursor c).inBytes (passed ++ run) := by
  cases m with
  | clearLineBreak =>
    refine ⟨[], passes_clearLineBreak hhead, ?_⟩
    rw [List.append_nil]
    rfl
  | advanceLine => exact advanceLine_inBytes c passed
  | advance =>
    cases hrest : c.rest with
    | nil =>
      obtain ⟨hcursor, hbytes⟩ := advance_inBytes_of_nil hrest passed
      refine ⟨[], ?_, ?_⟩
      · rw [Move.onCursor, hcursor]
        exact passes_clearLineBreak hhead
      · rw [Move.onBytes, Move.onCursor, hbytes, hcursor, List.append_nil]
    | cons ch tail =>
      have hch : ch ≠ '\n' := by
        rintro rfl
        exact hhead (by rw [hrest]; rfl)
      exact advance_inBytes hrest hch passed

end Cursor

/-! ## 4. Cursors that are kept -/

namespace ByteCursor

variable {source : String} {passed run : List Char} {b b' : ByteCursor} {c c' : Cursor}

/-- A cursor over bytes keeps a cursor that is behind a part of a text. -/
structure Keeps (source : String) (passed : List Char) (b : ByteCursor) (c : Cursor) : Prop where
  eq : b = c.inBytes passed
  text : source.toList = passed ++ c.rest
  place : c.place = Place.afterAll {} passed
  head : c.rest.head? ≠ some '\n'

/-- Moves lead from one cursor over bytes to another one. -/
def LeadsTo (b b' : ByteCursor) : Prop := ∃ moves : List Move, moves.foldl Move.onBytes b = b'

theorem keeps_start (file source : String) :
    ∃ passed, (start file source).Keeps source passed (Cursor.start file source.toList) := by
  have hpassed := Cursor.passFeeds_inBytes file source.toList {} false []
  rw [List.nil_append] at hpassed
  have hbegin : ({ file, source } : ByteCursor)
      = Cursor.inBytes ⟨file, source.toList, {}, false⟩ [] := by
    rw [Cursor.inBytes, List.nil_append, String.ofList_toList]
    rfl
  have hstart : Cursor.start file source.toList
      = ⟨file, dropFeeds source.toList,
          Place.afterAll {} (source.toList.takeWhile (· == '\n')), false⟩ := by
    rw [← Cursor.take_feeds, ← Cursor.drop_feeds]
    rfl
  refine ⟨source.toList.takeWhile (· == '\n'), ?_, ?_, ?_, ?_⟩
  · rw [start, hbegin, hpassed, hstart]
    rfl
  · rw [hstart]
    exact List.takeWhile_append_dropWhile.symm
  · rw [hstart]
  · rw [hstart]
    exact head?_dropFeeds source.toList

theorem Keeps.move (h : b.Keeps source passed c) (m : Move) :
    ∃ run, c.Passes run (m.onCursor c) ∧
      (m.onBytes b).Keeps source (passed ++ run) (m.onCursor c) := by
  obtain ⟨run, hpasses, hbytes⟩ := Cursor.move_inBytes h.head passed m
  refine ⟨run, hpasses, h.eq ▸ hbytes, ?_, ?_, hpasses.head⟩
  · rw [h.text, hpasses.spelled, List.append_assoc]
  · rw [hpasses.place, h.place, Place.afterAll_append]

/-- Any moves go on in the text. -/
theorem Keeps.moves (h : b.Keeps source passed c) (moves : List Move) :
    ∃ run, (moves.foldl Move.onBytes b).Keeps source (passed ++ run)
      (moves.foldl Move.onCursor c) := by
  induction moves generalizing passed b c with
  | nil => exact ⟨[], by rwa [List.append_nil]⟩
  | cons m moves ih =>
    obtain ⟨run, -, hm⟩ := h.move m
    obtain ⟨more, hmoves⟩ := ih hm
    exact ⟨run ++ more, by rwa [← List.append_assoc]⟩

theorem Keeps.offset_le (h : b.Keeps source passed c)
    (h' : b'.Keeps source (passed ++ run) c') : b.offset ≤ b'.offset := by
  rw [h.eq, h'.eq, String.Pos.Raw.le_iff]
  show String.utf8Len passed ≤ String.utf8Len (passed ++ run)
  rw [String.utf8Len_append]
  exact Nat.le_add_right _ _

/-! ## 5. Places in thirty-two bits -/

/-- A text with so few lines, and columns in each of them, that thirty-two bits can count them. -/
structure Fits (source : String) : Prop where
  lines : (pieces '\n' source.toList).length < UInt32.size
  columns : ∀ line ∈ pieces '\n' source.toList, line.length + 1 < UInt32.size

theorem Fits.place (h : Fits source) {rest : List Char} (htext : source.toList = passed ++ rest) :
    (Place.afterAll {} passed).line < UInt32.size ∧
      (Place.afterAll {} passed).column < UInt32.size := by
  have hlines := h.lines
  have hpiece : (pieces '\n' (passed ++ rest))[passed.count '\n']?
      = some (passed.rtakeWhile (· != '\n') ++ rest.takeWhile (· != '\n')) :=
    getElem?_pieces passed rest
  rw [← htext] at hpiece
  have hcolumns := h.columns _ (List.mem_of_getElem? hpiece)
  rw [length_pieces, htext, List.count_append] at hlines
  rw [List.length_append] at hcolumns
  rw [Place.afterAll_eq]
  constructor
  · show passed.count '\n' + 1 < UInt32.size
    omega
  · show (passed.rtakeWhile (· != '\n')).length + 1 < UInt32.size
    omega

theorem Keeps.view_eq (h : b.Keeps source passed c) (hfits : Fits source) : b.view = c := by
  obtain ⟨hline, hcolumn⟩ := hfits.place h.text
  rw [← h.place] at hline hcolumn
  have hrest := Cursor.rest_inBytes c passed
  rw [h.eq, view, hrest, String.toList_ofList]
  show Cursor.mk c.file c.rest ⟨(UInt32.ofNat _).toNat, (UInt32.ofNat _).toNat⟩ c.lineBreak = c
  rw [UInt32.toNat_ofNat_of_lt' hline, UInt32.toNat_ofNat_of_lt' hcolumn]

/-! ## 6. Faithful cursors -/

/-- The text between the offsets of two cursors. -/
def upTo (b b' : ByteCursor) : String := b.offset.extract b.source b'.offset

/-- A cursor over the bytes of a text that is where it says it is: in front of a character, which is
    no line feed, or at the end, and on the line and in the column where that stands.  Moves set the
    flag exactly when they pass a line feed. -/
structure Faithful (source : String) (b : ByteCursor) : Prop where
  source_eq : b.source = source
  valid : b.offset.IsValid source
  head : b.peek ≠ some '\n'
  line : b.line.toNat = 1 + b.passed.toList.count '\n'
  column : b.column.toNat = 1 + (b.passed.toList.rtakeWhile (· != '\n')).length
  advance : b.advance.lineBreak = true ↔ '\n' ∈ (b.upTo b.advance).toList
  advanceLine : b.advanceLine.lineBreak = true ↔ '\n' ∈ (b.upTo b.advanceLine).toList

theorem upTo_inBytes (hpasses : c.Passes run c') (passed : List Char) :
    (c.inBytes passed).upTo (c'.inBytes (passed ++ run)) = .ofList run := by
  have hslice := String.extract_of_valid passed run c'.rest
  rw [List.append_assoc, ← hpasses.spelled, ← String.utf8Len_append] at hslice
  exact hslice

/-- A move sets the flag when what it passes has a line feed in it. -/
theorem Keeps.lineBreak_iff (h : b.Keeps source passed c) (m : Move) :
    (m.onBytes b).lineBreak = true ↔ '\n' ∈ (b.upTo (m.onBytes b)).toList := by
  obtain ⟨run, hpasses, hm⟩ := h.move m
  rw [hm.eq, h.eq, upTo_inBytes hpasses, String.toList_ofList]
  exact hpasses.lineBreak

/-- A move is seen as a move. -/
theorem Keeps.view_move (h : b.Keeps source passed c) (hfits : Fits source) (m : Move) :
    (m.onBytes b).view = m.onCursor b.view := by
  obtain ⟨run, -, hm⟩ := h.move m
  rw [hm.view_eq hfits, h.view_eq hfits]

theorem Keeps.faithful (h : b.Keeps source passed c) (hfits : Fits source) :
    b.Faithful source := by
  have hsource : b.source = source := by
    rw [h.eq, Cursor.inBytes, ← h.text, String.ofList_toList]
  have hpassed : b.passed.toList = passed := by
    rw [h.eq, Cursor.passed_inBytes, String.toList_ofList]
  have hplace := congrArg Cursor.place (h.view_eq hfits)
  rw [h.place, Place.afterAll_eq, view, Place.mk.injEq] at hplace
  refine ⟨hsource, ?_, ?_, ?_, ?_, h.lineBreak_iff .advance, h.lineBreak_iff .advanceLine⟩
  · rw [String.Pos.Raw.isValid_iff_exists_append]
    refine ⟨.ofList passed, .ofList c.rest, ?_, ?_⟩
    · rw [← String.ofList_append, ← h.text, String.ofList_toList]
    · rw [h.eq, String.rawEndPos_ofList]
      rfl
  · rw [h.eq, Cursor.peek_inBytes]
    exact h.head
  · rw [hpassed, hplace.1, Nat.add_comm]
  · rw [hpassed, hplace.2, Nat.add_comm]

end ByteCursor

end ControlScript
