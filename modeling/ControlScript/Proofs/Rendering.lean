import ControlScript.Proofs.Positions

/-!
# What renderings show

A fault of a script is reported at a position in one of the texts that are read, and a rendering
with that text quotes the line of the position, with a caret under its column.  The lines that are
quoted are cut otherwise than the lines that positions count: a carriage return in front of a line
feed is no part of a line, and behind the last line feed is no line unless there is something in it.
So nothing is quoted for the end of a text behind its last line feed.
-/

namespace ControlScript

/-! ## 1. Lines that are quoted -/

namespace Diagnostic

variable {text line piece : List Char} {i : Nat}

/-- The last piece of a text is a line if there is something in it. -/
theorem linesOf_eq {ended : List (List Char)} {last : List Char}
    (h : pieces '\n' text = ended ++ [last]) :
    linesOf text = ended.map dropReturn ++ if last = [] then [] else [last] := by
  rw [linesOf, h, List.dropLast_concat, List.getLast?_concat]
  cases last with
  | nil => rw [if_pos rfl, List.append_nil]
  | cons c rest => rw [if_neg (List.cons_ne_nil c rest)]

theorem exists_pieces_concat (text : List Char) : ∃ ended last,
    pieces '\n' text = ended ++ [last] ∧ ended.length = text.count '\n' := by
  have hne : pieces '\n' text ≠ [] := pieces_ne_nil text
  refine ⟨_, _, (List.dropLast_concat_getLast hne).symm, ?_⟩
  rw [List.length_dropLast, length_pieces, Nat.add_sub_cancel]

/-- A line that is quoted is a piece of the text that is ended by a line feed, without the carriage
    return in front of that, or it is what is behind the last line feed. -/
theorem getElem?_linesOf : (linesOf text)[i]? = some line ↔
    (i < text.count '\n' ∧ ∃ piece, (pieces '\n' text)[i]? = some piece ∧ dropReturn piece = line) ∨
      i = text.count '\n' ∧ (pieces '\n' text)[i]? = some line ∧ line ≠ [] := by
  obtain ⟨ended, last, hpieces, hcount⟩ := exists_pieces_concat text
  rw [linesOf_eq hpieces, hpieces, ← hcount]
  rcases Nat.lt_or_ge i ended.length with hlt | hge
  · have hmap : i < (ended.map dropReturn).length := by rwa [List.length_map]
    rw [List.getElem?_append_left hmap, List.getElem?_append_left hlt, List.getElem?_map,
      Option.map_eq_some_iff]
    simp [hlt, Nat.ne_of_lt hlt]
  · have hmap : (ended.map dropReturn).length ≤ i := by rwa [List.length_map]
    rw [List.getElem?_append_right hmap, List.getElem?_append_right hge, List.length_map,
      or_iff_right fun h => absurd h.1 (Nat.not_lt.2 hge)]
    obtain ⟨k, rfl⟩ := Nat.exists_eq_add_of_le hge
    rw [Nat.add_sub_cancel_left]
    by_cases hlast : last = []
    · cases k with
      | zero => simp [hlast, eq_comm]
      | succ k => simp [hlast]
    · rw [if_neg hlast]
      cases k with
      | zero =>
        simp only [List.getElem?_cons_zero, Option.some.injEq, Nat.add_zero, true_and]
        refine ⟨?_, And.left⟩
        rintro rfl
        exact ⟨rfl, hlast⟩
      | succ k => simp

/-- Only the last piece of a text can be missing among its lines, and only if it is empty. -/
theorem piece_of_unlisted (hpiece : (pieces '\n' text)[i]? = some piece)
    (h : (linesOf text)[i]? = none) : i = text.count '\n' ∧ piece = [] := by
  obtain ⟨hlt, -⟩ := List.getElem?_eq_some_iff.1 hpiece
  rw [length_pieces] at hlt
  have hlisted : ∀ line, (linesOf text)[i]? ≠ some line := by
    intro line
    rw [h]
    nofun
  have hlast : i = text.count '\n' := by
    by_contra hi
    have hended : i < text.count '\n' := by omega
    exact hlisted _ (getElem?_linesOf.2 (.inl ⟨hended, piece, hpiece, rfl⟩))
  refine ⟨hlast, ?_⟩
  by_contra hne
  exact hlisted _ (getElem?_linesOf.2 (.inr ⟨hlast, hpiece, hne⟩))

/-! ## 2. Quoting -/

/-- A block quotes a line with its number, and a caret is under a column of it.  In front of the
    line and of the blanks in front of the caret are margins of one width. -/
structure Quotes (p : Palette) (number column : Nat) (line : List Char) (block : String) :
    Prop where
  layout : ∃ label margin before : String, label = toString number ∧
    margin.length = label.length ∧ before.length + 1 = column ∧
    (∀ c ∈ margin.toList ++ before.toList, c = ' ') ∧
    block =
      s!"  {p.cyan}{margin} |{p.reset}\n" ++
      s!"  {p.cyan}{label} |{p.reset} {String.ofList line}\n" ++
      s!"  {p.cyan}{margin} |{p.reset} {before}{p.red}^{p.reset}\n"

theorem toList_blanks (n : Nat) : (blanks n).toList = List.replicate n ' ' := String.toList_ofList

theorem length_blanks (n : Nat) : (blanks n).length = n := by
  rw [← String.length_toList, toList_blanks, List.length_replicate]

theorem quotes_quote (p : Palette) (number : Nat) {column : Nat} (hcolumn : 1 ≤ column)
    (line : List Char) : Quotes p number column line (quote p number column line) := by
  refine ⟨toString number, blanks (toString number).length, blanks (column - 1), rfl,
    length_blanks _, ?_, ?_, rfl⟩
  · rw [length_blanks, Nat.sub_add_cancel hcolumn]
  · rw [toList_blanks, toList_blanks]
    exact List.forall_mem_append.2 ⟨fun _ => List.eq_of_mem_replicate,
      fun _ => List.eq_of_mem_replicate⟩

example : quote .plain 12 5 "  Copy(x q)".toList =
    "     |\n  12 |   Copy(x q)\n     |     ^\n" := by decide +kernel

variable {d : Diagnostic} {position : Position}

theorem renderWith_some (hposition : d.position = some position) (p : Palette) (source : String) :
    d.renderWith p (some source) = d.renderWith p none ++
      (((linesOf source.toList)[position.line - 1]?).map
        (quote p position.line position.column)).getD "" := by
  rw [renderWith, renderWith, hposition]
  simp

-- there is no line behind the last line feed
example : render ⟨.endOfText, "Unexpected end of text.", some ⟨"main", 2, 1⟩⟩ (some "Arts \x7b\n") =
    "Unexpected end of file: Unexpected end of text.\n  --> main:2:1\n" := by decide +kernel

end Diagnostic

/-! ## 3. Positions in texts -/

/-- A position is one in a text: lines count from one, and there is one more of them than there are
    line feeds; columns count from one, and there is one more of them than the line has
    characters. -/
structure Position.PointsInto (p : Position) (text : String) : Prop where
  line_pos : 1 ≤ p.line
  line_le : p.line ≤ text.toList.count '\n' + 1
  column_pos : 1 ≤ p.column
  column_le : ∃ line, (pieces '\n' text.toList)[p.line - 1]? = some line ∧
    p.column ≤ line.length + 1

/-- A position is that of the end of a text which has no character or ends with a line feed. -/
structure Position.EndsEmpty (p : Position) (text : String) : Prop where
  line : p.line = text.toList.count '\n' + 1
  column : p.column = 1
  ended : text = "" ∨ text.toList.getLast? = some '\n'

namespace Cursor

variable {c : Cursor} {text : IncludedText}

/-- The line of a place is what is passed of it and what is left of it. -/
theorem Within.line_eq (h : c.Within text) : ∃ passed, text.text.toList = passed ++ c.rest ∧
    c.place = ⟨passed.count '\n' + 1, (passed.rtakeWhile (· != '\n')).length + 1⟩ ∧
    (pieces '\n' text.text.toList)[c.place.line - 1]? =
      some (passed.rtakeWhile (· != '\n') ++ c.rest.takeWhile (· != '\n')) := by
  obtain ⟨passed, htext, hplace⟩ := h.passed
  have htext : text.text.toList = passed ++ c.rest := htext
  have hplace : c.place = Place.afterAll {} passed := hplace
  rw [Place.afterAll_eq] at hplace
  refine ⟨passed, htext, hplace, ?_⟩
  rw [hplace, Nat.add_sub_cancel, htext, getElem?_pieces]

theorem Within.pointsInto (h : c.Within text) : c.position.PointsInto text.text := by
  obtain ⟨passed, htext, hplace, hline⟩ := h.line_eq
  refine ⟨?_, ?_, ?_, _, hline, ?_⟩
  · rw [position, hplace]
    exact Nat.le_add_left 1 _
  · rw [position, hplace, htext, List.count_append]
    exact Nat.succ_le_succ (Nat.le_add_right _ _)
  · rw [position, hplace]
    exact Nat.le_add_left 1 _
  · rw [position, hplace, List.length_append]
    exact Nat.succ_le_succ (Nat.le_add_right _ _)

/-- A place whose line is not among the lines of the text is the end of the text. -/
theorem Within.endsEmpty (h : c.Within text)
    (hnone : (Diagnostic.linesOf text.text.toList)[c.place.line - 1]? = none) :
    c.position.EndsEmpty text.text := by
  obtain ⟨passed, htext, hplace, hline⟩ := h.line_eq
  obtain ⟨hcount, hempty⟩ := Diagnostic.piece_of_unlisted hline hnone
  obtain ⟨hpassed, hleft⟩ := List.append_eq_nil_iff.1 hempty
  rw [hplace, Nat.add_sub_cancel, htext, List.count_append] at hcount
  -- no line feed is left, so all that is left is in the line, which is empty
  have hrest : c.rest = [] := by
    have hfeed : '\n' ∉ c.rest := List.count_eq_zero.1 (by omega)
    rwa [List.takeWhile_eq_self_iff.2] at hleft
    intro ch hch
    exact bne_iff_ne.2 (ne_of_mem_of_not_mem hch hfeed)
  rw [hrest, List.append_nil] at htext
  refine ⟨?_, ?_, ?_⟩
  · rw [position, hplace, htext]
  · rw [position, hplace, hpassed, List.length_nil]
  · rw [htext]
    by_cases hnil : passed = []
    · exact .inl (String.toList_eq_nil_iff.1 (htext.trans hnil))
    · have hlast := List.rtakeWhile_eq_nil_iff.1 hpassed hnil
      rw [List.getLast?_eq_some_getLast hnil]
      exact .inr (congrArg some (by simpa using hlast))

end Cursor

/-! ## 4. Faults of scripts -/

namespace Reading

variable {ctx : Context} {w : Workspace} {file source : String} {f : Fault}

/-- A fault is reported at a place of one of the texts that are read. -/
theorem place_of_parse_error (h : parse ctx file source = .error f) : ∃ text c,
    ReadFrom ctx file source text ∧ Cursor.Within text c ∧ c.position = f.position := by
  obtain ⟨t, ht⟩ := parse_eq_error_iff.1 h
  rcases script_stops ht with hhere | ⟨terminator, u, hu, -, hmarked, -⟩
  · obtain ⟨c, hc, hposition⟩ := hhere.marked
    exact ⟨_, c, .inl rfl, (Cursor.within_start ⟨file, source⟩).trans hc, hposition⟩
  · obtain ⟨text, htext, hfresh⟩ := hu.fresh
    obtain ⟨c, hc, hposition⟩ := hmarked
    exact ⟨text, c, htext, hfresh.within.trans hc, hposition⟩

/-- A report points into one of the texts, and its renderings with that text show where: they quote
    the line of the position if the text has as many lines. -/
structure ShownIn (texts : List (String × String)) (file source : String) (d : Diagnostic)
    (position : Position) (text : String) : Prop where
  reported : d.position = some position
  served : fileText? texts file source position.file = some text
  points : position.PointsInto text
  quoted : position.line ≤ (Diagnostic.linesOf text.toList).length →
    ∃ line, (Diagnostic.linesOf text.toList)[position.line - 1]? = some line ∧
      ∀ p, ∃ block, d.renderWith p (some text) = d.renderWith p none ++ block ∧
        Diagnostic.Quotes p position.line position.column line block
  unquoted : (Diagnostic.linesOf text.toList).length < position.line →
    position.EndsEmpty text ∧ ∀ p, d.renderWith p (some text) = d.renderWith p none

/-- With texts that are kept in memory, every fault is reported in the script or in one of the texts
    and is rendered on the right line of it. -/
theorem faults_shown {texts : List (String × String)} {settings : Settings}
    (h : parse ⟨w, .ofList texts, settings⟩ file source = .error f) :
    ∃ text, ShownIn texts file source f.diagnostic f.position text := by
  obtain ⟨text, c, htext, hc, hposition⟩ := place_of_parse_error h
  have hfile : f.position.file = text.name := by
    rw [← hposition]
    exact hc.file
  have hpoints : f.position.PointsInto text.text := hposition ▸ hc.pointsInto
  have hreported : f.diagnostic.position = some f.position := rfl
  refine ⟨text.text, hreported, ?_, hpoints, fun hlines => ?_, fun hlines => ?_⟩
  · rw [hfile]
    exact fileText?_of_readFrom htext
  · have hlt : f.position.line - 1 < (Diagnostic.linesOf text.text.toList).length :=
      Nat.sub_one_lt_of_le hpoints.line_pos hlines
    refine ⟨_, List.getElem?_eq_getElem hlt, fun p => ⟨_, ?_,
      Diagnostic.quotes_quote p _ hpoints.column_pos _⟩⟩
    rw [Diagnostic.renderWith_some hreported, List.getElem?_eq_getElem hlt]
    rfl
  · have hnone : (Diagnostic.linesOf text.text.toList)[f.position.line - 1]? = none :=
      List.getElem?_eq_none (Nat.le_sub_one_of_lt hlines)
    refine ⟨?_, fun p => ?_⟩
    · rw [← hposition] at hnone ⊢
      exact hc.endsEmpty hnone
    · rw [Diagnostic.renderWith_some hreported, hnone]
      exact String.append_empty

/-- The fault of an included text is shown in that text, behind a line that ends with a carriage
    return and a line feed. -/
theorem faults_shown_included : ∃ f,
    parse ⟨.small, .ofList [("part", "Copy(x, y)\r\n  Copy(x q)\r\n")], {}⟩ "main"
      "Arts \x7b\n  INCLUDE \"part\" \x7d" = .error f ∧
    f.position = ⟨"part", 2, 10⟩ ∧
    ∃ text, ShownIn [("part", "Copy(x, y)\r\n  Copy(x q)\r\n")] "main"
      "Arts \x7b\n  INCLUDE \"part\" \x7d" f.diagnostic f.position text := by
  have hread := (@rejectsWith_iff
    ⟨.small, .ofList [("part", "Copy(x, y)\r\n  Copy(x q)\r\n")], {}⟩ "main"
    "Arts \x7b\n  INCLUDE \"part\" \x7d"
    ⟨.unexpected (.character ',') 'q', ⟨"part", 2, 10⟩⟩).1 (by decide +kernel)
  exact ⟨_, hread, rfl, faults_shown hread⟩

end Reading

end ControlScript
