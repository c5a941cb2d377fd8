import ControlScript.Pieces
import ControlScript.Position
import Mathlib.Data.List.DropRight

/-!
# Lines of a text

Where a place in a text is, in terms of the text: the line counts the line feeds in front of the
place, and the column counts the characters behind the last of them.  So the place is in the piece
of that number, behind as many characters of it.
-/

namespace ControlScript

/-! ## 1. Pieces -/

section Pieces

variable {separator : Char}

theorem pieces_ne_nil (text : List Char) : pieces separator text ≠ [] := by
  cases text with
  | nil => exact List.cons_ne_nil _ _
  | cons c text =>
    rw [pieces, List.foldr_cons]
    split
    · exact List.cons_ne_nil _ _
    · split
      · exact List.cons_ne_nil _ _
      · exact List.cons_ne_nil _ _

theorem pieces_separator (text : List Char) :
    pieces separator (separator :: text) = [] :: pieces separator text := by
  rw [pieces, List.foldr_cons, if_pos rfl, pieces]

/-- A character that is no separator goes on with the first piece. -/
theorem pieces_cons {c : Char} (hc : c ≠ separator) {text piece : List Char}
    {others : List (List Char)} (h : pieces separator text = piece :: others) :
    pieces separator (c :: text) = (c :: piece) :: others := by
  rw [pieces] at h ⊢
  rw [List.foldr_cons, if_neg hc, h]

theorem pieces_append (front text : List Char) :
    pieces separator (front ++ separator :: text)
      = pieces separator front ++ pieces separator text := by
  induction front with
  | nil => exact pieces_separator text
  | cons c front ih =>
    obtain ⟨piece, others, hfront⟩ := List.exists_cons_of_ne_nil (pieces_ne_nil front)
    rw [hfront] at ih
    by_cases hc : c = separator
    · rw [hc, List.cons_append, pieces_separator, pieces_separator, ih, hfront]
      rfl
    · rw [List.cons_append, pieces_cons hc ih, pieces_cons hc hfront]
      rfl

theorem length_pieces (text : List Char) :
    (pieces separator text).length = text.count separator + 1 := by
  induction text with
  | nil => rfl
  | cons c text ih =>
    by_cases hc : c = separator
    · rw [hc, pieces_separator, List.length_cons, ih, List.count_cons_self]
    · obtain ⟨piece, others, htext⟩ := List.exists_cons_of_ne_nil (pieces_ne_nil text)
      rw [pieces_cons hc htext, List.count_cons_of_ne hc, ← ih, htext, List.length_cons,
        List.length_cons]

theorem head?_pieces (text : List Char) :
    (pieces separator text).head? = some (text.takeWhile (· != separator)) := by
  induction text with
  | nil => rfl
  | cons c text ih =>
    by_cases hc : c = separator
    · rw [hc, pieces_separator, List.takeWhile_cons_of_neg (by simp)]
      rfl
    · obtain ⟨piece, others, htext⟩ := List.exists_cons_of_ne_nil (pieces_ne_nil text)
      rw [htext, List.head?_cons, Option.some.injEq] at ih
      rw [pieces_cons hc htext, List.takeWhile_cons_of_pos (by simpa using hc), ← ih]
      rfl

/-- The piece that a text is cut in between two characters. -/
theorem getElem?_pieces (front text : List Char) :
    (pieces separator (front ++ text))[front.count separator]? =
      some (front.rtakeWhile (· != separator) ++ text.takeWhile (· != separator)) := by
  induction front using List.reverseRecOn generalizing text with
  | nil => rw [List.count_nil, List.nil_append, ← List.head?_eq_getElem?, head?_pieces]; rfl
  | append_singleton front c ih =>
    rw [List.append_assoc, List.singleton_append, List.count_append]
    by_cases hc : c = separator
    · -- the piece behind the separator is the first one of the rest
      rw [hc, pieces_append, List.count_singleton_self, ← length_pieces,
        List.getElem?_append_right (Nat.le_refl _), Nat.sub_self, ← List.head?_eq_getElem?,
        head?_pieces, List.rtakeWhile_concat, if_neg (by simp)]
      rfl
    · rw [List.count_singleton, if_neg (by simpa using hc), Nat.add_zero, ih,
        List.takeWhile_cons_of_pos (by simpa using hc),
        List.rtakeWhile_concat, if_pos (by simpa using hc), List.append_assoc,
        List.singleton_append]

end Pieces

/-! ## 2. Places -/

namespace Place

/-- One place is in front of another one. -/
def Before (p q : Place) : Prop := p.line < q.line ∨ p.line = q.line ∧ p.column < q.column

variable {p q r : Place}

theorem Before.trans (h : p.Before q) (h' : q.Before r) : p.Before r := by
  unfold Before at *
  omega

theorem before_after (p : Place) (c : Char) : p.Before (p.after c) := by
  rw [after]
  split
  · exact .inl (Nat.lt_succ_self _)
  · exact .inr ⟨rfl, Nat.lt_succ_self _⟩

theorem before_afterAll {run : List Char} (h : run ≠ []) (p : Place) :
    p.Before (p.afterAll run) := by
  induction run generalizing p with
  | nil => exact absurd rfl h
  | cons c run ih =>
    rw [afterAll_cons]
    by_cases hrun : run = []
    · rw [hrun]
      exact p.before_after c
    · exact (p.before_after c).trans (ih hrun _)

/-- A place counts the line feeds in front of it, and the characters behind the last of them. -/
theorem afterAll_eq (passed : List Char) : Place.afterAll {} passed =
    ⟨passed.count '\n' + 1, (passed.rtakeWhile (· != '\n')).length + 1⟩ := by
  induction passed using List.reverseRecOn with
  | nil => rfl
  | append_singleton passed c ih =>
    rw [afterAll_append, ih, List.count_append]
    by_cases hc : c = '\n'
    · rw [hc, List.rtakeWhile_concat, if_neg (by simp)]
      rfl
    · rw [List.count_singleton, if_neg (by simpa using hc),
        List.rtakeWhile_concat, if_pos (by simpa using hc), List.length_append]
      show Place.after _ c = _
      rw [after, if_neg hc]
      rfl

end Place

end ControlScript
