import ControlScript.Proofs.Token

/-!
# Scans of numbers

Numbers are read part by part: sign, digits, fraction and exponent.  A number never goes on in the
next line, so behind each part the scan looks whether the line has ended, and that is the only place
where a number can be complete although a part could still follow.
-/

namespace ControlScript

open Grammar

/-! ## 1. Numbers as phrases -/

namespace Grammar

theorem head?_append_of_ne_nil {α : Type} {s : List α} (hne : s ≠ []) (t : List α) :
    (s ++ t).head? = s.head? := by
  cases s with
  | nil => exact absurd rfl hne
  | cons a s => rfl

/-- What may stand at the beginning of a number: a digit, a point or a sign. -/
def BeginsNumber (c : Char) : Prop := c.isDigit = true ∨ c = '.' ∨ c = '+' ∨ c = '-'

theorem isDigit_not_blank {c : Char} (h : c.isDigit = true) :
    Scan.isBlank c = false ∧ c ≠ '#' := by
  refine isBlank_of_isNameChar ?_
  simp [Scan.isNameChar, Char.isAlphanum, h]

theorem BeginsNumber.solid {c : Char} (h : BeginsNumber c) (text : List Char) :
    trim (c :: text) = c :: text := by
  rcases h with h | rfl | rfl | rfl
  · exact trim_solid (isDigit_not_blank h).1 (isDigit_not_blank h).2 text
  · exact trim_solid (by decide) (by decide) text
  · exact trim_solid (by decide) (by decide) text
  · exact trim_solid (by decide) (by decide) text

theorem beginsNumber_sign (sign : Sign) : BeginsNumber sign.char := by
  cases sign with
  | plus => exact .inr (.inr (.inl rfl))
  | minus => exact .inr (.inr (.inr rfl))

end Grammar

theorem WholeNumeral.WellFormed.head {n : WholeNumeral} (h : n.WellFormed) :
    ∃ c t, n.chars = c :: t ∧ BeginsNumber c := by
  obtain ⟨c, t, ht⟩ := List.exists_cons_of_ne_nil h.nonempty
  rw [WholeNumeral.chars]
  cases n.sign with
  | none => exact ⟨c, t, ht, .inl (h.digits c (ht ▸ List.mem_cons_self))⟩
  | some sign => exact ⟨sign.char, n.digits, rfl, beginsNumber_sign sign⟩

theorem DecimalNumeral.WellFormed.head {n : DecimalNumeral} (h : n.WellFormed) :
    ∃ c t, n.chars = c :: t ∧ BeginsNumber c := by
  rw [DecimalNumeral.chars]
  cases n.sign with
  | some sign => exact ⟨sign.char, _, rfl, beginsNumber_sign sign⟩
  | none =>
    cases hwhole : n.whole with
    | cons c t => exact ⟨c, _, rfl, .inl (h.whole c (hwhole ▸ List.mem_cons_self))⟩
    | nil =>
      -- without digits in front of it there is a point, since there are digits behind it
      cases hfraction : n.fraction with
      | none => exact absurd h.nonempty (by simp [hwhole, hfraction])
      | some fraction => exact ⟨'.', _, rfl, .inr (.inl rfl)⟩

namespace Grammar

theorem wholeText_solid : Phrase.Solid WholeText := by
  intro text rest n h
  obtain ⟨c, t, ht, hc⟩ := h.wellFormed.head
  rw [h.spelled, ht]
  exact hc.solid _

theorem wholeText_proper : Phrase.Proper WholeText := by
  intro text rest n h
  obtain ⟨c, t, ht, -⟩ := h.wellFormed.head
  exact ⟨c, t, by rw [h.spelled, ht, List.cons_append]⟩

theorem decimalText_solid : Phrase.Solid DecimalText := by
  intro text rest n h
  obtain ⟨c, t, ht, hc⟩ := h.wellFormed.head
  rw [h.spelled, ht]
  exact hc.solid _

theorem decimalText_proper : Phrase.Proper DecimalText := by
  intro text rest n h
  obtain ⟨c, t, ht, -⟩ := h.wellFormed.head
  exact ⟨c, t, by rw [h.spelled, ht, List.cons_append]⟩

end Grammar

namespace Scan

variable {c c' : Cursor}

/-! ## 2. Signs and whole numbers -/

theorem sign?_eq_ok_iff {sign : Option Sign} : Literal.sign? c = .ok sign c' ↔
    sign = c.rest.head?.bind Sign.ofChar? ∧
      (sign = none ∧ c' = c ∨ sign ≠ none ∧ ¬ c.advance.lineBreak = true ∧ c' = c.advance) := by
  simp only [Literal.sign?, bind_eq_ok_iff, peek_eq_ok_iff, and_assoc, exists_and_left,
    exists_eq_left]
  cases c.rest.head?.bind Sign.ofChar? with
  | none => simp only [pure_eq_ok_iff]; grind
  | some found =>
    simp only [bind_eq_ok_iff, position_eq_ok_iff, advance_eq_ok_iff, lineBroken_eq_ok_iff,
      check_eq_ok_iff, pure_eq_ok_iff, and_assoc, exists_and_left, exists_eq_left, exists_const]
    grind

theorem sign_of_ok {sign : Option Sign} (h : Literal.sign? c = .ok sign c') :
    c.rest = sign.toList.map Sign.char ++ c'.rest := by
  obtain ⟨hsign, ⟨rfl, rfl⟩ | ⟨hsome, hbreak, rfl⟩⟩ := sign?_eq_ok_iff.1 h
  · rfl
  · obtain ⟨found, rfl⟩ := Option.ne_none_iff_exists'.1 hsome
    obtain ⟨ch, hch, hfound⟩ := Option.bind_eq_some_iff.1 hsign.symm
    obtain ⟨t, ht⟩ := List.head?_eq_some_iff.1 hch
    obtain rfl := Sign.ofChar?_eq_some_iff.1 hfound
    have hline : found.char ≠ '\n' := by cases found <;> decide
    rw [ht, (Cursor.behind_advance ht hline).rest_of_not hbreak]
    rfl

/-- A sign is read when neither another sign nor the end of the line stands behind it. -/
theorem exists_sign {sign : Option Sign} {t : List Char}
    (h : c.rest = sign.toList.map Sign.char ++ t)
    (hhead : ∃ ch ∈ t.head?, ch.isDigit = true ∨ ch = '.') :
    ∃ c', Literal.sign? c = .ok sign c' ∧ c'.rest = t := by
  obtain ⟨ch, hmem, hch⟩ := hhead
  rw [Option.mem_def] at hmem
  have hline : ch ≠ '\n' := by rintro rfl; revert hch; decide
  have hnone : Sign.ofChar? ch = none := by
    cases hsign : Sign.ofChar? ch with
    | none => rfl
    | some found =>
      obtain rfl := Sign.ofChar?_eq_some_iff.1 hsign
      cases found <;> exact absurd hch (by decide)
  cases sign with
  | none =>
    refine ⟨c, sign?_eq_ok_iff.2 ⟨?_, .inl ⟨rfl, rfl⟩⟩, h⟩
    rw [h, Option.toList_none, List.map_nil, List.nil_append, hmem, Option.bind_some, hnone]
  | some found =>
    have hspelled : c.rest = found.char :: t := h
    have hbehind := Cursor.behind_advance hspelled (by cases found <;> decide)
    have hbreak : ¬ c.advance.lineBreak = true := by
      rw [hbehind.lineBreak_eq, hmem, beq_iff_eq]
      exact fun heq => hline (Option.some.inj heq)
    refine ⟨_, sign?_eq_ok_iff.2 ⟨?_, .inr ⟨by simp, hbreak, rfl⟩⟩, hbehind.rest_of_not hbreak⟩
    rw [h]
    exact (Sign.ofChar?_eq_some_iff.2 rfl).symm

theorem wholeNumeral_eq_ok_iff {n : WholeNumeral} : Literal.wholeNumeral c = .ok n c' ↔
    ∃ u ch, Literal.sign? c = .ok n.sign u ∧ u.rest.head? = some ch ∧ ch.isDigit = true ∧
      Literal.digits u = .ok n.digits c' := by
  simp only [Literal.wholeNumeral, bind_eq_ok_iff, current_eq_ok_iff, failing_eq_ok_iff,
    pure_eq_ok_iff, Bool.not_eq_true', Bool.not_eq_false, and_assoc]
  constructor
  · rintro ⟨sign, _, hsign, ch, u, hch, rfl, hdigit, digits, _, hdigits, rfl, rfl⟩
    exact ⟨u, ch, hsign, hch, hdigit, hdigits⟩
  · rintro ⟨u, ch, hsign, hch, hdigit, hdigits⟩
    exact ⟨n.sign, u, hsign, ch, u, hch, rfl, hdigit, n.digits, c', hdigits, rfl, rfl⟩

theorem wholeNumeral_reads : Reads Literal.wholeNumeral WholeText where
  sound := by
    intro c n c' h
    obtain ⟨u, ch, hsign, hch, hdigit, hdigits⟩ := wholeNumeral_eq_ok_iff.1 h
    obtain ⟨t, ht⟩ := List.head?_eq_some_iff.1 hch
    have hne : n.digits ≠ [] := by
      rw [(takeWhile_eq_ok_iff.1 hdigits).1, ht, List.takeWhile_cons_of_pos hdigit]
      exact List.cons_ne_nil _ _
    obtain ⟨rest, hrun, hbehind⟩ := behind_of_takeWhile (by decide) hdigits hne
    refine ⟨rest, ⟨?_, ⟨hrun.all, hne⟩, hrun.stops⟩, hbehind.rest_eq⟩
    rw [sign_of_ok hsign, hrun.spelled, WholeNumeral.chars, List.append_assoc]
  complete := by
    intro c rest n h
    obtain ⟨ch, t, ht⟩ := List.exists_cons_of_ne_nil h.wellFormed.nonempty
    have hdigit : ch.isDigit = true := h.wellFormed.digits ch (ht ▸ List.mem_cons_self)
    have hhead : (n.digits ++ rest).head? = some ch := by rw [ht]; rfl
    have hspelled := h.spelled
    rw [WholeNumeral.chars, List.append_assoc] at hspelled
    obtain ⟨u, hsign, hu⟩ := exists_sign hspelled ⟨ch, hhead, .inl hdigit⟩
    have hrun : Run Char.isDigit u.rest rest n.digits := ⟨hu, h.wellFormed.digits, h.stops⟩
    obtain ⟨hread, hrest⟩ := takeWhile_of_run hrun h.wellFormed.nonempty
    exact ⟨_, wholeNumeral_eq_ok_iff.2 ⟨u, ch, hsign, hu ▸ hhead, hdigit, hread⟩, hrest⟩

/-! ## 3. Fractions and exponents -/

/-- The spelling of a fraction, with its point. -/
def fractionChars (fraction : Option (List Char)) : List Char :=
  (fraction.map ('.' :: ·)).getD []

/-- The spelling of an exponent, with its mark. -/
def exponentChars (exponent : Option (Char × WholeNumeral)) : List Char :=
  (exponent.map fun (marker, e) => marker :: e.chars).getD []

theorem chars_eq_append (n : DecimalNumeral) : n.chars =
    n.sign.toList.map Sign.char ++ (n.whole ++ (fractionChars n.fraction
      ++ exponentChars n.exponent)) := by
  rw [DecimalNumeral.chars, List.append_assoc, List.append_assoc]
  rfl

theorem fraction?_none {whole : List Char} (h : c.rest.head? ≠ some '.') :
    Literal.fraction? whole c = .ok none c := by
  rw [Literal.fraction?, bind_eq_ok_iff]
  exact ⟨_, _, peek_eq_ok_iff.2 ⟨rfl, rfl⟩, by rw [if_pos h, pure_eq_ok_iff]; exact ⟨rfl, rfl⟩⟩

theorem fraction?_some_iff {whole rest : List Char} {fraction : Option (List Char)}
    (h : c.rest = '.' :: rest) : Literal.fraction? whole c = .ok fraction c' ↔
      (c.advance.lineBreak = true ∧ whole ≠ [] ∧ fraction = some [] ∧ c' = c.advance) ∨
        (¬ c.advance.lineBreak = true ∧
          ∃ found, Literal.digits c.advance = .ok found c' ∧ fraction = some found) := by
  simp only [Literal.fraction?, bind_eq_ok_iff, peek_eq_ok_iff, position_eq_ok_iff,
    advance_eq_ok_iff, lineBroken_eq_ok_iff, and_assoc, exists_and_left, exists_eq_left, h,
    List.head?_cons, ne_eq, not_true_eq_false, if_false, exists_const]
  by_cases hbreak : c.advance.lineBreak = true
  · by_cases hwhole : whole = []
    · simp [hbreak, hwhole]
    · simp [hbreak, hwhole]
  · simp [hbreak]

/-- What has been read of a number up to its exponent: the cursor stands behind the fraction or,
    if there is none, in front of something that is no point. -/
theorem fraction_of_ok {whole : List Char} {fraction : Option (List Char)}
    (h : Literal.fraction? whole c = .ok fraction c') :
    (fraction = none ∧ c' = c ∧ c.rest.head? ≠ some '.') ∨
      ∃ found rest, fraction = some found ∧ c.rest = '.' :: (found ++ rest) ∧
        (∀ ch ∈ found, ch.isDigit = true) ∧ (∀ ch ∈ rest.head?, ch.isDigit = false) ∧
        c'.Behind rest ∧ (c'.lineBreak = true → whole ≠ [] ∨ found ≠ []) := by
  by_cases hpoint : c.rest.head? = some '.'
  · obtain ⟨t, ht⟩ := List.head?_eq_some_iff.1 hpoint
    have hbehind := Cursor.behind_advance ht (by decide)
    right
    rcases (fraction?_some_iff ht).1 h with ⟨hbreak, hwhole, rfl, rfl⟩ | ⟨hbreak, found, hread, rfl⟩
    · refine ⟨[], t, rfl, ht, by simp, ?_, hbehind, fun _ => .inl hwhole⟩
      rw [hbehind.lineBreak_eq, beq_iff_eq] at hbreak
      rw [hbreak]
      simp
    · obtain ⟨rfl, rfl⟩ := takeWhile_eq_ok_iff.1 hread
      obtain rfl := hbehind.rest_of_not hbreak
      have hrun := run_takeWhile Char.isDigit c.advance.rest
      have hline : '\n' ∉ c.advance.rest.takeWhile Char.isDigit := fun hmem =>
        absurd (hrun.all _ hmem) (by decide)
      refine ⟨_, _, rfl, hrun.spelled ▸ ht, hrun.all, hrun.stops, ?_, fun hbroken => ?_⟩
      · exact (hrun.spelled ▸ hbehind).past hbreak hline
      · refine .inr fun hnil => hbreak ?_
        rwa [hnil] at hbroken
  · rw [fraction?_none hpoint, EStateM.Result.ok.injEq] at h
    exact .inl ⟨h.1.symm, h.2.symm, hpoint⟩

/-- A fraction is read together with its point; behind it there may be the end of the line, if there
    is a digit in the number. -/
theorem exists_fraction {whole found rest : List Char} (h : c.rest = '.' :: (found ++ rest))
    (hall : ∀ ch ∈ found, ch.isDigit = true) (hstops : ∀ ch ∈ rest.head?, ch.isDigit = false)
    (hne : whole ≠ [] ∨ found ≠ []) :
    ∃ c', Literal.fraction? whole c = .ok (some found) c' ∧ c'.Behind rest := by
  have hbehind := Cursor.behind_advance h (by decide)
  by_cases hbreak : c.advance.lineBreak = true
  · have hhead : (found ++ rest).head? = some '\n' := by
      rwa [hbehind.lineBreak_eq, beq_iff_eq] at hbreak
    have hnil : found = [] := by
      cases found with
      | nil => rfl
      | cons ch found =>
        obtain rfl : ch = '\n' := Option.some.inj hhead
        exact absurd (hall _ List.mem_cons_self) (by decide)
    subst hnil
    have hwhole : whole ≠ [] := hne.resolve_right (by simp)
    exact ⟨_, (fraction?_some_iff h).2 (.inl ⟨hbreak, hwhole, rfl, rfl⟩), hbehind⟩
  · have hrun : Run Char.isDigit c.advance.rest rest found :=
      ⟨hbehind.rest_of_not hbreak, hall, hstops⟩
    have hread := takeWhile_eq_ok_iff.2 ⟨hrun.eq_takeWhile.1, rfl⟩
    refine ⟨_, (fraction?_some_iff h).2 (.inr ⟨hbreak, found, hread, rfl⟩), ?_⟩
    exact hbehind.past hbreak fun hmem => absurd (hall _ hmem) (by decide)

theorem exponent?_none (h : ∀ ch ∈ c.rest.head?, ch ≠ 'e' ∧ ch ≠ 'E') :
    Literal.exponent? c = .ok none c := by
  rw [Literal.exponent?, bind_eq_ok_iff]
  refine ⟨_, _, peek_eq_ok_iff.2 ⟨rfl, rfl⟩, ?_⟩
  cases hhead : c.rest.head? with
  | none => simp
  | some ch => simp [h ch hhead]

theorem exponent?_some_iff {mark : Char} {rest : List Char}
    {exponent : Option (Char × WholeNumeral)} (h : c.rest = mark :: rest)
    (hmark : mark = 'e' ∨ mark = 'E') : Literal.exponent? c = .ok exponent c' ↔
      ¬ c.advance.lineBreak = true ∧
        ∃ e, Literal.wholeNumeral c.advance = .ok e c' ∧ exponent = some (mark, e) := by
  have hnot : ¬ (mark ≠ 'e' ∧ mark ≠ 'E') := by rcases hmark with rfl | rfl <;> simp
  rw [Literal.exponent?, bind_eq_ok_iff]
  simp only [peek_eq_ok_iff, and_assoc, exists_and_left, exists_eq_left, h, List.head?_cons,
    if_neg hnot, bind_eq_ok_iff, position_eq_ok_iff, advance_eq_ok_iff, lineBroken_eq_ok_iff,
    check_eq_ok_iff, pure_eq_ok_iff, exists_const]
  grind

theorem exponent_of_ok {exponent : Option (Char × WholeNumeral)}
    (h : Literal.exponent? c = .ok exponent c') :
    (exponent = none ∧ c' = c ∧ ∀ ch ∈ c.rest.head?, ch ≠ 'e' ∧ ch ≠ 'E') ∨
      ∃ mark e rest, exponent = some (mark, e) ∧ (mark = 'e' ∨ mark = 'E') ∧
        c.rest = mark :: (e.chars ++ rest) ∧ e.WellFormed ∧
        (∀ ch ∈ rest.head?, ch.isDigit = false) ∧ c'.rest = dropFeeds rest := by
  by_cases hmark : ∃ mark ∈ c.rest.head?, mark = 'e' ∨ mark = 'E'
  · obtain ⟨mark, hhead, hmark⟩ := hmark
    obtain ⟨t, ht⟩ := List.head?_eq_some_iff.1 hhead
    obtain ⟨hbreak, e, hread, rfl⟩ := (exponent?_some_iff ht hmark).1 h
    have hline : mark ≠ '\n' := by rcases hmark with rfl | rfl <;> decide
    obtain ⟨rest, hwhole, hrest⟩ := wholeNumeral_reads.sound hread
    have hspelled := hwhole.spelled
    rw [(Cursor.behind_advance ht hline).rest_of_not hbreak] at hspelled
    exact .inr ⟨mark, e, rest, rfl, hmark, hspelled ▸ ht, hwhole.wellFormed, hwhole.stops, hrest⟩
  · have hnone : ∀ ch ∈ c.rest.head?, ch ≠ 'e' ∧ ch ≠ 'E' := fun ch hch =>
      ⟨fun heq => hmark ⟨ch, hch, .inl heq⟩, fun heq => hmark ⟨ch, hch, .inr heq⟩⟩
    rw [exponent?_none hnone, EStateM.Result.ok.injEq] at h
    exact .inl ⟨h.1.symm, h.2.symm, hnone⟩

/-- An exponent is read together with its mark; without an exponent, the cursor is not in front of
    line feeds. -/
theorem exists_exponent {exponent : Option (Char × WholeNumeral)} {rest : List Char}
    (h : c.rest = exponentChars exponent ++ rest)
    (hall : ∀ mark e, exponent = some (mark, e) → (mark = 'e' ∨ mark = 'E') ∧ e.WellFormed)
    (hstops : ∀ ch ∈ rest.head?, ch.isDigit = false)
    (hnone : exponent = none → rest.head? ≠ some '\n' ∧ ∀ ch ∈ rest.head?, ch ≠ 'e' ∧ ch ≠ 'E') :
    ∃ c', Literal.exponent? c = .ok exponent c' ∧ c'.rest = dropFeeds rest := by
  cases exponent with
  | none =>
    obtain ⟨hfeeds, hmark⟩ := hnone rfl
    have hrest : c.rest = rest := h
    exact ⟨c, exponent?_none (hrest ▸ hmark), by rw [hrest, dropFeeds_of_head? hfeeds]⟩
  | some found =>
    obtain ⟨mark, e⟩ := found
    obtain ⟨hmark, hwell⟩ := hall mark e rfl
    have hspelled : c.rest = mark :: (e.chars ++ rest) := h
    have hline : mark ≠ '\n' := by rcases hmark with rfl | rfl <;> decide
    have hbehind := Cursor.behind_advance hspelled hline
    obtain ⟨ch, t, ht, hch⟩ := hwell.head
    have hbreak : ¬ c.advance.lineBreak = true := by
      rw [hbehind.lineBreak_eq, ht, beq_iff_eq]
      intro heq
      obtain rfl : ch = '\n' := Option.some.inj heq
      revert hch
      simp [BeginsNumber]
    have htext : WholeText c.advance.rest rest e := ⟨hbehind.rest_of_not hbreak, hwell, hstops⟩
    obtain ⟨c', hread, hrest⟩ := wholeNumeral_reads.complete htext
    exact ⟨c', (exponent?_some_iff hspelled hmark).2 ⟨hbreak, e, hread, rfl⟩, hrest⟩

/-! ## 4. Decimal numbers -/

/-- A number is complete when the line ends behind its whole part or behind its fraction, and else
    when its exponent has been read. -/
theorem decimalNumeral_eq_ok_iff {n : DecimalNumeral} : Literal.decimalNumeral c = .ok n c' ↔
    ∃ u v, Literal.sign? c = .ok n.sign u ∧ Literal.digits u = .ok n.whole v ∧
      ((!n.whole.isEmpty && v.lineBreak) = true ∧ n.fraction = none ∧ n.exponent = none ∧ c' = v ∨
        ¬ (!n.whole.isEmpty && v.lineBreak) = true ∧
          ∃ w, Literal.fraction? n.whole v = .ok n.fraction w ∧
            ((n.fraction.isSome && w.lineBreak) = true ∧ n.exponent = none ∧ c' = w ∨
              ¬ (n.fraction.isSome && w.lineBreak) = true ∧
                ¬ (n.whole.isEmpty && (n.fraction.getD []).isEmpty) = true ∧
                Literal.exponent? w = .ok n.exponent c')) := by
  obtain ⟨sign, whole, fraction, exponent⟩ := n
  simp only [Literal.decimalNumeral, bind_eq_ok_iff, position_eq_ok_iff, lineBroken_eq_ok_iff,
    and_assoc, exists_and_left, exists_eq_left]
  constructor
  · rintro ⟨_, u, hsign, _, v, hwhole, h⟩
    -- a line break ends the number, behind its whole part here and behind its fraction below
    split at h
    · rename_i hbreak
      rw [pure_eq_ok_iff, DecimalNumeral.mk.injEq] at h
      obtain ⟨⟨rfl, rfl, rfl, rfl⟩, rfl⟩ := h
      exact ⟨u, hsign, _, hwhole, .inl ⟨hbreak, rfl, rfl, rfl⟩⟩
    rename_i hbreak
    simp only [bind_eq_ok_iff, lineBroken_eq_ok_iff, and_assoc, exists_and_left,
      exists_eq_left] at h
    obtain ⟨_, w, hfraction, h⟩ := h
    split at h
    · rename_i hbroken
      rw [pure_eq_ok_iff, DecimalNumeral.mk.injEq] at h
      obtain ⟨⟨rfl, rfl, rfl, rfl⟩, rfl⟩ := h
      exact ⟨u, hsign, v, hwhole, .inr ⟨hbreak, _, hfraction, .inl ⟨hbroken, rfl, rfl⟩⟩⟩
    rename_i hbroken
    rw [check_eq_ok_iff, bind_eq_ok_iff] at h
    obtain ⟨hdigit, _, _, hexponent, h⟩ := h
    rw [pure_eq_ok_iff, DecimalNumeral.mk.injEq] at h
    obtain ⟨⟨rfl, rfl, rfl, rfl⟩, rfl⟩ := h
    exact ⟨u, hsign, v, hwhole, .inr ⟨hbreak, w, hfraction, .inr ⟨hbroken, hdigit, hexponent⟩⟩⟩
  · rintro ⟨u, hsign, v, hwhole, h⟩
    refine ⟨sign, u, hsign, whole, v, hwhole, ?_⟩
    rcases h with ⟨hbreak, rfl, rfl, rfl⟩ | ⟨hbreak, w, hfraction, h⟩
    · rw [if_pos hbreak, pure_eq_ok_iff]
      exact ⟨rfl, rfl⟩
    rw [if_neg hbreak]
    simp only [bind_eq_ok_iff, lineBroken_eq_ok_iff, and_assoc, exists_and_left, exists_eq_left]
    refine ⟨fraction, w, hfraction, ?_⟩
    rcases h with ⟨hbroken, rfl, rfl⟩ | ⟨hbroken, hdigit, hexponent⟩
    · rw [if_pos hbroken, pure_eq_ok_iff]
      exact ⟨rfl, rfl⟩
    rw [if_neg hbroken, check_eq_ok_iff, bind_eq_ok_iff]
    exact ⟨hdigit, exponent, c', hexponent, pure_eq_ok_iff.2 ⟨rfl, rfl⟩⟩

/-- When the line does not end behind a fraction, the cursor is right behind it. -/
theorem fraction_of_unbroken {whole : List Char} {fraction : Option (List Char)}
    (h : Literal.fraction? whole c = .ok fraction c')
    (hbreak : ¬ (fraction.isSome && c'.lineBreak) = true)
    (hfeeds : fraction = none → c.rest.head? ≠ some '\n') :
    c.rest = fractionChars fraction ++ c'.rest ∧ (∀ ch ∈ fraction.getD [], ch.isDigit = true) ∧
      c'.rest.head? ≠ some '\n' ∧ (fraction = none → c' = c ∧ c.rest.head? ≠ some '.') ∧
      (fraction ≠ none → ∀ ch ∈ c'.rest.head?, ch.isDigit = false) := by
  rcases fraction_of_ok h with ⟨rfl, rfl, hpoint⟩ |
    ⟨found, rest, rfl, hrest, hall, hstops, hbehind, -⟩
  · exact ⟨rfl, by simp, hfeeds rfl, fun _ => ⟨rfl, hpoint⟩, fun hne => absurd rfl hne⟩
  · rw [Option.isSome_some, Bool.true_and] at hbreak
    have hc' := hbehind.rest_of_not hbreak
    rw [hc']
    exact ⟨hrest, hall, hbehind.head_ne hbreak, by simp, fun _ => hstops⟩

/-- What may follow a number when the line ends behind it: nothing that could continue it. -/
theorem stops_of_feed {n : DecimalNumeral} {rest : List Char} (hhead : rest.head? = some '\n') :
    ∀ ch ∈ rest.head?, ch.isDigit = false ∧ (n.fraction = none → n.exponent = none → ch ≠ '.') ∧
      (n.exponent = none → ch ≠ 'e' ∧ ch ≠ 'E') := by
  intro ch hch
  rw [hhead, Option.mem_some_iff] at hch
  subst hch
  exact ⟨by decide, fun _ _ => by decide, fun _ => by decide⟩

/-- Where digits do not end the line, the cursor is not in front of a line feed. -/
theorem head_ne_of_unbroken {digits : List Char} (h : Literal.digits c = .ok digits c')
    (hne : digits ≠ []) (hbreak : ¬ (!digits.isEmpty && c'.lineBreak) = true) :
    c'.rest.head? ≠ some '\n' := by
  obtain ⟨rest, -, hbehind⟩ := behind_of_takeWhile (by decide) h hne
  rw [List.isEmpty_eq_false_iff.2 hne, Bool.not_false, Bool.true_and] at hbreak
  rw [hbehind.rest_of_not hbreak]
  exact hbehind.head_ne hbreak

section Soundness

variable {n : DecimalNumeral} {u v : Cursor}

theorem spelled_of_sign {rest : List Char} (hsign : Literal.sign? c = .ok n.sign u)
    (h : u.rest = n.whole ++ (fractionChars n.fraction ++ (exponentChars n.exponent ++ rest))) :
    c.rest = n.chars ++ rest := by
  rw [sign_of_ok hsign, h, chars_eq_append]
  simp only [List.append_assoc]

/-- The number that has been read when the line ends behind its whole part. -/
theorem text_of_whole (hsign : Literal.sign? c = .ok n.sign u)
    (hwhole : Literal.digits u = .ok n.whole c')
    (hbreak : (!n.whole.isEmpty && c'.lineBreak) = true)
    (hfraction : n.fraction = none) (hexponent : n.exponent = none) :
    ∃ rest, DecimalText c.rest rest n ∧ c'.rest = dropFeeds rest := by
  rw [Bool.and_eq_true, Bool.not_eq_true', List.isEmpty_eq_false_iff] at hbreak
  obtain ⟨rest, hrun, hbehind⟩ := behind_of_takeWhile (by decide) hwhole hbreak.1
  have hhead : rest.head? = some '\n' := by
    simpa [hbehind.lineBreak_eq] using hbreak.2
  refine ⟨rest, ⟨spelled_of_sign hsign ?_, ⟨hrun.all, ?_, .inl hbreak.1, ?_⟩,
    stops_of_feed hhead⟩, hbehind.rest_eq⟩
  · rw [hfraction, hexponent, hrun.spelled]
    rfl
  · simp [hfraction]
  · simp [hexponent]

/-- The number that has been read when the line ends behind its fraction. -/
theorem text_of_fraction (hsign : Literal.sign? c = .ok n.sign u)
    (hrun : Run Char.isDigit u.rest v.rest n.whole)
    (hfraction : Literal.fraction? n.whole v = .ok n.fraction c')
    (hbreak : (n.fraction.isSome && c'.lineBreak) = true) (hexponent : n.exponent = none) :
    ∃ rest, DecimalText c.rest rest n ∧ c'.rest = dropFeeds rest := by
  rw [Bool.and_eq_true] at hbreak
  rcases fraction_of_ok hfraction with ⟨hnone, -⟩ |
    ⟨found, rest, hsome, hrest, hall, -, hbehind, hne⟩
  · rw [hnone] at hbreak
    exact absurd hbreak.1 (by decide)
  have hhead : rest.head? = some '\n' := by
    simpa [hbehind.lineBreak_eq] using hbreak.2
  refine ⟨rest, ⟨spelled_of_sign hsign ?_, ⟨hrun.all, ?_, ?_, ?_⟩, stops_of_feed hhead⟩,
    hbehind.rest_eq⟩
  · rw [hrun.spelled, hrest, hsome, hexponent]
    rfl
  · simpa [hsome] using hall
  · simpa [hsome] using hne hbreak.2
  · simp [hexponent]

/-- The number that has been read when no part of it ends the line: its exponent is the last. -/
theorem text_of_exponent {w : Cursor} (hsign : Literal.sign? c = .ok n.sign u)
    (hrun : Run Char.isDigit u.rest v.rest n.whole)
    (hfraction : Literal.fraction? n.whole v = .ok n.fraction w)
    (hbreak : ¬ (n.fraction.isSome && w.lineBreak) = true)
    (hnonempty : n.whole ≠ [] ∨ n.fraction.getD [] ≠ [])
    (hfeeds : n.fraction = none → v.rest.head? ≠ some '\n')
    (hexponent : Literal.exponent? w = .ok n.exponent c') :
    ∃ rest, DecimalText c.rest rest n ∧ c'.rest = dropFeeds rest := by
  obtain ⟨hrest, hall, hline, hnone, hsome⟩ := fraction_of_unbroken hfraction hbreak hfeeds
  rcases exponent_of_ok hexponent with ⟨hnone', rfl, hmark⟩ |
    ⟨mark, e, rest, hsome', hmark, hrest', hwell, hstops, hc'⟩
  · refine ⟨c'.rest, ⟨spelled_of_sign hsign ?_, ⟨hrun.all, hall, hnonempty, by simp [hnone']⟩, ?_⟩,
      ?_⟩
    · rw [hrun.spelled, hrest, hnone']
      rfl
    · intro ch hch
      refine ⟨?_, fun hnone'' _ heq => ?_, fun _ => hmark ch hch⟩
      · by_cases hfraction' : n.fraction = none
        · rw [(hnone hfraction').1] at hch
          exact hrun.stops ch hch
        · exact hsome hfraction' ch hch
      · rw [(hnone hnone'').1] at hch
        exact (hnone hnone'').2 (heq ▸ hch)
    · rw [dropFeeds_of_head? hline]
  · refine ⟨rest, ⟨spelled_of_sign hsign ?_, ⟨hrun.all, hall, hnonempty, ?_⟩, ?_⟩, hc'⟩
    · rw [hrun.spelled, hrest, hrest', hsome']
      rfl
    · intro mark' e' heq
      rw [hsome', Option.some.injEq, Prod.mk.injEq] at heq
      obtain ⟨rfl, rfl⟩ := heq
      exact ⟨hmark, hwell⟩
    · exact fun ch hch => ⟨hstops ch hch, by simp [hsome'], by simp [hsome']⟩

theorem decimalText_of_ok (h : Literal.decimalNumeral c = .ok n c') :
    ∃ rest, DecimalText c.rest rest n ∧ c'.rest = dropFeeds rest := by
  obtain ⟨u, v, hsign, hwhole, h⟩ := decimalNumeral_eq_ok_iff.1 h
  rcases h with ⟨hbreak, hfraction, hexponent, rfl⟩ | ⟨hbreak, w, hfraction, h⟩
  · exact text_of_whole hsign hwhole hbreak hfraction hexponent
  have hrun := run_of_unbroken (by decide) hwhole hbreak
  rcases h with ⟨hbroken, hexponent, rfl⟩ | ⟨hbroken, hdigit, hexponent⟩
  · exact text_of_fraction hsign hrun hfraction hbroken hexponent
  have hnonempty : n.whole ≠ [] ∨ n.fraction.getD [] ≠ [] := by
    rwa [Bool.and_eq_true, List.isEmpty_iff, List.isEmpty_iff, Classical.not_and_iff_not_or_not]
      at hdigit
  have hfeeds (hnone : n.fraction = none) : v.rest.head? ≠ some '\n' := by
    have hne : n.whole ≠ [] := by simpa [hnone] using hnonempty
    exact head_ne_of_unbroken hwhole hne hbreak
  exact text_of_exponent hsign hrun hfraction hbroken hnonempty hfeeds hexponent

end Soundness

theorem head_of_fractionChars {fraction : Option (List Char)} {t : List Char} {ch : Char}
    (h : ch ∈ (fractionChars fraction ++ t).head?) :
    ch = '.' ∧ fraction ≠ none ∨ fraction = none ∧ ch ∈ t.head? := by
  cases fraction with
  | none => exact .inr ⟨rfl, h⟩
  | some found => exact .inl ⟨(Option.some.inj h).symm, by simp⟩

theorem head_of_exponentChars {exponent : Option (Char × WholeNumeral)} {t : List Char} {ch : Char}
    (hall : ∀ mark e, exponent = some (mark, e) → (mark = 'e' ∨ mark = 'E') ∧ e.WellFormed)
    (h : ch ∈ (exponentChars exponent ++ t).head?) :
    (ch = 'e' ∨ ch = 'E') ∧ exponent ≠ none ∨ exponent = none ∧ ch ∈ t.head? := by
  cases exponent with
  | none => exact .inr ⟨rfl, h⟩
  | some found =>
    obtain rfl : found.1 = ch := Option.some.inj h
    exact .inl ⟨(hall found.1 found.2 rfl).1, by simp⟩

section Completeness

variable {n : DecimalNumeral} {text rest : List Char}

/-- What follows the fraction of a number is no digit. -/
theorem not_digit_behind_fraction (h : DecimalText text rest n) :
    ∀ ch ∈ (exponentChars n.exponent ++ rest).head?, ch.isDigit = false := by
  intro ch hch
  rcases head_of_exponentChars h.wellFormed.exponent hch with ⟨rfl | rfl, -⟩ | ⟨-, hch⟩
  · decide
  · decide
  · exact (h.stops ch hch).1

/-- What follows the whole part of a number is no digit. -/
theorem not_digit_behind_whole (h : DecimalText text rest n) :
    ∀ ch ∈ (fractionChars n.fraction ++ (exponentChars n.exponent ++ rest)).head?,
      ch.isDigit = false := by
  intro ch hch
  rcases head_of_fractionChars hch with ⟨rfl, -⟩ | ⟨-, hch⟩
  · decide
  · exact not_digit_behind_fraction h ch hch

/-- Behind its sign, a number begins with a digit or with its point. -/
theorem begins_behind_sign (h : DecimalText text rest n) :
    ∃ ch ∈ (n.whole ++ (fractionChars n.fraction ++ (exponentChars n.exponent ++ rest))).head?,
      ch.isDigit = true ∨ ch = '.' := by
  cases hwhole : n.whole with
  | cons ch t => exact ⟨ch, rfl, .inl (h.wellFormed.whole ch (hwhole ▸ List.mem_cons_self))⟩
  | nil =>
    cases hfraction : n.fraction with
    | none => exact absurd h.wellFormed.nonempty (by simp [hwhole, hfraction])
    | some found => exact ⟨'.', rfl, .inr rfl⟩

theorem exists_exponent_of_text (h : DecimalText text rest n)
    (hc : c.rest = exponentChars n.exponent ++ rest) (hline : c.rest.head? ≠ some '\n') :
    ∃ c', Literal.exponent? c = .ok n.exponent c' ∧ c'.rest = dropFeeds rest := by
  apply exists_exponent hc h.wellFormed.exponent fun ch hch => (h.stops ch hch).1
  intro hnone
  constructor
  · rwa [hc, hnone] at hline
  · exact fun ch hch => (h.stops ch hch).2.2 hnone

/-- A number without a fraction has no point behind its whole part. -/
theorem fraction?_of_text (h : DecimalText text rest n) (hfraction : n.fraction = none)
    (hc : c.rest = exponentChars n.exponent ++ rest) :
    Literal.fraction? n.whole c = .ok n.fraction c := by
  rw [hfraction]
  apply fraction?_none
  intro hpoint
  rw [hc] at hpoint
  obtain ⟨hnone, hhead⟩ :=
    (head_of_exponentChars h.wellFormed.exponent hpoint).resolve_left (by simp)
  exact (h.stops '.' hhead).2.1 hfraction hnone rfl

/-- A fraction ends the number where it ends the line, and else the exponent is read. -/
theorem exists_fraction_of_text (h : DecimalText text rest n) {found : List Char}
    (hfraction : n.fraction = some found)
    (hc : c.rest = '.' :: (found ++ (exponentChars n.exponent ++ rest))) :
    ∃ w c', Literal.fraction? n.whole c = .ok n.fraction w ∧
      (w.lineBreak = true ∧ n.exponent = none ∧ c' = w ∨
        ¬ w.lineBreak = true ∧ Literal.exponent? w = .ok n.exponent c') ∧
      c'.rest = dropFeeds rest := by
  have hall : ∀ ch ∈ found, ch.isDigit = true := by
    simpa [hfraction] using h.wellFormed.fraction
  have hne : n.whole ≠ [] ∨ found ≠ [] := by simpa [hfraction] using h.wellFormed.nonempty
  obtain ⟨w, hread, hbehind⟩ := exists_fraction hc hall (not_digit_behind_fraction h) hne
  rw [← hfraction] at hread
  by_cases hbroken : w.lineBreak = true
  · have hhead : '\n' ∈ (exponentChars n.exponent ++ rest).head? := by
      simpa [hbehind.lineBreak_eq] using hbroken
    obtain ⟨hnone, -⟩ :=
      (head_of_exponentChars h.wellFormed.exponent hhead).resolve_left (by simp)
    refine ⟨w, w, hread, .inl ⟨hbroken, hnone, rfl⟩, ?_⟩
    rw [hbehind.rest_eq, hnone]
    rfl
  · have hw := hbehind.rest_of_not hbroken
    have hline : w.rest.head? ≠ some '\n' := hw ▸ hbehind.head_ne hbroken
    obtain ⟨c', hexponent, hc'⟩ := exists_exponent_of_text h hw hline
    exact ⟨w, c', hread, .inr ⟨hbroken, hexponent⟩, hc'⟩

theorem decimalNumeral_of_text (h : DecimalText c.rest rest n) :
    ∃ c', Literal.decimalNumeral c = .ok n c' ∧ c'.rest = dropFeeds rest := by
  have hspelled := h.spelled
  rw [chars_eq_append, List.append_assoc, List.append_assoc, List.append_assoc] at hspelled
  obtain ⟨u, hsign, hu⟩ := exists_sign hspelled (begins_behind_sign h)
  have hrun : Run Char.isDigit u.rest _ n.whole :=
    ⟨hu, h.wellFormed.whole, not_digit_behind_whole h⟩
  have hread : Literal.digits u = .ok n.whole (u.past n.whole) :=
    takeWhile_eq_ok_iff.2 ⟨hrun.eq_takeWhile.1, rfl⟩
  by_cases hbreak : (!n.whole.isEmpty && (u.past n.whole).lineBreak) = true
  · -- the line ends behind the whole part, so that there is nothing else
    have hne := hbreak
    rw [Bool.and_eq_true, Bool.not_eq_true', List.isEmpty_eq_false_iff] at hne
    obtain ⟨_, hrun', hbehind⟩ := behind_of_takeWhile (by decide) hread hne.1
    rw [hrun'.eq_takeWhile.2, ← hrun.eq_takeWhile.2] at hbehind
    have hhead : '\n' ∈ (fractionChars n.fraction ++ (exponentChars n.exponent ++ rest)).head? := by
      simpa [hbehind.lineBreak_eq] using hne.2
    obtain ⟨hfraction, hhead⟩ := (head_of_fractionChars hhead).resolve_left (by simp)
    obtain ⟨hnone, -⟩ :=
      (head_of_exponentChars h.wellFormed.exponent hhead).resolve_left (by simp)
    refine ⟨_, decimalNumeral_eq_ok_iff.2
      ⟨u, _, hsign, hread, .inl ⟨hbreak, hfraction, hnone, rfl⟩⟩, ?_⟩
    rw [hbehind.rest_eq, hfraction, hnone]
    rfl
  have hv := (run_of_unbroken (by decide) hread hbreak).eq_takeWhile.2
  rw [← hrun.eq_takeWhile.2] at hv
  have hdigit : ¬ (n.whole.isEmpty && (n.fraction.getD []).isEmpty) = true := by
    rw [Bool.and_eq_true, List.isEmpty_iff, List.isEmpty_iff, Classical.not_and_iff_not_or_not]
    exact h.wellFormed.nonempty
  cases hfraction : n.fraction with
  | none =>
    -- there are digits in front, and the line goes on behind them
    rw [hfraction] at hv
    have hv : (u.past n.whole).rest = exponentChars n.exponent ++ rest := hv
    have hne : n.whole ≠ [] := by simpa [hfraction] using h.wellFormed.nonempty
    obtain ⟨c', hexponent, hc'⟩ :=
      exists_exponent_of_text h hv (head_ne_of_unbroken hread hne hbreak)
    exact ⟨c', decimalNumeral_eq_ok_iff.2 ⟨u, _, hsign, hread, .inr ⟨hbreak, _,
      fraction?_of_text h hfraction hv, .inr ⟨by simp [hfraction], hdigit, hexponent⟩⟩⟩, hc'⟩
  | some found =>
    rw [hfraction] at hv
    obtain ⟨w, c', hreadFraction, hends, hc'⟩ := exists_fraction_of_text h hfraction hv
    refine ⟨c', decimalNumeral_eq_ok_iff.2
      ⟨u, _, hsign, hread, .inr ⟨hbreak, w, hreadFraction, ?_⟩⟩, hc'⟩
    rcases hends with ⟨hbroken, hnone, rfl⟩ | ⟨hbroken, hexponent⟩
    · exact .inl ⟨by simp [hfraction, hbroken], hnone, rfl⟩
    · exact .inr ⟨by simp [hbroken], hdigit, hexponent⟩

end Completeness

theorem decimalNumeral_reads : Reads Literal.decimalNumeral DecimalText where
  sound := decimalText_of_ok
  complete := decimalNumeral_of_text

end Scan

end ControlScript
