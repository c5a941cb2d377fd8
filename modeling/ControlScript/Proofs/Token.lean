import ControlScript.Proofs.Scan

/-!
# Scans of tokens

Names and literals are read exactly as the grammar describes them.  A scan reads a kind of phrase
when it succeeds on the texts that begin with such a phrase and on no others; it leaves the rest
that the phrase leaves, without the line feeds in front of it.
-/

namespace ControlScript

open Grammar

/-- A scan reads a kind of phrase. -/
structure Scan.Reads {α : Type} (x : Scan α) (p : Phrase α) : Prop where
  sound : ∀ {c a c'}, x c = .ok a c' → ∃ rest, p c.rest rest a ∧ c'.rest = dropFeeds rest
  complete : ∀ {c rest a}, p c.rest rest a → ∃ c', x c = .ok a c' ∧ c'.rest = dropFeeds rest

namespace Grammar

/-- A kind of phrase that begins with something other than blanks. -/
def Phrase.Solid {α : Type} (p : Phrase α) : Prop :=
  ∀ ⦃text rest a⦄, p text rest a → trim text = text

/-- A kind of phrase that takes at least one character. -/
def Phrase.Proper {α : Type} (p : Phrase α) : Prop :=
  ∀ ⦃text rest a⦄, p text rest a → ∃ c taken, text = c :: (taken ++ rest)

theorem Phrase.Proper.suffix {α : Type} {p : Phrase α} (hp : p.Proper) {text rest : List Char}
    {a : α} (h : p text rest a) : rest <:+ text := by
  obtain ⟨c, taken, rfl⟩ := hp h
  exact (List.suffix_append taken rest).trans (List.suffix_cons c _)

theorem Phrase.Proper.length_lt {α : Type} {p : Phrase α} (hp : p.Proper) {text rest : List Char}
    {a : α} (h : p text rest a) : rest.length < text.length := by
  obtain ⟨c, taken, rfl⟩ := hp h
  rw [List.length_cons, List.length_append]
  omega

/-! ## 1. Names and strings as phrases -/

theorem not_isNameChar_feed : Scan.isNameChar '\n' = false := by decide

theorem NameText.head {text rest : List Char} {name : String} (h : NameText text rest name) :
    ∃ c t, text = c :: t ∧ Scan.isNameChar c = true := by
  have hne : name.toList ≠ [] := fun hnil => h.nonempty (by simpa using hnil)
  obtain ⟨c, t, ht⟩ := List.exists_cons_of_ne_nil hne
  refine ⟨c, t ++ rest, ?_, h.run.all c (ht ▸ List.mem_cons_self)⟩
  rw [h.run.spelled, ht, List.cons_append]

theorem isBlank_of_isNameChar {c : Char} (h : Scan.isNameChar c = true) :
    Scan.isBlank c = false ∧ c ≠ '#' := by
  constructor
  · cases hc : Scan.isBlank c with
    | false => rfl
    | true =>
      simp only [Scan.isBlank, Bool.or_eq_true, decide_eq_true_eq] at hc
      rcases hc with ((rfl | rfl) | rfl) | rfl <;> exact absurd h (by decide)
  · rintro rfl
    exact absurd h (by decide)

theorem nameText_solid : Phrase.Solid NameText := by
  intro text rest name h
  obtain ⟨c, t, rfl, hc⟩ := h.head
  exact trim_solid (isBlank_of_isNameChar hc).1 (isBlank_of_isNameChar hc).2 t

theorem nameText_proper : Phrase.Proper NameText := by
  intro text rest name h
  have hne : name.toList ≠ [] := fun hnil => h.nonempty (by simpa using hnil)
  obtain ⟨c, t, ht⟩ := List.exists_cons_of_ne_nil hne
  exact ⟨c, t, by rw [h.run.spelled, ht, List.cons_append]⟩

theorem stringText_solid : Phrase.Solid StringText := by
  intro text rest s h
  rw [h.spelled]
  exact trim_solid (by decide) (by decide) _

theorem stringText_proper : Phrase.Proper StringText := by
  intro text rest s h
  exact ⟨'"', s.toList ++ ['"'], by rw [h.spelled, List.append_assoc, List.singleton_append]⟩

end Grammar

/-! ## 2. Names -/

namespace Scan

/-- A run of characters is read up to where it stops. -/
theorem behind_of_takeWhile {p : Char → Bool} {run : List Char} {c c' : Cursor}
    (hp : p '\n' = false) (h : Scan.takeWhile p c = .ok run c') (hne : run ≠ []) :
    ∃ rest, Run p c.rest rest run ∧ c'.Behind rest := by
  obtain ⟨rfl, rfl⟩ := takeWhile_eq_ok_iff.1 h
  have hrun := run_takeWhile p c.rest
  have hline : '\n' ∉ c.rest.takeWhile p := fun hmem => by simpa [hp] using hrun.all _ hmem
  refine ⟨_, hrun, ?_⟩
  rw [Cursor.past_of_ne_nil hne]
  exact Cursor.behind_advanceBy hrun.spelled hline

theorem takeWhile_of_run {p : Char → Bool} {run rest : List Char} {c : Cursor}
    (h : Run p c.rest rest run) (hne : run ≠ []) :
    Scan.takeWhile p c = .ok run (c.past run) ∧ (c.past run).rest = dropFeeds rest := by
  constructor
  · exact takeWhile_eq_ok_iff.2 ⟨h.eq_takeWhile.1, rfl⟩
  · rw [Cursor.past_of_ne_nil hne, Cursor.rest_advanceBy, h.drop_length]

/-- What is read on one line is all in front of the cursor that is left. -/
theorem run_of_unbroken {p : Char → Bool} {run : List Char} {c c' : Cursor}
    (hp : p '\n' = false) (h : Scan.takeWhile p c = .ok run c')
    (hbreak : ¬ (!run.isEmpty && c'.lineBreak) = true) : Run p c.rest c'.rest run := by
  by_cases hnil : run = []
  · subst hnil
    obtain ⟨hnone, hc'⟩ := takeWhile_eq_ok_iff.1 h
    have hrun := run_takeWhile p c.rest
    have hspelled := hrun.spelled
    rw [← hnone, List.nil_append] at hspelled
    rw [← hnone, ← hspelled] at hrun
    rwa [hc', Cursor.past_nil]
  · obtain ⟨rest, hrun, hbehind⟩ := behind_of_takeWhile hp h hnil
    rw [List.isEmpty_eq_false_iff.2 hnil, Bool.not_false, Bool.true_and] at hbreak
    rwa [hbehind.rest_of_not hbreak]

/-- A run that line feeds do not follow is read up to where it stops. -/
theorem exists_takeWhile_of_run {p : Char → Bool} {run rest : List Char} {c : Cursor}
    (hp : p '\n' = false) (h : Run p c.rest rest run) (hhead : rest.head? ≠ some '\n') :
    ∃ c', Scan.takeWhile p c = .ok run c' ∧ c'.rest = rest ∧
      (!run.isEmpty && c'.lineBreak) = false := by
  refine ⟨c.past run, takeWhile_eq_ok_iff.2 ⟨h.eq_takeWhile.1, rfl⟩, ?_⟩
  by_cases hnil : run = []
  · subst hnil
    exact ⟨h.spelled, rfl⟩
  · have hline : '\n' ∉ run := fun hmem => by simpa [hp] using h.all _ hmem
    have hbehind := Cursor.behind_advanceBy h.spelled hline
    rw [Cursor.past_of_ne_nil hnil, hbehind.rest_eq, dropFeeds_of_head? hhead,
      hbehind.lineBreak_eq, beq_eq_false_iff_ne.2 hhead, Bool.and_false]
    exact ⟨rfl, rfl⟩

theorem requiredName_reads (expected : Expected) : Reads (requiredName expected) NameText where
  sound := by
    intro c found c' h
    simp only [requiredName, name, bind_eq_ok_iff, pure_eq_ok_iff] at h
    obtain ⟨_, _, ⟨run, _, hrun, rfl, rfl⟩, h⟩ := h
    split at h
    · simp at h
    · rename_i hne
      rw [pure_eq_ok_iff] at h
      obtain ⟨rfl, rfl⟩ := h
      have hrun' : run ≠ [] := by rintro rfl; exact hne rfl
      obtain ⟨rest, hname, hbehind⟩ := behind_of_takeWhile (by decide) hrun hrun'
      refine ⟨rest, ⟨by rwa [String.toList_ofList], fun heq => hne ?_⟩, hbehind.rest_eq⟩
      rw [heq]; rfl
  complete := by
    intro c rest found h
    have hne : found.toList ≠ [] := fun hnil => h.nonempty (by simpa using hnil)
    obtain ⟨hread, hrest⟩ := takeWhile_of_run h.run hne
    have hfalse : (String.ofList found.toList).isEmpty = false := by
      rw [String.ofList_toList]
      simpa using h.nonempty
    refine ⟨_, ?_, hrest⟩
    simp only [requiredName, name, bind_eq_ok_iff, pure_eq_ok_iff]
    refine ⟨_, _, ⟨_, _, hread, rfl, rfl⟩, ?_⟩
    rw [hfalse, if_neg (by decide), String.ofList_toList, pure_eq_ok_iff]
    exact ⟨rfl, rfl⟩

/-! ## 3. Strings -/

theorem string_reads : Reads Literal.string StringText where
  sound := by
    intro c s c' h
    simp only [Literal.string, bind_eq_ok_iff, position_eq_ok_iff, expect_eq_ok_iff,
      lineBroken_eq_ok_iff, check_eq_ok_iff, pure_eq_ok_iff, and_assoc, exists_and_left,
      exists_eq_left, exists_const] at h
    obtain ⟨hopen, hbreak, body, u, hbody, hline, hclose, rfl, rfl⟩ := h
    obtain ⟨t, ht⟩ := List.head?_eq_some_iff.1 hopen
    obtain ⟨rest, hrest⟩ := List.head?_eq_some_iff.1 hclose
    -- a cursor drops the line breaks it stands on; here it stands on none, so the text is not cut
    have hopened : c.advance.rest = t :=
      (Cursor.behind_advance ht (by decide)).rest_of_not hbreak
    have hrun := run_of_unbroken (by decide) hbody hline
    rw [hopened, hrest] at hrun
    refine ⟨rest, ⟨?_, ?_⟩, ?_⟩
    · rw [ht, hrun.spelled, String.toList_ofList]
    · intro ch hch
      rw [String.toList_ofList] at hch
      simpa using hrun.all ch hch
    · exact Cursor.rest_advance_of hrest
  complete := by
    intro c rest s h
    have hopened := Cursor.behind_advance h.spelled (by decide)
    -- nor does the text of a string begin with one: a string is plain and its quote is no break
    have hhead : (s.toList ++ '"' :: rest).head? ≠ some '\n' := by
      cases hs : s.toList with
      | nil => simp
      | cons ch body => simpa using (h.plain ch (hs ▸ List.mem_cons_self)).2
    have hbreak : ¬ c.advance.lineBreak = true := by simpa [hopened.lineBreak_eq] using hhead
    have hrun : Run (fun ch => ch != '"' && ch != '\n') c.advance.rest ('"' :: rest) s.toList :=
      { spelled := hopened.rest_of_not hbreak
        all := fun ch hch => by simpa using h.plain ch hch
        stops := by simp }
    obtain ⟨u, hbody, hrest, hline⟩ := exists_takeWhile_of_run (by decide) hrun (by simp)
    refine ⟨u.advance, ?_, Cursor.rest_advance_of hrest⟩
    simp only [Literal.string, bind_eq_ok_iff, position_eq_ok_iff, expect_eq_ok_iff,
      lineBroken_eq_ok_iff, check_eq_ok_iff, pure_eq_ok_iff, and_assoc, exists_and_left,
      exists_eq_left, exists_const]
    refine ⟨by rw [h.spelled]; rfl, hbreak, s.toList, u, hbody, ?_, ?_, ?_, rfl⟩
    · rw [hline]; decide
    · rw [hrest]; rfl
    · rw [String.ofList_toList]

end Scan

end ControlScript
