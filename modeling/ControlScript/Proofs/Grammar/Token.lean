import ControlScript.Literal

/-!
# The tokens of control scripts

What blanks, names and literals look like, apart from how they are found.  A phrase relates the
beginning of a text to what it means and to the text that it leaves, so longer phrases are put
together from shorter ones.  Where a longer token would have been possible, the rest says that it
was not: a name is not followed by a character of names.
-/

namespace ControlScript.Grammar

/-- A kind of phrase: a text, the rest that the phrase leaves of it, and what the phrase means. -/
abbrev Phrase (α : Type) := List Char → List Char → α → Prop

/-- The longest run of characters with a property. -/
structure Run (p : Char → Bool) (text rest run : List Char) : Prop where
  spelled : text = run ++ rest
  all : ∀ c ∈ run, p c = true
  stops : ∀ c ∈ rest.head?, p c = false

theorem run_takeWhile (p : Char → Bool) (text : List Char) :
    Run p text (text.dropWhile p) (text.takeWhile p) where
  spelled := List.takeWhile_append_dropWhile.symm
  all := fun c hc => List.all_eq_true.1 List.all_takeWhile c hc
  stops := fun c hc => by
    have h := List.head?_dropWhile_not p text
    rw [Option.mem_def.1 hc] at h
    exact h

theorem Run.eq_takeWhile {p : Char → Bool} {text rest run : List Char} (h : Run p text rest run) :
    run = text.takeWhile p ∧ rest = text.dropWhile p := by
  rw [h.spelled, List.takeWhile_append_of_pos h.all, List.dropWhile_append_of_pos h.all]
  cases rest with
  | nil => simp
  | cons c rest =>
    have hc : ¬ p c = true := by simp [h.stops c rfl]
    rw [List.takeWhile_cons_of_neg hc, List.dropWhile_cons_of_neg hc, List.append_nil]
    exact ⟨rfl, rfl⟩

theorem Run.take_length {p : Char → Bool} {text rest run : List Char} (h : Run p text rest run) :
    text.take run.length = run := by
  rw [h.spelled, List.take_left]

theorem Run.drop_length {p : Char → Bool} {text rest run : List Char} (h : Run p text rest run) :
    text.drop run.length = rest := by
  rw [h.spelled, List.drop_left]

/-! ## 1. Blanks and comments -/

/-- A text after any number of blanks and comments; a comment goes on up to the end of its line or
    of the text. -/
inductive Blanks : List Char → List Char → Prop where
  | none {text : List Char} : Blanks text text
  | blank {c : Char} {text rest : List Char} :
      Scan.isBlank c = true → Blanks text rest → Blanks (c :: text) rest
  | comment {body text rest : List Char} :
      '\n' ∉ body → (∀ c ∈ text.head?, c = '\n') → Blanks text rest →
        Blanks ('#' :: (body ++ text)) rest

theorem Blanks.trans {s t u : List Char} (h : Blanks s t) (h' : Blanks t u) : Blanks s u := by
  induction h with
  | none => exact h'
  | blank hc _ ih => exact .blank hc (ih h')
  | comment hbody hend _ ih => exact .comment hbody hend (ih h')

theorem Blanks.suffix {text rest : List Char} (h : Blanks text rest) : rest <:+ text := by
  induction h with
  | none => exact List.suffix_rfl
  | blank _ _ ih => exact ih.trans (List.suffix_cons _ _)
  | comment _ _ _ ih =>
    exact (ih.trans (List.suffix_append _ _)).trans (List.suffix_cons _ _)

/-- A text without the blanks and comments at its beginning. -/
def trim (text : List Char) : List Char := text.drop (Scan.countBlanks 0 false text)

/-- A text without the line feeds at its beginning. -/
def dropFeeds (text : List Char) : List Char := text.dropWhile (· == '\n')

/-- Counting from `n` on adds `n`. -/
theorem countBlanks_eq_add (n : Nat) (inComment : Bool) (text : List Char) :
    Scan.countBlanks n inComment text = n + Scan.countBlanks 0 inComment text := by
  induction text generalizing n inComment with
  | nil => simp [Scan.countBlanks]
  | cons c text ih =>
    simp only [Scan.countBlanks]
    split
    · rw [ih (n + 1), ih (0 + 1)]; omega
    split
    · rw [ih (n + 1), ih (0 + 1)]; omega
    split
    · rw [ih (n + 1), ih (0 + 1)]; omega
    · omega

@[simp] theorem trim_nil : trim [] = [] := rfl

theorem trim_blank {c : Char} (hc : Scan.isBlank c = true) (text : List Char) :
    trim (c :: text) = trim text := by
  have hne : c ≠ '#' := by rintro rfl; exact absurd hc (by decide)
  simp only [trim, Scan.countBlanks, Bool.false_eq_true, if_false, if_neg hne, if_pos hc]
  rw [countBlanks_eq_add, Nat.add_comm, List.drop_succ_cons]

theorem trim_solid {c : Char} (hc : Scan.isBlank c = false) (hne : c ≠ '#') (text : List Char) :
    trim (c :: text) = c :: text := by
  simp [trim, Scan.countBlanks, hc, hne]

/-- Counting goes through a comment up to the end of its line. -/
theorem countBlanks_comment {body text : List Char} (hbody : '\n' ∉ body)
    (hend : ∀ c ∈ text.head?, c = '\n') :
    Scan.countBlanks 0 true (body ++ text) = body.length + Scan.countBlanks 0 false text := by
  induction body with
  | nil =>
    cases text with
    | nil => rfl
    | cons c text =>
      obtain rfl : c = '\n' := hend c rfl
      simp [Scan.countBlanks, Scan.isBlank]
  | cons c body ih =>
    rw [List.mem_cons, not_or] at hbody
    have hc : (c != '\n') = true := bne_iff_ne.2 (Ne.symm hbody.1)
    rw [List.cons_append, Scan.countBlanks, if_pos rfl, hc, countBlanks_eq_add, ih hbody.2,
      List.length_cons]
    omega

theorem trim_comment {body text : List Char} (hbody : '\n' ∉ body)
    (hend : ∀ c ∈ text.head?, c = '\n') : trim ('#' :: (body ++ text)) = trim text := by
  rw [trim, Scan.countBlanks, if_neg (by decide), if_pos rfl, countBlanks_eq_add,
    countBlanks_comment hbody hend, trim]
  rw [show 0 + 1 + (body.length + Scan.countBlanks 0 false text)
        = body.length + Scan.countBlanks 0 false text + 1 by omega, List.drop_succ_cons,
    ← List.drop_drop, List.drop_left]

/-- Every text begins with what would be the body of a comment. -/
theorem exists_comment (text : List Char) :
    ∃ body rest, text = body ++ rest ∧ '\n' ∉ body ∧ ∀ c ∈ rest.head?, c = '\n' := by
  have hrun := run_takeWhile (· != '\n') text
  refine ⟨_, _, hrun.spelled, fun hmem => ?_, fun c hc => ?_⟩
  · simpa using hrun.all _ hmem
  · simpa using hrun.stops c hc

/-- Every text is its blanks and then what `trim` leaves. -/
theorem blanks_trim (text : List Char) : Blanks text (trim text) := by
  induction h : text.length using Nat.strongRecOn generalizing text with
  | ind n ih =>
    cases text with
    | nil => exact .none
    | cons c text =>
      rw [List.length_cons] at h
      by_cases hc : Scan.isBlank c = true
      · rw [trim_blank hc]
        exact .blank hc (ih text.length (by omega) text rfl)
      by_cases hne : c = '#'
      · subst hne
        obtain ⟨body, rest, rfl, hbody, hend⟩ := exists_comment text
        rw [List.length_append] at h
        rw [trim_comment hbody hend]
        exact .comment hbody hend (ih _ (by omega) _ rfl)
      · rw [trim_solid (by simpa using hc) hne]
        exact .none

theorem Blanks.trim_eq {text rest : List Char} (h : Blanks text rest) : trim text = trim rest := by
  induction h with
  | none => rfl
  | blank hc _ ih => rw [trim_blank hc, ih]
  | comment hbody hend _ ih => rw [trim_comment hbody hend, ih]

@[simp] theorem trim_trim (text : List Char) : trim (trim text) = trim text :=
  (blanks_trim text).trim_eq.symm

theorem length_trim_le (text : List Char) : (trim text).length ≤ text.length :=
  (blanks_trim text).suffix.sublist.length_le

theorem dropFeeds_of_head? {text : List Char} (h : text.head? ≠ some '\n') :
    dropFeeds text = text := by
  cases text with
  | nil => rfl
  | cons c text => exact List.dropWhile_cons_of_neg (by simpa using h)

theorem blanks_dropFeeds (text : List Char) : Blanks text (dropFeeds text) := by
  induction text with
  | nil => exact .none
  | cons c text ih =>
    by_cases hc : c = '\n'
    · subst hc
      exact .blank (by decide) ih
    · rw [dropFeeds, List.dropWhile_cons_of_neg (by simpa using hc)]
      exact .none

@[simp] theorem trim_dropFeeds (text : List Char) : trim (dropFeeds text) = trim text :=
  (blanks_dropFeeds text).trim_eq.symm

/-! ## 2. Names -/

/-- A name: a run of characters of names that is not empty. -/
structure NameText (text rest : List Char) (name : String) : Prop where
  run : Run Scan.isNameChar text rest name.toList
  nonempty : name ≠ ""

/-! ## 3. Literals -/

/-- A string between double quotes, which are on one line. -/
structure StringText (text rest : List Char) (s : String) : Prop where
  spelled : text = '"' :: (s.toList ++ '"' :: rest)
  plain : ∀ c ∈ s.toList, c ≠ '"' ∧ c ≠ '\n'

end ControlScript.Grammar

namespace ControlScript

/-- A whole number is complete when it has a digit. -/
structure WholeNumeral.WellFormed (n : WholeNumeral) : Prop where
  digits : ∀ c ∈ n.digits, c.isDigit = true
  nonempty : n.digits ≠ []

/-- A number is complete when it has a digit in front of the point or behind it, and its exponent
    is complete. -/
structure DecimalNumeral.WellFormed (n : DecimalNumeral) : Prop where
  whole : ∀ c ∈ n.whole, c.isDigit = true
  fraction : ∀ c ∈ n.fraction.getD [], c.isDigit = true
  nonempty : n.whole ≠ [] ∨ n.fraction.getD [] ≠ []
  exponent : ∀ mark e, n.exponent = some (mark, e) → (mark = 'e' ∨ mark = 'E') ∧ e.WellFormed

end ControlScript

namespace ControlScript.Grammar

/-- A whole number that no further digit continues. -/
structure WholeText (text rest : List Char) (n : WholeNumeral) : Prop where
  spelled : text = n.chars ++ rest
  wellFormed : n.WellFormed
  stops : ∀ c ∈ rest.head?, c.isDigit = false

/-- A number that nothing behind it continues: no digit, no point unless it has a point or an
    exponent already, and no mark of an exponent unless it has an exponent. -/
structure DecimalText (text rest : List Char) (n : DecimalNumeral) : Prop where
  spelled : text = n.chars ++ rest
  wellFormed : n.WellFormed
  stops : ∀ c ∈ rest.head?, c.isDigit = false ∧ (n.fraction = none → n.exponent = none → c ≠ '.') ∧
    (n.exponent = none → c ≠ 'e' ∧ c ≠ 'E')

/-- Behind an item: the closing character, or a comma and another item. -/
inductive ItemsText {α : Type} (close : Char) (item : Phrase α) : Phrase (List α) where
  | last {text rest : List Char} :
      Blanks text (close :: rest) → ItemsText close item text rest []
  | more {text t₁ t₂ t₃ rest : List Char} {a : α} {others : List α} :
      Blanks text (',' :: t₁) → Blanks t₁ t₂ → item t₂ t₃ a →
        ItemsText close item t₃ rest others → ItemsText close item text rest (a :: others)

/-- A list in brackets, with commas between its items. -/
inductive ListText {α : Type} (item : Phrase α) : Phrase (List α) where
  | empty {text rest : List Char} : Blanks text (']' :: rest) → ListText item ('[' :: text) rest []
  | items {text t₁ t₂ rest : List Char} {a : α} {others : List α} :
      Blanks text t₁ → item t₁ t₂ a → ItemsText ']' item t₂ rest others →
        ListText item ('[' :: text) rest (a :: others)

/-- An integer of sixty-four bits. -/
def IntegerText : Phrase Int64 := fun text rest n =>
  ∃ numeral, WholeText text rest numeral ∧ numeral.value? = some n

/-- A finite double. -/
def FloatText : Phrase Binary64 := fun text rest x =>
  ∃ numeral, DecimalText text rest numeral ∧ numeral.value? = some x

/-- A literal of a given kind. -/
inductive LiteralText : ValueKind → Phrase Value where
  | string {text rest : List Char} {s : String} :
      StringText text rest s → LiteralText .string text rest (.string s)
  | integer {text rest : List Char} {n : Int64} :
      IntegerText text rest n → LiteralText .integer text rest (.integer n)
  | float {text rest : List Char} {x : Binary64} :
      FloatText text rest x → LiteralText .float text rest (.float x)
  | stringList {text rest : List Char} {items : List String} :
      ListText StringText text rest items → LiteralText .stringList text rest (.stringList items)
  | integerList {text rest : List Char} {items : List Int64} :
      ListText IntegerText text rest items →
        LiteralText .integerList text rest (.integerList items)
  | floatList {text rest : List Char} {items : List Binary64} :
      ListText FloatText text rest items → LiteralText .floatList text rest (.floatList items)

end ControlScript.Grammar
