import Mathlib.Computability.Language
import ControlScript.Proofs.Literal

/-!
# Literals as words of a line

The numbers are the words of two regular languages, and a string is what stands between two double
quotes.  Each of these ends on the line that it begins on, so a scan of it accepts what begins the
rest of the line with the longest word; it depends neither on the lines below nor on how the cursor
has come to its place.
-/

namespace ControlScript

open Grammar
open scoped Computability

namespace Grammar

/-! ## 1. Languages of numbers -/

/-- The words of one character that has a property. -/
def single (p : Char → Bool) : Language Char := {word | ∃ c, p c = true ∧ word = [c]}

/-- The words of a language and the empty word. -/
def optional (words : Language Char) : Language Char := 1 + words

/-- Any number of digits, `d*`. -/
def digitRuns : Language Char := (single Char.isDigit)∗

/-- At least one digit, `d+`. -/
def properDigitRuns : Language Char := single Char.isDigit * digitRuns

/-- A sign or none, `[+-]?`. -/
def signs : Language Char := optional (single fun c => c = '+' || c = '-')

/-- Digits and a point, `d+(.d*)?|.d+`. -/
def mantissas : Language Char :=
  properDigitRuns * optional (single (· = '.') * digitRuns) + single (· = '.') * properDigitRuns

/-- Whole numbers, `[+-]?d+`. -/
def wholeWords : Language Char := signs * properDigitRuns

/-- Numbers with a fraction and an exponent, `[+-]?(d+(.d*)?|.d+)([eE][+-]?d+)?`. -/
def decimalWords : Language Char :=
  signs * mantissas * optional (single (fun c => c = 'e' || c = 'E') * wholeWords)

section Membership

variable {word : List Char}

theorem mem_single_iff {p : Char → Bool} : word ∈ single p ↔ ∃ c, p c = true ∧ word = [c] := Iff.rfl

theorem mem_optional_iff {words : Language Char} :
    word ∈ optional words ↔ word = [] ∨ word ∈ words := by
  rw [optional, Language.mem_add, Language.mem_one]

theorem mem_single_mul_iff {p : Char → Bool} {words : Language Char} :
    word ∈ single p * words ↔ ∃ c others, p c = true ∧ others ∈ words ∧ word = c :: others := by
  rw [Language.mem_mul]
  constructor
  · rintro ⟨_, ⟨c, hc, rfl⟩, others, hothers, rfl⟩
    exact ⟨c, others, hc, hothers, rfl⟩
  · rintro ⟨c, others, hc, hothers, rfl⟩
    exact ⟨[c], ⟨c, hc, rfl⟩, others, hothers, rfl⟩

theorem mem_digitRuns_iff : word ∈ digitRuns ↔ ∀ c ∈ word, c.isDigit = true := by
  rw [digitRuns, Language.mem_kstar]
  constructor
  · rintro ⟨parts, rfl, hparts⟩ c hc
    obtain ⟨part, hpart, hmem⟩ := List.mem_flatten.1 hc
    obtain ⟨digit, hdigit, rfl⟩ := hparts part hpart
    rwa [List.mem_singleton.1 hmem]
  · intro hall
    refine ⟨word.map ([·]), ?_, ?_⟩
    · rw [← List.flatMap_def, List.flatMap_singleton']
    · intro part hpart
      obtain ⟨c, hc, rfl⟩ := List.mem_map.1 hpart
      exact ⟨c, hall c hc, rfl⟩

theorem mem_properDigitRuns_iff :
    word ∈ properDigitRuns ↔ word ≠ [] ∧ ∀ c ∈ word, c.isDigit = true := by
  rw [properDigitRuns, mem_single_mul_iff]
  constructor
  · rintro ⟨c, others, hc, hothers, rfl⟩
    exact ⟨List.cons_ne_nil _ _, List.forall_mem_cons.2 ⟨hc, mem_digitRuns_iff.1 hothers⟩⟩
  · rintro ⟨hne, hall⟩
    obtain ⟨c, others, rfl⟩ := List.exists_cons_of_ne_nil hne
    obtain ⟨hc, hothers⟩ := List.forall_mem_cons.1 hall
    exact ⟨c, others, hc, mem_digitRuns_iff.2 hothers, rfl⟩

theorem mem_signs_iff : word ∈ signs ↔ ∃ sign : Option Sign, word = sign.toList.map Sign.char := by
  rw [signs, mem_optional_iff, mem_single_iff]
  constructor
  · rintro (rfl | ⟨c, hc, rfl⟩)
    · exact ⟨none, rfl⟩
    · rw [Bool.or_eq_true, decide_eq_true_eq, decide_eq_true_eq] at hc
      rcases hc with rfl | rfl
      · exact ⟨some .plus, rfl⟩
      · exact ⟨some .minus, rfl⟩
  · rintro ⟨_ | sign, rfl⟩
    · exact .inl rfl
    · exact .inr ⟨sign.char, by cases sign <;> rfl, rfl⟩

/-- The words for whole numbers are the spellings of complete whole numerals. -/
theorem mem_wholeWords_iff :
    word ∈ wholeWords ↔ ∃ n : WholeNumeral, n.WellFormed ∧ n.chars = word := by
  rw [wholeWords, Language.mem_mul]
  constructor
  · rintro ⟨_, hsign, digits, hdigits, rfl⟩
    obtain ⟨sign, rfl⟩ := mem_signs_iff.1 hsign
    obtain ⟨hne, hall⟩ := mem_properDigitRuns_iff.1 hdigits
    exact ⟨⟨sign, digits⟩, ⟨hall, hne⟩, rfl⟩
  · rintro ⟨n, hwell, rfl⟩
    exact ⟨_, mem_signs_iff.2 ⟨n.sign, rfl⟩, n.digits,
      mem_properDigitRuns_iff.2 ⟨hwell.nonempty, hwell.digits⟩, rfl⟩

theorem mem_mantissas_iff : word ∈ mantissas ↔
    ∃ (whole : List Char) (fraction : Option (List Char)), (∀ c ∈ whole, c.isDigit = true) ∧
      (∀ c ∈ fraction.getD [], c.isDigit = true) ∧ (whole ≠ [] ∨ fraction.getD [] ≠ []) ∧
      word = whole ++ Scan.fractionChars fraction := by
  rw [mantissas, Language.mem_add, Language.mem_mul, mem_single_mul_iff]
  constructor
  · rintro (⟨whole, hwhole, _, hfraction, rfl⟩ | ⟨point, digits, hpoint, hdigits, rfl⟩)
    · obtain ⟨hne, hall⟩ := mem_properDigitRuns_iff.1 hwhole
      rcases mem_optional_iff.1 hfraction with rfl | hfraction
      · exact ⟨whole, none, hall, by simp, .inl hne, rfl⟩
      · obtain ⟨point, digits, hpoint, hdigits, rfl⟩ := mem_single_mul_iff.1 hfraction
        obtain rfl : point = '.' := of_decide_eq_true hpoint
        exact ⟨whole, some digits, hall, mem_digitRuns_iff.1 hdigits, .inl hne, rfl⟩
    · obtain rfl : point = '.' := of_decide_eq_true hpoint
      obtain ⟨hne, hall⟩ := mem_properDigitRuns_iff.1 hdigits
      exact ⟨[], some digits, by simp, hall, .inr hne, rfl⟩
  · rintro ⟨whole, fraction, hwhole, hfraction, hne, rfl⟩
    -- without digits in front of it, the point has digits behind it
    by_cases hnil : whole = []
    · cases fraction with
      | none => exact absurd hne (by simp [hnil])
      | some digits =>
        have hdigits : digits ≠ [] := hne.resolve_left (by simp [hnil])
        exact .inr ⟨'.', digits, rfl, mem_properDigitRuns_iff.2 ⟨hdigits, hfraction⟩, by
          rw [hnil]; rfl⟩
    · refine .inl ⟨whole, mem_properDigitRuns_iff.2 ⟨hnil, hwhole⟩, _, mem_optional_iff.2 ?_, rfl⟩
      cases fraction with
      | none => exact .inl rfl
      | some digits =>
        exact .inr (mem_single_mul_iff.2 ⟨'.', digits, rfl, mem_digitRuns_iff.2 hfraction, rfl⟩)

/-- The words for numbers are the spellings of complete numerals. -/
theorem mem_decimalWords_iff :
    word ∈ decimalWords ↔ ∃ n : DecimalNumeral, n.WellFormed ∧ n.chars = word := by
  rw [decimalWords, Language.mem_mul]
  constructor
  · rintro ⟨_, hfront, _, hexponent, rfl⟩
    obtain ⟨_, hsign, _, hmantissa, rfl⟩ := Language.mem_mul.1 hfront
    obtain ⟨sign, rfl⟩ := mem_signs_iff.1 hsign
    obtain ⟨whole, fraction, hwhole, hfraction, hne, rfl⟩ := mem_mantissas_iff.1 hmantissa
    rcases mem_optional_iff.1 hexponent with rfl | hexponent
    · refine ⟨⟨sign, whole, fraction, none⟩, ⟨hwhole, hfraction, hne, nofun⟩, ?_⟩
      rw [Scan.chars_eq_append]
      simp only [Scan.exponentChars, Option.map_none, Option.getD_none, List.append_assoc]
    · obtain ⟨mark, _, hmark, he, rfl⟩ := mem_single_mul_iff.1 hexponent
      obtain ⟨e, hwell, rfl⟩ := mem_wholeWords_iff.1 he
      rw [Bool.or_eq_true, decide_eq_true_eq, decide_eq_true_eq] at hmark
      refine ⟨⟨sign, whole, fraction, some (mark, e)⟩, ⟨hwhole, hfraction, hne, ?_⟩, ?_⟩
      · rintro mark' e' heq
        obtain ⟨rfl, rfl⟩ := Prod.mk.inj (Option.some.inj heq)
        exact ⟨hmark, hwell⟩
      · rw [Scan.chars_eq_append]
        simp only [Scan.exponentChars, Option.map_some, Option.getD_some, List.append_assoc]
  · rintro ⟨n, hwell, rfl⟩
    refine ⟨n.sign.toList.map Sign.char ++ (n.whole ++ Scan.fractionChars n.fraction), ?_,
      Scan.exponentChars n.exponent, mem_optional_iff.2 ?_, ?_⟩
    · exact Language.mem_mul.2 ⟨_, mem_signs_iff.2 ⟨n.sign, rfl⟩, _, mem_mantissas_iff.2
        ⟨n.whole, n.fraction, hwell.whole, hwell.fraction, hwell.nonempty, rfl⟩, rfl⟩
    · cases hexponent : n.exponent with
      | none => exact .inl rfl
      | some found =>
        obtain ⟨hmark, he⟩ := hwell.exponent found.1 found.2 hexponent
        refine .inr (mem_single_mul_iff.2 ⟨found.1, found.2.chars, ?_,
          mem_wholeWords_iff.2 ⟨found.2, he, rfl⟩, rfl⟩)
        rwa [Bool.or_eq_true, decide_eq_true_eq, decide_eq_true_eq]
    · rw [Scan.chars_eq_append]
      simp only [List.append_assoc]

end Membership

/-- The number that a word for a whole number stands for. -/
def wholeValue : List Char → Int
  | '-' :: digits => -(Decimal.ofDigits digits : Int)
  | '+' :: digits => Decimal.ofDigits digits
  | digits => Decimal.ofDigits digits

theorem wholeValue_chars {n : WholeNumeral} (h : n.WellFormed) : wholeValue n.chars = n.toInt := by
  obtain ⟨sign, digits⟩ := n
  cases sign with
  | some sign => cases sign <;> rfl
  | none =>
    obtain ⟨c, others, rfl⟩ := List.exists_cons_of_ne_nil h.nonempty
    have hdigit : c.isDigit = true := h.digits c List.mem_cons_self
    show wholeValue (c :: others) = Decimal.ofDigits (c :: others)
    unfold wholeValue
    split
    · rename_i heq
      obtain ⟨rfl, -⟩ := List.cons.inj heq
      exact absurd hdigit (by decide)
    · rename_i heq
      obtain ⟨rfl, -⟩ := List.cons.inj heq
      exact absurd hdigit (by decide)
    · rfl

/-! ## 2. The longest word -/

/-- A word of a language in front of a text that does not go on with it. -/
structure WordText (words : Language Char) (continues : List Char → Char → Prop)
    (text rest word : List Char) : Prop where
  spelled : text = word ++ rest
  isWord : word ∈ words
  stops : ∀ c ∈ rest.head?, ¬ continues word c

/-- Whether a word for a number has an exponent. -/
def HasExponent (word : List Char) : Prop := 'e' ∈ word ∨ 'E' ∈ word

/-- What goes on with a word for a number: a digit, a point as long as the word has neither a point
    nor an exponent, and the mark of an exponent as long as it has none. -/
def ContinuesDecimal (word : List Char) (c : Char) : Prop :=
  c.isDigit = true ∨ (c = '.' ∧ '.' ∉ word ∧ ¬ HasExponent word) ∨
    ((c = 'e' ∨ c = 'E') ∧ ¬ HasExponent word)

/-- The longest word for a whole number. -/
def WholeWord : Phrase (List Char) := WordText wholeWords fun _ c => c.isDigit = true

/-- The longest word for a number. -/
def DecimalWord : Phrase (List Char) := WordText decimalWords ContinuesDecimal

/-- The longest word for a whole number, and the integer that is written. -/
def IntegerWord : Phrase Int64 := fun text rest n =>
  ∃ word, WholeWord text rest word ∧ n.toInt = wholeValue word

/-- The longest word for a number, and the finite double that is nearest to what is written. -/
def FloatWord : Phrase Binary64 := fun text rest x =>
  ∃ n : DecimalNumeral, n.WellFormed ∧ DecimalWord text rest n.chars ∧ n.value? = some x

/-- A string that begins a line: what stands up to the second double quote. -/
def StringWord : Phrase String := fun text rest s =>
  text = '"' :: (s.toList ++ '"' :: rest) ∧ '"' ∉ s.toList

end Grammar

/-- The characters of a complete whole number are its sign and digits. -/
theorem WholeNumeral.WellFormed.not_mem_chars {n : WholeNumeral} (h : n.WellFormed) {c : Char}
    (hdigit : c.isDigit = false) (hsign : Sign.ofChar? c = none) : c ∉ n.chars := by
  intro hmem
  rcases List.mem_append.1 hmem with hmem | hmem
  · obtain ⟨sign, -, hsign'⟩ := List.mem_map.1 hmem
    rw [Sign.ofChar?_eq_some_iff.2 hsign'.symm] at hsign
    exact absurd hsign (by simp)
  · rw [h.digits c hmem] at hdigit
    exact absurd hdigit (by simp)

/-- Apart from its signs and digits, a complete number has a point if it has a fraction and a mark
    if it has an exponent. -/
theorem DecimalNumeral.WellFormed.mem_chars_iff {n : DecimalNumeral} (h : n.WellFormed) {c : Char}
    (hdigit : c.isDigit = false) (hsign : Sign.ofChar? c = none) :
    c ∈ n.chars ↔ c = '.' ∧ n.fraction ≠ none ∨ ∃ e, n.exponent = some (c, e) := by
  have hnot : ∀ {digits : List Char}, (∀ d ∈ digits, d.isDigit = true) → c ∉ digits :=
    fun hall hmem => by simp [hall c hmem] at hdigit
  have hfront : c ∉ n.sign.toList.map Sign.char := by
    intro hmem
    obtain ⟨sign, -, hsign'⟩ := List.mem_map.1 hmem
    rw [Sign.ofChar?_eq_some_iff.2 hsign'.symm] at hsign
    exact absurd hsign (by simp)
  have hfraction : c ∈ Scan.fractionChars n.fraction ↔ c = '.' ∧ n.fraction ≠ none := by
    have hdigits := h.fraction
    cases hf : n.fraction with
    | none => simp [Scan.fractionChars]
    | some digits =>
      rw [hf, Option.getD_some] at hdigits
      simp [Scan.fractionChars, hnot hdigits]
  have hexponent : c ∈ Scan.exponentChars n.exponent ↔ ∃ e, n.exponent = some (c, e) := by
    have hmarked := h.exponent
    cases he : n.exponent with
    | none => simp [Scan.exponentChars]
    | some found =>
      have hwell := (hmarked found.1 found.2 he).2
      simp only [Scan.exponentChars, Option.map_some, Option.getD_some, List.mem_cons,
        hwell.not_mem_chars hdigit hsign, or_false, Option.some.injEq]
      exact ⟨fun heq => ⟨found.2, by rw [heq]⟩, fun ⟨e, heq⟩ => by rw [heq]⟩
  rw [Scan.chars_eq_append, List.mem_append, List.mem_append, List.mem_append, hfraction, hexponent]
  simp only [hfront, hnot h.whole, false_or]

namespace Grammar

variable {text rest word : List Char}

theorem wholeWord_iff :
    WholeWord text rest word ↔ ∃ n, WholeText text rest n ∧ n.chars = word := by
  constructor
  · rintro ⟨hspelled, hword, hstops⟩
    obtain ⟨n, hwell, rfl⟩ := mem_wholeWords_iff.1 hword
    exact ⟨n, ⟨hspelled, hwell, fun c hc => Bool.eq_false_iff.2 (hstops c hc)⟩, rfl⟩
  · rintro ⟨n, h, rfl⟩
    exact ⟨h.spelled, mem_wholeWords_iff.2 ⟨n, h.wellFormed, rfl⟩,
      fun c hc => Bool.eq_false_iff.1 (h.stops c hc)⟩

theorem point_mem_chars_iff {n : DecimalNumeral} (h : n.WellFormed) :
    '.' ∈ n.chars ↔ n.fraction ≠ none := by
  rw [h.mem_chars_iff (by decide) (by decide)]
  constructor
  · rintro (⟨-, hsome⟩ | ⟨e, he⟩)
    · exact hsome
    · exact absurd (h.exponent _ _ he).1 (by decide)
  · exact fun hsome => .inl ⟨rfl, hsome⟩

theorem hasExponent_chars_iff {n : DecimalNumeral} (h : n.WellFormed) :
    HasExponent n.chars ↔ n.exponent ≠ none := by
  rw [HasExponent, h.mem_chars_iff (by decide) (by decide), h.mem_chars_iff (by decide) (by decide)]
  cases hexponent : n.exponent with
  | none => simp
  | some found =>
    rcases (h.exponent found.1 found.2 hexponent).1 with hmark | hmark
    · exact ⟨fun _ => by simp, fun _ => .inl (.inr ⟨found.2, by rw [← hmark]⟩)⟩
    · exact ⟨fun _ => by simp, fun _ => .inr (.inr ⟨found.2, by rw [← hmark]⟩)⟩

theorem not_continuesDecimal_iff {n : DecimalNumeral} (h : n.WellFormed) {c : Char} :
    ¬ ContinuesDecimal n.chars c ↔ c.isDigit = false ∧
      (n.fraction = none → n.exponent = none → c ≠ '.') ∧
        (n.exponent = none → c ≠ 'e' ∧ c ≠ 'E') := by
  rw [ContinuesDecimal, point_mem_chars_iff h, hasExponent_chars_iff h]
  simp only [ne_eq, Decidable.not_not]
  grind

theorem decimalWord_iff :
    DecimalWord text rest word ↔ ∃ n, DecimalText text rest n ∧ n.chars = word := by
  constructor
  · rintro ⟨hspelled, hword, hstops⟩
    obtain ⟨n, hwell, rfl⟩ := mem_decimalWords_iff.1 hword
    exact ⟨n, ⟨hspelled, hwell, fun c hc => (not_continuesDecimal_iff hwell).1 (hstops c hc)⟩, rfl⟩
  · rintro ⟨n, h, rfl⟩
    exact ⟨h.spelled, mem_decimalWords_iff.2 ⟨n, h.wellFormed, rfl⟩,
      fun c hc => (not_continuesDecimal_iff h.wellFormed).2 (h.stops c hc)⟩

/-- The bounds of sixty-four bits are all that a numeral needs to be an integer. -/
theorem value?_eq_some_iff {n : WholeNumeral} {value : Int64} :
    n.value? = some value ↔ value.toInt = n.toInt := by
  rw [WholeNumeral.value?]
  constructor
  · intro h
    split at h
    · rename_i hrange
      obtain rfl := Option.some.inj h
      have hlow : (-9223372036854775808 : Int) ≤ n.toInt := hrange.1
      have hhigh : n.toInt ≤ 9223372036854775807 := hrange.2
      exact Int64.toInt_ofInt_of_le (by omega) (by omega)
    · cases h
  · intro h
    rw [if_pos ⟨h ▸ value.minValue_le_toInt, h ▸ value.toInt_le⟩, ← h, Int64.ofInt_toInt]

theorem integerWord_eq : IntegerWord = IntegerText := by
  funext text rest n
  refine propext ⟨?_, ?_⟩
  · rintro ⟨word, hword, hvalue⟩
    obtain ⟨numeral, htext, rfl⟩ := wholeWord_iff.1 hword
    rw [wholeValue_chars htext.wellFormed] at hvalue
    exact ⟨numeral, htext, value?_eq_some_iff.2 hvalue⟩
  · rintro ⟨numeral, htext, hvalue⟩
    refine ⟨numeral.chars, wholeWord_iff.2 ⟨numeral, htext, rfl⟩, ?_⟩
    rw [wholeValue_chars htext.wellFormed, value?_eq_some_iff.1 hvalue]

theorem floatWord_eq : FloatWord = FloatText := by
  funext text rest x
  refine propext ⟨?_, ?_⟩
  · rintro ⟨n, hwell, hword, hvalue⟩
    exact ⟨n, ⟨hword.spelled, hwell,
      fun c hc => (not_continuesDecimal_iff hwell).1 (hword.stops c hc)⟩, hvalue⟩
  · rintro ⟨n, htext, hvalue⟩
    exact ⟨n, htext.wellFormed, decimalWord_iff.2 ⟨n, htext, rfl⟩, hvalue⟩

end Grammar

/-! ## 3. What is left of the line -/

namespace Cursor

/-- What is left of the line that a cursor is in. -/
def line (c : Cursor) : List Char := c.rest.takeWhile (· != '\n')

/-- What stands behind the line that a cursor is in, from its line feed on. -/
def below (c : Cursor) : List Char := c.rest.dropWhile (· != '\n')

variable (c : Cursor)

theorem line_append_below : c.line ++ c.below = c.rest := List.takeWhile_append_dropWhile

theorem feed_not_mem_line : '\n' ∉ c.line := fun hmem => by
  simpa using List.all_eq_true.1 List.all_takeWhile _ hmem

theorem head_below : ∀ ch ∈ c.below.head?, ch = '\n' := by
  intro ch hch
  simpa using (Grammar.run_takeWhile (· != '\n') c.rest).stops ch hch

end Cursor

namespace Grammar

variable {α : Type}

/-- A kind of phrase that never leaves the line that it begins on. -/
def Phrase.OnLine (p : Phrase α) : Prop :=
  ∀ ⦃line below rest a⦄, '\n' ∉ line → (∀ c ∈ below.head?, c = '\n') →
    (p (line ++ below) rest a ↔ ∃ u, p line u a ∧ rest = u ++ below)

/-- A word without line feeds that begins a text begins its first line. -/
theorem exists_of_append_eq {line below word rest : List Char}
    (hbelow : ∀ c ∈ below.head?, c = '\n') (hword : '\n' ∉ word)
    (h : line ++ below = word ++ rest) : ∃ u, line = word ++ u ∧ rest = u ++ below := by
  rcases List.append_eq_append_iff.1 h with ⟨more, rfl, hmore⟩ | ⟨u, hline, hrest⟩
  · -- what the word would take from below begins with a line feed
    cases more with
    | nil => exact ⟨[], by simp, by rw [hmore]; rfl⟩
    | cons c more =>
      obtain rfl : c = '\n' := hbelow c (by rw [hmore]; rfl)
      exact absurd (List.mem_append_right line List.mem_cons_self) hword
  · exact ⟨u, hline, hrest⟩

theorem WordText.onLine {words : Language Char} {continues : List Char → Char → Prop}
    (hwords : ∀ word ∈ words, '\n' ∉ word) (hends : ∀ word ∈ words, ¬ continues word '\n') :
    Phrase.OnLine (WordText words continues) := by
  intro line below rest word hline hbelow
  constructor
  · rintro ⟨hspelled, hword, hstops⟩
    obtain ⟨u, rfl, rfl⟩ := exists_of_append_eq hbelow (hwords word hword) hspelled
    refine ⟨u, ⟨rfl, hword, fun c hc => hstops c ?_⟩, rfl⟩
    cases u with
    | nil => cases hc
    | cons d u => exact hc
  · rintro ⟨u, ⟨rfl, hword, hstops⟩, rfl⟩
    refine ⟨List.append_assoc _ _ _, hword, fun c hc => ?_⟩
    cases u with
    | nil =>
      obtain rfl := hbelow c hc
      exact hends word hword
    | cons d u => exact hstops c hc

theorem wholeWord_onLine : Phrase.OnLine WholeWord := by
  refine WordText.onLine (fun word hword => ?_) fun _ _ => by decide
  obtain ⟨n, hwell, rfl⟩ := mem_wholeWords_iff.1 hword
  exact hwell.not_mem_chars (by decide) (by decide)

theorem decimalWord_onLine : Phrase.OnLine DecimalWord := by
  refine WordText.onLine (fun word hword => ?_) fun word _ => ?_
  · obtain ⟨n, hwell, rfl⟩ := mem_decimalWords_iff.1 hword
    rw [hwell.mem_chars_iff (by decide) (by decide)]
    rintro (⟨hpoint, -⟩ | ⟨e, he⟩)
    · exact absurd hpoint (by decide)
    · exact absurd (hwell.exponent _ _ he).1 (by decide)
  · rintro (hdigit | ⟨hpoint, -⟩ | ⟨hmark, -⟩)
    · exact absurd hdigit (by decide)
    · exact absurd hpoint (by decide)
    · exact absurd hmark (by decide)

theorem integerWord_onLine : Phrase.OnLine IntegerWord := by
  intro line below rest n hline hbelow
  constructor
  · rintro ⟨word, hword, hvalue⟩
    obtain ⟨u, hu, rfl⟩ := (wholeWord_onLine hline hbelow).1 hword
    exact ⟨u, ⟨word, hu, hvalue⟩, rfl⟩
  · rintro ⟨u, ⟨word, hu, hvalue⟩, rfl⟩
    exact ⟨word, (wholeWord_onLine hline hbelow).2 ⟨u, hu, rfl⟩, hvalue⟩

theorem floatWord_onLine : Phrase.OnLine FloatWord := by
  intro line below rest x hline hbelow
  constructor
  · rintro ⟨n, hwell, hword, hvalue⟩
    obtain ⟨u, hu, rfl⟩ := (decimalWord_onLine hline hbelow).1 hword
    exact ⟨u, ⟨n, hwell, hu, hvalue⟩, rfl⟩
  · rintro ⟨u, ⟨n, hwell, hu, hvalue⟩, rfl⟩
    exact ⟨n, hwell, (decimalWord_onLine hline hbelow).2 ⟨u, hu, rfl⟩, hvalue⟩

/-- A string breaks no line, so only double quotes have to be excluded on one. -/
theorem stringText_iff_word {line below rest : List Char} {s : String} (hline : '\n' ∉ line)
    (hbelow : ∀ c ∈ below.head?, c = '\n') :
    StringText (line ++ below) rest s ↔ ∃ u, StringWord line u s ∧ rest = u ++ below := by
  constructor
  · rintro ⟨hspelled, hplain⟩
    have hword : '\n' ∉ '"' :: (s.toList ++ ['"']) := by
      simpa using fun hmem => (hplain _ hmem).2 rfl
    have hspelled : line ++ below = ('"' :: (s.toList ++ ['"'])) ++ rest := by
      rw [hspelled, List.cons_append, List.append_assoc, List.singleton_append]
    obtain ⟨u, rfl, rfl⟩ := exists_of_append_eq hbelow hword hspelled
    refine ⟨u, ⟨?_, fun hmem => (hplain _ hmem).1 rfl⟩, rfl⟩
    rw [List.cons_append, List.append_assoc, List.singleton_append]
  · rintro ⟨u, ⟨rfl, hquote⟩, rfl⟩
    refine ⟨?_, fun c hc => ⟨?_, ?_⟩⟩
    · rw [List.cons_append, List.append_assoc, List.cons_append]
    · rintro rfl
      exact hquote hc
    · rintro rfl
      exact hline (List.mem_cons_of_mem _ (List.mem_append_left _ hc))

end Grammar

/-! ## 4. Scans of words -/

namespace Scan

variable {α : Type} {x : Scan α} {p q : Phrase α} {c c' : Cursor}

/-- A scan accepts what begins a part of a text, as the phrases of a kind describe it, and nothing
    else; behind the phrase it leaves the rest of the part and what comes after the part. -/
structure Matches (x : Scan α) (p : Phrase α) (c : Cursor) (part behind : List Char) : Prop where
  accepts : ∀ a, (∃ c', x c = .ok a c') ↔ ∃ rest, p part rest a
  leaves : ∀ {a c' rest}, x c = .ok a c' → p part rest a → c'.rest = dropFeeds (rest ++ behind)

theorem Reads.matches_of_iff (hx : Reads x q) {part behind : List Char}
    (hc : c.rest = part ++ behind)
    (hiff : ∀ {rest a}, q (part ++ behind) rest a ↔ ∃ u, p part u a ∧ rest = u ++ behind) :
    Matches x p c part behind where
  accepts := by
    intro a
    constructor
    · rintro ⟨c', h⟩
      obtain ⟨rest, htext, -⟩ := hx.sound h
      rw [hc, hiff] at htext
      obtain ⟨u, hu, -⟩ := htext
      exact ⟨u, hu⟩
    · rintro ⟨u, hu⟩
      have htext : q c.rest (u ++ behind) a := hc ▸ hiff.2 ⟨u, hu, rfl⟩
      obtain ⟨c', h, -⟩ := hx.complete htext
      exact ⟨c', h⟩
  leaves := by
    intro a c' u h hu
    have htext : q c.rest (u ++ behind) a := hc ▸ hiff.2 ⟨u, hu, rfl⟩
    obtain ⟨c'', h', hrest⟩ := hx.complete htext
    rw [h, EStateM.Result.ok.injEq] at h'
    rw [h'.2, hrest]

theorem Reads.matches_line (hx : Reads x p) (hp : p.OnLine) (c : Cursor) :
    Matches x p c c.line c.below :=
  hx.matches_of_iff c.line_append_below.symm (hp c.feed_not_mem_line c.head_below)

theorem Reads.matches_rest (hx : Reads x p) (c : Cursor) : Matches x p c c.rest [] :=
  hx.matches_of_iff (List.append_nil _).symm (by simp)

theorem wholeNumeral_readsWord : Reads (WholeNumeral.chars <$> Literal.wholeNumeral) WholeWord :=
  wholeNumeral_reads.convert map_eq_ok_iff (by simp only [wholeWord_iff, eq_comm, implies_true])

theorem decimalNumeral_readsWord :
    Reads (DecimalNumeral.chars <$> Literal.decimalNumeral) DecimalWord :=
  decimalNumeral_reads.convert map_eq_ok_iff (by simp only [decimalWord_iff, eq_comm, implies_true])

theorem string_matches_line (c : Cursor) : Matches Literal.string StringWord c c.line c.below :=
  string_reads.matches_of_iff c.line_append_below.symm
    (stringText_iff_word c.feed_not_mem_line c.head_below)

/-! ## 5. Scans that fail -/

theorem expect_at_end {ch : Char} (h : c.rest = []) :
    expect ch c = .error ⟨.endOfText, c.position⟩ c := by
  have hpeek : peek c = .ok none c := peek_eq_ok_iff.2 ⟨by rw [h]; rfl, rfl⟩
  have hcurrent : current c = .error ⟨.endOfText, c.position⟩ c := by
    rw [current, bind_of_ok hpeek]
    rfl
  rw [expect, bind_of_error hcurrent]

/-- In front of a line without its first part, the last move has passed a line feed exactly when
    nothing of the line was left and there is a line below. -/
theorem lineBreak_of_behind {body below : List Char} (h : c.Behind (body ++ below))
    (hbody : '\n' ∉ body) (hbelow : ∀ ch ∈ below.head?, ch = '\n') :
    c.lineBreak = true ↔ body = [] ∧ below ≠ [] := by
  rw [h.lineBreak_eq, beq_iff_eq]
  cases body with
  | cons ch body =>
    rw [List.cons_append, List.head?_cons, Option.some.injEq]
    exact ⟨fun heq => absurd (heq ▸ List.mem_cons_self) hbody, fun hnil => nomatch hnil.1⟩
  | nil =>
    rw [List.nil_append]
    cases below with
    | nil => simp
    | cons ch below => simp [hbelow ch rfl]

/-- A string has to be closed on its line: without a second double quote, the line or the text ends
    too early. -/
theorem string_of_unclosed {body : List Char} (hline : c.line = '"' :: body) (hbody : '"' ∉ body) :
    ∃ f c', Literal.string c = .error f c' ∧
      f.cause = if c.below = [] then .endOfText else .lineBreak .string := by
  have hfeed : '\n' ∉ body := fun hmem =>
    c.feed_not_mem_line (hline ▸ List.mem_cons_of_mem _ hmem)
  have hrest : c.rest = '"' :: (body ++ c.below) := by
    rw [← c.line_append_below, hline, List.cons_append]
  have hbehind := Cursor.behind_advance hrest (by decide)
  have hopen : expect '"' c = .ok ⟨⟩ c.advance := expect_eq_ok_iff.2 ⟨by rw [hrest]; rfl, rfl⟩
  rw [Literal.string, bind_of_ok (position_eq_ok_iff.2 ⟨rfl, rfl⟩), bind_of_ok hopen,
    bind_of_ok (lineBroken_eq_ok_iff.2 ⟨rfl, rfl⟩)]
  by_cases hbreak : c.advance.lineBreak = true
  · -- the line ends in the double quote
    obtain ⟨-, hbelow⟩ := (lineBreak_of_behind hbehind hfeed c.head_below).1 hbreak
    rw [if_pos hbreak, if_neg hbelow]
    exact ⟨_, _, rfl, rfl⟩
  have hrun : Run (fun ch => ch != '"' && ch != '\n') c.advance.rest c.below body :=
    { spelled := hbehind.rest_of_not hbreak
      all := fun ch hch => by
        rw [Bool.and_eq_true, bne_iff_ne, bne_iff_ne]
        exact ⟨fun heq => hbody (heq ▸ hch), fun heq => hfeed (heq ▸ hch)⟩
      stops := fun ch hch => by rw [c.head_below ch hch]; decide }
  have hread : Scan.takeWhile (fun ch => ch != '"' && ch != '\n') c.advance
      = .ok body (c.advance.past body) := takeWhile_eq_ok_iff.2 ⟨hrun.eq_takeWhile.1, rfl⟩
  have hpast : (c.advance.past body).Behind ([] ++ c.below) := hbehind.past hbreak hfeed
  have hends : (c.advance.past body).lineBreak = true ↔ c.below ≠ [] :=
    (lineBreak_of_behind hpast List.not_mem_nil c.head_below).trans (and_iff_right rfl)
  rw [if_neg hbreak]
  dsimp only
  rw [bind_of_ok hread, bind_of_ok (lineBroken_eq_ok_iff.2 ⟨rfl, rfl⟩)]
  by_cases hbelow : c.below = []
  · have hend : (c.advance.past body).rest = [] := by
      rw [hpast.rest_eq, hbelow]
      rfl
    have hunbroken : (c.advance.past body).lineBreak = false :=
      Bool.eq_false_iff.2 fun hbroken => hends.1 hbroken hbelow
    rw [hunbroken, Bool.and_false, if_neg Bool.false_ne_true, bind_of_error (expect_at_end hend),
      if_pos hbelow]
    exact ⟨_, _, rfl, rfl⟩
  · -- an empty body would have left the cursor on its line
    have hne : body ≠ [] := by
      rintro rfl
      exact hbreak (hends.2 hbelow)
    rw [hends.2 hbelow, List.isEmpty_eq_false_iff.2 hne, Bool.not_false, Bool.true_and, if_pos rfl,
      if_neg hbelow]
    exact ⟨_, _, rfl, rfl⟩

/-- An integer is what the longest word stands for, as long as that fits into sixty-four bits. -/
theorem integer_of_word {word rest : List Char} (hword : WholeWord c.line rest word) :
    if -9223372036854775808 ≤ wholeValue word ∧ wholeValue word ≤ 9223372036854775807 then
      ∃ n c', Literal.integer c = .ok n c' ∧ n.toInt = wholeValue word
    else
      ∃ f c', Literal.integer c = .error f c' ∧ f.cause = .integerOutOfRange (.ofList word) := by
  have hfull : WholeWord c.rest (rest ++ c.below) word := by
    rw [← c.line_append_below]
    exact (wholeWord_onLine c.feed_not_mem_line c.head_below).2 ⟨rest, hword, rfl⟩
  obtain ⟨numeral, htext, rfl⟩ := wholeWord_iff.1 hfull
  obtain ⟨c', hread, -⟩ := wholeNumeral_reads.complete htext
  rw [wholeValue_chars htext.wellFormed]
  have hvalue : numeral.value? = if -9223372036854775808 ≤ numeral.toInt ∧
      numeral.toInt ≤ 9223372036854775807 then some (Int64.ofInt numeral.toInt) else none := rfl
  split
  · rename_i hrange
    rw [if_pos hrange] at hvalue
    exact ⟨_, c', integer_eq_ok_iff.2 ⟨numeral, hread, hvalue⟩, value?_eq_some_iff.1 hvalue⟩
  · rename_i hrange
    rw [if_neg hrange] at hvalue
    refine ⟨⟨.integerOutOfRange (.ofList numeral.chars), c.position⟩, c', ?_, rfl⟩
    rw [Literal.integer, bind_of_ok (position_eq_ok_iff.2 ⟨rfl, rfl⟩), bind_of_ok hread, hvalue]
    rfl

end Scan

/-! ## 6. The grammar of literals -/

/-- What the scans of literals accept at a cursor, which may stand anywhere in a text and may have
    come there in any way. -/
structure LiteralsExact (c : Cursor) : Prop where
  string : Scan.Matches Literal.string StringWord c c.line c.below
  unclosed : ∀ body, c.line = '"' :: body → '"' ∉ body → ∃ f c', Literal.string c = .error f c' ∧
    f.cause.kind = if c.below = [] then .endOfText else .illegalLineBreak
  whole : Scan.Matches (WholeNumeral.chars <$> Literal.wholeNumeral) WholeWord c c.line c.below
  integer : Scan.Matches Literal.integer IntegerWord c c.line c.below
  range : ∀ word rest, WholeWord c.line rest word →
    if -9223372036854775808 ≤ wholeValue word ∧ wholeValue word ≤ 9223372036854775807 then
      ∃ n c', Literal.integer c = .ok n c' ∧ n.toInt = wholeValue word
    else ∃ f c', Literal.integer c = .error f c' ∧ f.cause.kind = .malformed
  decimal : Scan.Matches (DecimalNumeral.chars <$> Literal.decimalNumeral) DecimalWord c
    c.line c.below
  float : Scan.Matches Literal.float FloatWord c c.line c.below
  strings : Scan.Matches (Literal.list Literal.string) (ListText StringText) c c.rest []
  integers : Scan.Matches (Literal.list Literal.integer) (ListText IntegerWord) c c.rest []
  floats : Scan.Matches (Literal.list Literal.float) (ListText FloatWord) c c.rest []

/-- The scans of literals accept exactly their grammar: of strings and numbers the longest word that
    begins the rest of the line, of lists the items in brackets with a comma between neighbours. -/
theorem literals_exact (c : Cursor) : LiteralsExact c where
  string := Scan.string_matches_line c
  unclosed := by
    intro body hline hbody
    obtain ⟨f, c', herror, hcause⟩ := Scan.string_of_unclosed hline hbody
    refine ⟨f, c', herror, ?_⟩
    rw [hcause]
    split <;> rfl
  whole := Scan.wholeNumeral_readsWord.matches_line wholeWord_onLine c
  integer := (integerWord_eq ▸ Scan.integer_reads).matches_line integerWord_onLine c
  range := by
    intro word rest hword
    have hread := Scan.integer_of_word hword
    split at hread
    · rwa [if_pos ‹_›]
    · obtain ⟨f, c', herror, hcause⟩ := hread
      rw [if_neg ‹_›]
      exact ⟨f, c', herror, by rw [hcause]; rfl⟩
  decimal := Scan.decimalNumeral_readsWord.matches_line decimalWord_onLine c
  float := (floatWord_eq ▸ Scan.float_reads).matches_line floatWord_onLine c
  strings := Scan.stringList_reads.matches_rest c
  integers := (integerWord_eq ▸ Scan.integerList_reads).matches_rest c
  floats := (floatWord_eq ▸ Scan.floatList_reads).matches_rest c

end ControlScript
