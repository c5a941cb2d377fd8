import ControlScript.Proofs.Literal

/-!
# Spellings of tokens

A list of tokens is spelled by texts that differ in the blanks and comments between the tokens.  Two
texts that spell the same tokens begin alike, up to these, and are still such texts behind whatever
was taken from both.  A part of a name or of a number may be taken, so the tokens of this second
notion are words that may be cut anywhere.
-/

namespace ControlScript.Grammar

/-! ## 1. Tokens -/

/-- The characters that are tokens of their own. -/
def marks : List Char := ['(', ')', '\x7b', '\x7d', ',', '=', '[', ']']

/-- A token: a name or a number, a string, or a mark. -/
inductive Token where
  | word (text : List Char)
  | string (body : List Char)
  | mark (c : Char)

namespace Token

/-- How a token is written. -/
def chars : Token → List Char
  | word text => text
  | string body => '"' :: (body ++ ['"'])
  | mark c => [c]

/-- Whether a token is a mark. -/
def isMark : Token → Bool
  | mark _ => true
  | _ => false

/-- The tokens of control scripts: runs of characters of names, complete number literals, strings
    on one line, and marks. -/
inductive WellFormed : Token → Prop where
  | name {text : List Char} :
      text ≠ [] → (∀ c ∈ text, Scan.isNameChar c = true) → WellFormed (word text)
  | number {n : DecimalNumeral} : n.WellFormed → WellFormed (word n.chars)
  | string {body : List Char} : (∀ c ∈ body, c ≠ '"' ∧ c ≠ '\n') → WellFormed (string body)
  | mark {c : Char} : c ∈ marks → WellFormed (mark c)

end Token

/-- What separates tokens: blanks, and comments together with the ends of their lines. -/
inductive Gap : List Char → Prop where
  | nil : Gap []
  | blank {c : Char} {gap : List Char} : Scan.isBlank c = true → Gap gap → Gap (c :: gap)
  | comment {body gap : List Char} :
      '\n' ∉ body → Gap gap → Gap ('#' :: (body ++ '\n' :: gap))

/-- A text that begins with the first of some tokens and has a separator behind each, which may be
    empty only next to a mark or at the end. -/
inductive Spells : List Token → List Char → Prop where
  | nil : Spells [] []
  | cons {t : Token} {others : List Token} {gap text : List Char} :
      Gap gap → (gap = [] → t.isMark = true ∨ ∀ next ∈ others.head?, next.isMark = true) →
        Spells others text → Spells (t :: others) (t.chars ++ (gap ++ text))

/-- A source that consists of some tokens, with separators before, between and behind them. -/
def Written (tokens : List Token) (source : List Char) : Prop :=
  ∃ gap text, source = gap ++ text ∧ Gap gap ∧ Spells tokens text

/-! ## 2. Words that may be cut -/

/-- The characters of names and numbers. -/
def isWordChar (c : Char) : Bool := Scan.isNameChar c || c = '.' || c = '+' || c = '-'

/-- A token whose words are any characters of names and numbers. -/
def Token.Coarse : Token → Prop
  | word text => text ≠ [] ∧ ∀ c ∈ text, isWordChar c = true
  | string body => ∀ c ∈ body, c ≠ '"' ∧ c ≠ '\n'
  | mark c => c ∈ marks

theorem isWordChar_of_isNameChar {c : Char} (h : Scan.isNameChar c = true) :
    isWordChar c = true := by simp [isWordChar, h]

theorem isWordChar_of_isDigit {c : Char} (h : c.isDigit = true) : isWordChar c = true :=
  isWordChar_of_isNameChar (by simp [Scan.isNameChar, Char.isAlphanum, h])

theorem isWordChar_sign (sign : Sign) : isWordChar sign.char = true := by cases sign <;> decide

/-- Characters of names and numbers separate nothing. -/
theorem not_isWordChar_blank {c : Char} (h : Scan.isBlank c = true) : isWordChar c = false := by
  simp only [Scan.isBlank, Bool.or_eq_true, decide_eq_true_eq] at h
  rcases h with ((rfl | rfl) | rfl) | rfl <;> decide

theorem not_isWordChar_mark {c : Char} (h : c ∈ marks) : isWordChar c = false := by
  have hall : marks.all (fun c => isWordChar c == false) = true := by decide
  exact beq_iff_eq.1 (List.all_eq_true.1 hall c h)

theorem solid_mark {c : Char} (h : c ∈ marks) (text : List Char) : trim (c :: text) = c :: text := by
  have hall : marks.all (fun c => !Scan.isBlank c && c != '#') = true := by decide
  have hc := List.all_eq_true.1 hall c h
  rw [Bool.and_eq_true, Bool.not_eq_true', bne_iff_ne] at hc
  exact trim_solid hc.1 hc.2 text

theorem solid_wordChar {c : Char} (h : isWordChar c = true) (text : List Char) :
    trim (c :: text) = c :: text := by
  refine trim_solid ?_ ?_ text
  · cases hc : Scan.isBlank c with
    | false => rfl
    | true => exact absurd (not_isWordChar_blank hc) (by simp [h])
  · rintro rfl
    exact absurd h (by decide)

theorem wordChars_of_whole {n : WholeNumeral} (h : n.WellFormed) :
    ∀ c ∈ n.chars, isWordChar c = true := by
  intro c hc
  rw [WholeNumeral.chars, List.mem_append] at hc
  rcases hc with hc | hc
  · obtain ⟨sign, -, rfl⟩ := List.mem_map.1 hc
    exact isWordChar_sign sign
  · exact isWordChar_of_isDigit (h.digits c hc)

theorem wordChars_of_decimal {n : DecimalNumeral} (h : n.WellFormed) :
    ∀ c ∈ n.chars, isWordChar c = true := by
  obtain ⟨sign, whole, fraction, exponent⟩ := n
  intro c hc
  simp only [DecimalNumeral.chars, List.mem_append] at hc
  rcases hc with ((hc | hc) | hc) | hc
  · obtain ⟨sign, -, rfl⟩ := List.mem_map.1 hc
    exact isWordChar_sign sign
  · exact isWordChar_of_isDigit (h.whole c hc)
  · cases fraction with
    | none => simp at hc
    | some digits =>
      rcases List.mem_cons.1 hc with rfl | hc
      · decide
      · exact isWordChar_of_isDigit (h.fraction c hc)
  · cases exponent with
    | none => simp at hc
    | some found =>
      obtain ⟨mark, e⟩ := found
      obtain ⟨hmark, he⟩ := h.exponent mark e rfl
      rcases List.mem_cons.1 hc with rfl | hc
      · rcases hmark with rfl | rfl <;> decide
      · exact wordChars_of_whole he c hc

theorem Token.WellFormed.coarse {t : Token} (h : t.WellFormed) : t.Coarse := by
  cases h with
  | name hne hall => exact ⟨hne, fun c hc => isWordChar_of_isNameChar (hall c hc)⟩
  | number hn =>
    obtain ⟨c, t, ht, -⟩ := hn.head
    exact ⟨by rw [ht]; exact List.cons_ne_nil c t, wordChars_of_decimal hn⟩
  | string hbody => exact hbody
  | mark hc => exact hc

/-- A token begins with a character of a word, a double quote or a mark. -/
theorem Token.Coarse.solid {t : Token} (h : t.Coarse) (text : List Char) :
    trim (t.chars ++ text) = t.chars ++ text := by
  cases t with
  | word run =>
    obtain ⟨c, run, rfl⟩ := List.exists_cons_of_ne_nil h.1
    exact solid_wordChar (h.2 c List.mem_cons_self) _
  | string body => exact trim_solid (by decide) (by decide) _
  | mark c => exact solid_mark h _

theorem Gap.blanks {gap : List Char} (h : Gap gap) (text : List Char) :
    Blanks (gap ++ text) text := by
  induction h with
  | nil => exact .none
  | blank hc _ ih => exact .blank hc ih
  | comment hbody _ ih =>
    rw [List.cons_append, List.append_assoc]
    exact .comment hbody (by simp) (.blank (by decide) ih)

theorem Gap.trim_eq {gap : List Char} (h : Gap gap) (text : List Char) :
    trim (gap ++ text) = trim text := (h.blanks text).trim_eq

theorem Gap.head {gap : List Char} (h : Gap gap) : ∀ c ∈ gap.head?, isWordChar c = false := by
  cases h with
  | nil => simp
  | blank hc _ =>
    rintro _ ⟨⟩
    exact not_isWordChar_blank hc
  | comment _ _ =>
    rintro _ ⟨⟩
    decide

section Spelled

variable {tokens : List Token} {text : List Char}

theorem Spells.solid (hcoarse : ∀ t ∈ tokens, t.Coarse) (h : Spells tokens text) :
    trim text = text := by
  cases h with
  | nil => rfl
  | cons _ _ _ => exact (hcoarse _ List.mem_cons_self).solid _

/-- What stands behind a word is no part of a word. -/
theorem Spells.head {gap : List Char} (hcoarse : ∀ t ∈ tokens, t.Coarse)
    (hgap : Gap gap) (hmark : gap = [] → ∀ next ∈ tokens.head?, next.isMark = true)
    (h : Spells tokens text) : ∀ c ∈ (gap ++ text).head?, isWordChar c = false := by
  by_cases hnil : gap = []
  · subst hnil
    cases h with
    | nil => simp
    | @cons t others gap' text' _ _ _ =>
      cases t with
      | mark c =>
        rintro _ ⟨⟩
        exact not_isWordChar_mark (hcoarse _ List.mem_cons_self)
      | word _ => exact absurd (hmark rfl _ rfl) (by simp [Token.isMark])
      | string _ => exact absurd (hmark rfl _ rfl) (by simp [Token.isMark])
  · rw [head?_append_of_ne_nil hnil]
    exact hgap.head

end Spelled

/-! ## 3. Texts that are spelled alike -/

/-- Two texts that begin with the same tokens, up to the blanks in front of them. -/
def Alike (s t : List Char) : Prop :=
  ∃ tokens : List Token, (∀ token ∈ tokens, token.Coarse) ∧ Spells tokens (trim s) ∧
    Spells tokens (trim t)

theorem Alike.symm {s t : List Char} (h : Alike s t) : Alike t s := by
  obtain ⟨tokens, hcoarse, hs, ht⟩ := h
  exact ⟨tokens, hcoarse, ht, hs⟩

theorem Alike.of_trim_eq {s s' t t' : List Char} (h : Alike s t) (hs : trim s' = trim s)
    (ht : trim t' = trim t) : Alike s' t' := by
  rwa [Alike, hs, ht]

theorem Alike.blanks {s s' t : List Char} (h : Alike s t) (hs : Blanks s s') : Alike s' t :=
  h.of_trim_eq hs.trim_eq.symm rfl

theorem alike_of_written {tokens : List Token} (hcoarse : ∀ t ∈ tokens, t.Coarse)
    {s t : List Char} (hs : Written tokens s) (ht : Written tokens t) : Alike s t := by
  obtain ⟨gap, text, rfl, hgap, hspells⟩ := hs
  obtain ⟨gap', text', rfl, hgap', hspells'⟩ := ht
  refine ⟨tokens, hcoarse, ?_, ?_⟩
  · rwa [hgap.trim_eq, hspells.solid hcoarse]
  · rwa [hgap'.trim_eq, hspells'.solid hcoarse]

/-- Texts that are spelled alike end together. -/
theorem Alike.nil_iff {s t : List Char} (h : Alike s t) : trim s = [] ↔ trim t = [] := by
  obtain ⟨tokens, hcoarse, hs, ht⟩ := h
  have hnil : ∀ {text}, Spells tokens text → (text = [] ↔ tokens = []) := by
    intro text htext
    cases htext with
    | nil => simp
    | @cons t others gap text _ _ _ =>
      have ht := hcoarse t List.mem_cons_self
      cases t with
      | word run => simp [Token.chars, ht.1]
      | string body => simp [Token.chars]
      | mark c => simp [Token.chars]
  rw [hnil hs, hnil ht]

/-- Texts that are spelled alike begin alike. -/
theorem Alike.head_eq {s t : List Char} (h : Alike s t) : (trim s).head? = (trim t).head? := by
  obtain ⟨tokens, hcoarse, hs, ht⟩ := h
  have hhead : ∀ {text}, Spells tokens text → text.head? = tokens.head?.bind (·.chars.head?) := by
    intro text htext
    cases htext with
    | nil => rfl
    | @cons t others gap text _ _ _ =>
      have ht := hcoarse t List.mem_cons_self
      rw [List.head?_cons, Option.bind_some]
      cases t with
      | word run => exact head?_append_of_ne_nil ht.1 _
      | string body => rfl
      | mark c => rfl
  rw [hhead hs, hhead ht]

/-- A text that begins with a token, then has a separator, and then other tokens. -/
structure Split (token : Token) (others : List Token) (s gap text : List Char) : Prop where
  spelled : s = token.chars ++ (gap ++ text)
  separator : Gap gap
  separated : gap = [] → token.isMark = true ∨ ∀ next ∈ others.head?, next.isMark = true
  behind : Spells others text

/-- Texts that are spelled alike and are more than blanks have a first token in common. -/
theorem Alike.first {s t : List Char} (h : Alike s t) (hne : trim s ≠ []) :
    ∃ token others gap text gap' text', (∀ t ∈ token :: others, t.Coarse) ∧
      Split token others (trim s) gap text ∧ Split token others (trim t) gap' text' := by
  obtain ⟨tokens, hcoarse, hs, ht⟩ := h
  generalize trim s = s at hs hne
  generalize trim t = t at ht
  cases hs with
  | nil => exact absurd rfl hne
  | @cons token others gap text hgap hseparated hothers =>
    cases ht with
    | @cons _ _ gap' text' hgap' hseparated' hothers' =>
      exact ⟨token, others, gap, text, gap', text', hcoarse, ⟨rfl, hgap, hseparated, hothers⟩,
        ⟨rfl, hgap', hseparated', hothers'⟩⟩

/-- Behind a token that two texts have in common they are spelled alike. -/
theorem Split.alike {token : Token} {others : List Token} {s gap text t gap' text' : List Char}
    (hcoarse : ∀ t ∈ token :: others, t.Coarse) (hs : Split token others s gap text)
    (ht : Split token others t gap' text') : Alike (gap ++ text) (gap' ++ text') := by
  have hothers : ∀ t ∈ others, t.Coarse := fun t ht => hcoarse t (List.mem_cons_of_mem _ ht)
  refine ⟨others, hothers, ?_, ?_⟩
  · rw [hs.separator.trim_eq, hs.behind.solid hothers]
    exact hs.behind
  · rw [ht.separator.trim_eq, ht.behind.solid hothers]
    exact ht.behind

/-- A mark at the beginning of one text is at the beginning of the other. -/
theorem Alike.mark {c : Char} {s rest t : List Char} (h : Alike s t) (hc : c ∈ marks)
    (hs : trim s = c :: rest) : ∃ rest', trim t = c :: rest' ∧ Alike rest rest' := by
  obtain ⟨token, others, gap, text, gap', text', hcoarse, hsplit, hsplit'⟩ :=
    h.first (by rw [hs]; exact List.cons_ne_nil _ _)
  have hspelled := hs.symm.trans hsplit.spelled
  have halike := hsplit.alike hcoarse hsplit'
  cases token with
  | mark d =>
    obtain ⟨rfl, rfl⟩ := List.cons.inj hspelled
    exact ⟨gap' ++ text', hsplit'.spelled, halike⟩
  | word run =>
    obtain ⟨hne, hall⟩ := hcoarse _ List.mem_cons_self
    obtain ⟨d, run, rfl⟩ := List.exists_cons_of_ne_nil hne
    obtain ⟨rfl, -⟩ := List.cons.inj hspelled
    exact absurd (hall c List.mem_cons_self) (by simp [not_isWordChar_mark hc])
  | string body =>
    obtain ⟨rfl, -⟩ := List.cons.inj hspelled
    exact absurd hc (by decide)

/-- Two strings that are spelled by one text are the same. -/
theorem eq_of_quoted {body body' rest rest' : List Char} (hbody : ∀ c ∈ body, c ≠ '"')
    (hbody' : ∀ c ∈ body', c ≠ '"') (h : body ++ '"' :: rest = body' ++ '"' :: rest') :
    body = body' ∧ rest = rest' := by
  have hrun : ∀ {body rest : List Char}, (∀ c ∈ body, c ≠ '"') →
      Run (· != '"') (body ++ '"' :: rest) ('"' :: rest) body := fun hbody =>
    ⟨rfl, fun c hc => bne_iff_ne.2 (hbody c hc), by simp⟩
  obtain ⟨htaken, hleft⟩ := (hrun hbody).eq_takeWhile
  obtain ⟨htaken', hleft'⟩ := (hrun hbody').eq_takeWhile
  rw [h, ← htaken'] at htaken
  rw [h, ← hleft'] at hleft
  exact ⟨htaken, (List.cons.inj hleft).2⟩

/-- A string at the beginning of one text is at the beginning of the other. -/
theorem Alike.string {body : String} {s rest t : List Char} (h : Alike s t)
    (hs : StringText s rest body) : ∃ rest', StringText (trim t) rest' body ∧ Alike rest rest' := by
  have hsolid := stringText_solid hs
  obtain ⟨token, others, gap, text, gap', text', hcoarse, hsplit, hsplit'⟩ :=
    h.first (by rw [hsolid, hs.spelled]; exact List.cons_ne_nil _ _)
  have hspelled := (hsolid.trans hs.spelled).symm.trans hsplit.spelled
  have htoken := hcoarse _ List.mem_cons_self
  cases token with
  | string found =>
    rw [Token.chars, List.cons_append, List.append_assoc, List.singleton_append] at hspelled
    obtain ⟨rfl, rfl⟩ := eq_of_quoted (fun c hc => (hs.plain c hc).1) (fun c hc => (htoken c hc).1)
      (List.cons.inj hspelled).2
    refine ⟨gap' ++ text', ⟨?_, hs.plain⟩, hsplit.alike hcoarse hsplit'⟩
    rw [hsplit'.spelled, Token.chars, List.cons_append, List.append_assoc, List.singleton_append]
  | word run =>
    obtain ⟨d, run, rfl⟩ := List.exists_cons_of_ne_nil htoken.1
    obtain ⟨rfl, -⟩ := List.cons.inj hspelled
    exact absurd (htoken.2 _ List.mem_cons_self) (by decide)
  | mark c =>
    obtain ⟨rfl, -⟩ := List.cons.inj hspelled
    exact absurd (show '"' ∈ marks from htoken) (by decide)

/-- A run of characters of words at the beginning of a text is part of its first token. -/
theorem Split.cut {token : Token} {others : List Token} {s gap text run rest : List Char}
    (hcoarse : ∀ t ∈ token :: others, t.Coarse) (hsplit : Split token others s gap text)
    (hs : s = run ++ rest) (hne : run ≠ []) (hrun : ∀ c ∈ run, isWordChar c = true) :
    ∃ left, token = .word (run ++ left) ∧ rest = left ++ (gap ++ text) := by
  have hspelled := hs.symm.trans hsplit.spelled
  have htoken := hcoarse _ List.mem_cons_self
  obtain ⟨c, run', hcons⟩ := List.exists_cons_of_ne_nil hne
  have hc : isWordChar c = true := hrun c (hcons ▸ List.mem_cons_self)
  cases token with
  | word whole =>
    rcases List.append_eq_append_iff.1 hspelled with ⟨left, hwhole, hrest⟩ | ⟨extra, hextra, hrest⟩
    · exact ⟨left, congrArg Token.word hwhole, hrest⟩
    · -- what the run would have beyond the token is not part of a word
      cases extra with
      | nil => exact ⟨[], by rw [hextra, List.append_nil, List.append_nil]; rfl, hrest.symm⟩
      | cons d extra =>
        have hmark : gap = [] → ∀ next ∈ others.head?, next.isMark = true := fun hnil =>
          (hsplit.separated hnil).resolve_left (by simp [Token.isMark])
        have hd := hsplit.behind.head (fun t ht => hcoarse t (List.mem_cons_of_mem _ ht))
          hsplit.separator hmark d (by rw [hrest]; rfl)
        have hd' := hrun d (by rw [hextra]; exact List.mem_append_right _ List.mem_cons_self)
        rw [hd] at hd'
        cases hd'
  | string body =>
    rw [hcons] at hspelled
    obtain ⟨rfl, -⟩ := List.cons.inj hspelled
    exact absurd hc (by decide)
  | mark d =>
    rw [hcons] at hspelled
    obtain ⟨rfl, -⟩ := List.cons.inj hspelled
    exact absurd (not_isWordChar_mark htoken) (by simp [hc])

/-- A run of characters of words at the beginning of one text is at the beginning of the other; and
    if it goes on in neither or in both, it goes on alike. -/
theorem Alike.run {run s rest t : List Char} (h : Alike s t) (hs : trim s = run ++ rest)
    (hne : run ≠ []) (hrun : ∀ c ∈ run, isWordChar c = true) :
    ∃ rest', trim t = run ++ rest' ∧ Alike rest rest' ∧
      ∀ {p : Char → Prop}, (∀ c, isWordChar c = false → p c) → (∀ c ∈ rest.head?, p c) →
        ∀ c ∈ rest'.head?, p c := by
  have hne' : trim s ≠ [] := by
    rw [hs]
    exact List.append_ne_nil_of_left_ne_nil hne rest
  obtain ⟨token, others, gap, text, gap', text', hcoarse, hsplit, hsplit'⟩ := h.first hne'
  obtain ⟨left, rfl, rfl⟩ := hsplit.cut hcoarse hs hne hrun
  refine ⟨left ++ (gap' ++ text'), ?_, ?_⟩
  · rw [hsplit'.spelled, Token.chars, List.append_assoc]
  have hothers : ∀ t ∈ others, t.Coarse := fun t ht => hcoarse t (List.mem_cons_of_mem _ ht)
  have halike := hsplit.alike hcoarse hsplit'
  -- the run ends with its word or inside of it; only in the second case the word goes on
  by_cases hleft : left = []
  · subst hleft
    refine ⟨halike, fun hp _ c hc => hp c ?_⟩
    exact hsplit'.behind.head hothers hsplit'.separator
      (fun hnil => (hsplit'.separated hnil).resolve_left (by simp [Token.isMark])) c hc
  · have hword : Token.Coarse (.word left) := ⟨hleft, fun c hc =>
      (hcoarse _ List.mem_cons_self).2 c (List.mem_append_right _ hc)⟩
    refine ⟨⟨.word left :: others, List.forall_mem_cons.2 ⟨hword, hothers⟩, ?_, ?_⟩,
      fun _ hp => ?_⟩
    · rw [show trim (left ++ (gap ++ text)) = _ from hword.solid (gap ++ text)]
      exact .cons hsplit.separator hsplit.separated hsplit.behind
    · rw [show trim (left ++ (gap' ++ text')) = _ from hword.solid (gap' ++ text')]
      exact .cons hsplit'.separator hsplit'.separated hsplit'.behind
    · rwa [head?_append_of_ne_nil hleft] at hp ⊢

end ControlScript.Grammar
