import ControlScript.Proofs.Canonical.Numbers
import ControlScript.Proofs.Grammar.Respelling
import ControlScript.Proofs.Movement

/-!
# Values read back from their text

The text of a value is a literal of the kind of the value, and it means the value.  This holds
wherever no number goes on behind the text, so texts can be put together with commas, brackets and
blanks between them, and a scan that reads such a text gives the value back.
-/

namespace ControlScript.Grammar

/-! ## 1. Texts that stand for something -/

/-- No word goes on at the beginning of a text. -/
def WordEnds (rest : List Char) : Prop := ∀ c ∈ rest.head?, isWordChar c = false

theorem wordEnds_cons {c : Char} (h : isWordChar c = false) (rest : List Char) :
    WordEnds (c :: rest) := by
  intro d hd
  obtain rfl : c = d := Option.some.inj hd
  exact h

/-- No number goes on at the beginning of a text. -/
def NumberEnds (rest : List Char) : Prop :=
  ∀ c ∈ rest.head?, c.isDigit = false ∧ c ≠ '.' ∧ c ≠ 'e' ∧ c ≠ 'E'

theorem WordEnds.numberEnds {rest : List Char} (h : WordEnds rest) : NumberEnds rest :=
  fun c hc => continues_nothing (h c hc)

theorem blanks_space (text : List Char) : Blanks (' ' :: text) text := .blank (by decide) .none

theorem blanks_feed (text : List Char) : Blanks ('\n' :: text) text := .blank (by decide) .none

/-- A text stands for something as a phrase, wherever no word goes on behind it. -/
def Phrase.Stands {α : Type} (p : Phrase α) (text : List Char) (a : α) : Prop :=
  ∀ ⦃rest⦄, WordEnds rest → p (text ++ rest) rest a

theorem nameText_stands {name : String} (hne : name ≠ "")
    (hname : ∀ c ∈ name.toList, Scan.isNameChar c = true) :
    Phrase.Stands NameText name.toList name := by
  intro rest hrest
  refine ⟨⟨rfl, hname, ?_⟩, hne⟩
  intro c hc
  exact not_isNameChar_of_not_isWordChar (hrest c hc)

/-- Double quotes keep a string apart from everything behind it. -/
theorem stringText_quoted {s : String} (h : Quotable s) (rest : List Char) :
    StringText ((Value.quoted s).toList ++ rest) rest s := by
  refine ⟨?_, h⟩
  unfold Value.quoted
  simp

theorem integerText_integerText (n : Int64) {rest : List Char} (hrest : NumberEnds rest) :
    IntegerText ((Value.integerText n).toList ++ rest) rest n := by
  refine ⟨.ofInt n.toInt, ⟨?_, WholeNumeral.wellFormed_ofInt _, ?_⟩, WholeNumeral.value?_ofInt n⟩
  · unfold Value.integerText
    rw [String.toList_ofList]
  · intro c hc
    exact (hrest c hc).1

theorem floatText_floatText {x : Binary64} (h : x.isFinite = true) {rest : List Char}
    (hrest : NumberEnds rest) : FloatText ((Value.floatText x).toList ++ rest) rest x := by
  obtain ⟨n, hchars, hformed, hvalue⟩ := Binary64.exists_numeral Value.floatStyle h
  refine ⟨n, ⟨?_, hformed, ?_⟩, hvalue⟩
  · unfold Value.floatText
    rw [String.toList_ofList, hchars]
  · intro c hc
    obtain ⟨hdigit, hpoint, hmark⟩ := hrest c hc
    exact ⟨hdigit, fun _ _ => hpoint, fun _ => hmark⟩

/-! ## 2. Lists -/

section Lists

variable {α : Type} {item : Phrase α} {render : α → String} {close : Char}

/-- Items with commas between them stand for a first item and the others. -/
theorem items_stand (hclose : isWordChar close = false) (a : α) (others : List α)
    (hitems : ∀ b ∈ a :: others, item.Stands (render b).toList b) (rest : List Char) :
    ∃ t, item ((", ".intercalate ((a :: others).map render)).toList ++ close :: rest) t a ∧
      ItemsText close item t rest others := by
  induction others generalizing a with
  | nil =>
    refine ⟨close :: rest, ?_, .last .none⟩
    rw [List.map_cons, List.map_nil, String.intercalate_singleton]
    exact hitems a List.mem_cons_self (wordEnds_cons hclose rest)
  | cons b others ih =>
    obtain ⟨t, hb, hothers⟩ := ih b fun c hc => hitems c (List.mem_cons_of_mem _ hc)
    -- a comma and a blank stand between the first item and the second
    have htext : (", ".intercalate ((a :: b :: others).map render)).toList ++ close :: rest
        = (render a).toList ++ ',' :: ' ' ::
          ((", ".intercalate ((b :: others).map render)).toList ++ close :: rest) := by
      rw [List.map_cons, List.map_cons, String.intercalate_cons_cons]
      simp
    rw [htext]
    refine ⟨_, hitems a List.mem_cons_self (wordEnds_cons (by decide) _), ?_⟩
    exact .more .none (blanks_space _) hb hothers

/-- Brackets keep a list apart from everything behind it. -/
theorem listText_bracketed {items : List α}
    (hitems : ∀ a ∈ items, item.Stands (render a).toList a) (rest : List Char) :
    ListText item ((Value.bracketed (items.map render)).toList ++ rest) rest items := by
  unfold Value.bracketed
  cases items with
  | nil =>
    have htext : ("[" ++ ", ".intercalate (([] : List α).map render) ++ "]").toList ++ rest
        = '[' :: ']' :: rest := by simp
    rw [htext]
    exact .empty .none
  | cons a others =>
    have hclose : isWordChar ']' = false := by decide
    obtain ⟨t, hfirst, hothers⟩ := items_stand hclose a others hitems rest
    have htext : ("[" ++ ", ".intercalate ((a :: others).map render) ++ "]").toList ++ rest
        = '[' :: ((", ".intercalate ((a :: others).map render)).toList ++ ']' :: rest) := by simp
    rw [htext]
    exact .items .none hfirst hothers

end Lists

/-! ## 3. Values -/

/-- The text of a value that has a literal is such a literal, wherever no number goes on behind
    it. -/
theorem literalText_text {v : Value} (h : v.Literate) {rest : List Char} (hrest : NumberEnds rest) :
    LiteralText v.kind (v.text.toList ++ rest) rest v := by
  cases v with
  | string s => exact .string (stringText_quoted h rest)
  | integer n => exact .integer (integerText_integerText n hrest)
  | float x => exact .float (floatText_floatText h hrest)
  | stringList items =>
    exact .stringList (listText_bracketed (fun s hs t _ => stringText_quoted (h s hs) t) rest)
  | integerList items =>
    exact .integerList (listText_bracketed
      (fun n _ _ ht => integerText_integerText n ht.numberEnds) rest)
  | floatList items =>
    exact .floatList (listText_bracketed
      (fun x hx _ ht => floatText_floatText (h x hx) ht.numberEnds) rest)

theorem literalText_stands {value : Value} (h : value.Literate) :
    (LiteralText value.kind).Stands value.text.toList value :=
  fun _ hrest => literalText_text h hrest.numberEnds

end ControlScript.Grammar

/-! ## 4. Reading the text of a value -/

namespace ControlScript

open Grammar

theorem Cursor.start_of_head? {file : String} {text : List Char} (h : text.head? ≠ some '\n') :
    start file text = ⟨file, text, {}, false⟩ := by
  have hfeeds : feeds text = 0 := by
    cases text with
    | nil => rfl
    | cons c text => rw [feeds, List.takeWhile_cons_of_neg (by simpa using h), List.length_nil]
  rw [start, hfeeds]
  rfl

/-- A text that begins with no blanks begins with no line feed. -/
theorem head?_ne_feed_of_trim {text : List Char} (h : trim text = text) :
    text.head? ≠ some '\n' := by
  intro hhead
  obtain ⟨t, rfl⟩ := List.head?_eq_some_iff.1 hhead
  have hlength := length_trim_le t
  rw [trim_blank (by decide)] at h
  rw [h, List.length_cons] at hlength
  omega

/-- What a scan leaves of a text is cut off at the end of the text, so it has passed all the
    rest. -/
theorem Cursor.Reaches.place_of_append {c c' : Cursor} (h : c.Reaches c') {run : List Char}
    (hrest : c.rest = run ++ c'.rest) : c'.place = c.place.afterAll run := by
  obtain ⟨run', hrest', hplace⟩ := h.passed
  rw [hrest, List.append_cancel_right_eq] at hrest'
  rw [hrest', hplace]

/-- A scan in front of the text of a value reads the value, and moves over the text and over the
    line feeds behind it. -/
theorem value_of_text {v : Value} (h : v.Literate) {c : Cursor} {rest : List Char}
    (hrest : NumberEnds rest) (hc : c.rest = v.text.toList ++ rest) :
    ∃ c', Literal.value v.kind c = .ok v c' ∧ c'.rest = dropFeeds rest ∧
      c'.place = c.place.afterAll (v.text.toList ++ rest.takeWhile (· == '\n')) := by
  obtain ⟨c', hread, hc'⟩ := (Scan.value_reads v.kind).complete (hc ▸ literalText_text h hrest)
  refine ⟨c', hread, hc', ?_⟩
  apply ((Literal.forward_value v.kind).reaches hread).place_of_append
  rw [hc, hc', List.append_assoc, dropFeeds, List.takeWhile_append_dropWhile]

/-- The text of a value is read back as the value: on its own it is all of the text, and before
    anything that does not go on with a number it is what the cursor moves over. -/
theorem values_read_back {v : Value} (h : v.Literate) (file : String) :
    (∃ c', Literal.value v.kind (.start file v.text.toList) = .ok v c' ∧ c'.atEnd = true) ∧
      ∀ rest, NumberEnds rest →
        ∃ c', Literal.value v.kind (.start file (v.text.toList ++ rest)) = .ok v c' ∧
          c'.rest = dropFeeds rest ∧
          c'.place = Place.afterAll {} (v.text.toList ++ rest.takeWhile (· == '\n')) := by
  have hread : ∀ rest, NumberEnds rest →
      ∃ c', Literal.value v.kind (.start file (v.text.toList ++ rest)) = .ok v c' ∧
        c'.rest = dropFeeds rest ∧
        c'.place = Place.afterAll {} (v.text.toList ++ rest.takeWhile (· == '\n')) := by
    intro rest hrest
    -- a literal begins with no line feed, so a cursor starts in front of it
    have hsolid := literalText_solid v.kind (literalText_text h hrest)
    rw [Cursor.start_of_head? (head?_ne_feed_of_trim hsolid)]
    exact value_of_text h hrest rfl
  refine ⟨?_, hread⟩
  obtain ⟨c', hvalue, hrest, -⟩ := hread [] (by simp [NumberEnds])
  rw [List.append_nil] at hvalue
  refine ⟨c', hvalue, ?_⟩
  rw [Cursor.atEnd, hrest]
  rfl

/-- A list of the negative zero and of a number with an exponent is read back from its text. -/
theorem values_read_back_floats :
    (Value.floatList [⟨true, 0, by decide⟩, ⟨false, 4921056587992461136, by decide⟩]).Literate ∧
      ∃ c', Literal.value .floatList (.start "main" "[-0.0, 1e21]\n]".toList)
          = .ok (.floatList [⟨true, 0, by decide⟩, ⟨false, 4921056587992461136, by decide⟩]) c' ∧
        c'.rest = [']'] := by
  have hliterate : (Value.floatList
      [⟨true, 0, by decide⟩, ⟨false, 4921056587992461136, by decide⟩]).Literate := by
    simp only [Value.Literate, List.forall_mem_cons, List.not_mem_nil, false_implies, implies_true,
      and_true]
    decide
  have hends : NumberEnds ['\n', ']'] := by
    intro c hc
    obtain rfl : '\n' = c := Option.some.inj hc
    decide
  obtain ⟨c', hread, hrest, -⟩ := (values_read_back hliterate "main").2 ['\n', ']'] hends
  have htext : (Value.floatList [⟨true, 0, by decide⟩, ⟨false, 4921056587992461136, by decide⟩]).text
      = "[-0.0, 1e21]" := by decide +kernel
  rw [htext] at hread
  exact ⟨hliterate, c', hread, hrest⟩

end ControlScript
