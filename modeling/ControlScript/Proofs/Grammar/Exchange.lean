import ControlScript.Proofs.Grammar.Extent

/-!
# Texts whose end is exchanged

A phrase looks no further than one character behind itself, and a line feed there ends whatever could
go on.  So a phrase is still found when something behind it, or right at its end, is exchanged for a
text that begins with a line feed.  Phrases are followed from their ends to their beginnings, since
it is the rest that is known to be exchanged.
-/

namespace ControlScript.Grammar

/-! ## 1. Exchanging the end of a text -/

/-- The second text is the first one with its end `hole` exchanged for a line feed and `tail`. -/
inductive Exchanged (hole tail : List Char) : List Char → List Char → Prop where
  | here : Exchanged hole tail hole ('\n' :: tail)
  | cons {text text' : List Char} (c : Char) :
      Exchanged hole tail text text' → Exchanged hole tail (c :: text) (c :: text')

section Ends

variable {hole tail text text' : List Char}

theorem Exchanged.append (run : List Char) (h : Exchanged hole tail text text') :
    Exchanged hole tail (run ++ text) (run ++ text') := by
  induction run with
  | nil => exact h
  | cons c run ih => exact ih.cons c

theorem Exchanged.exists_eq (h : Exchanged hole tail text text') :
    ∃ front, text = front ++ hole ∧ text' = front ++ '\n' :: tail := by
  induction h with
  | here => exact ⟨[], rfl, rfl⟩
  | cons c _ ih =>
    obtain ⟨front, htext, htext'⟩ := ih
    exact ⟨c :: front, by rw [htext, List.cons_append], by rw [htext', List.cons_append]⟩

/-- What is in front of the end decides the exchanged text. -/
theorem Exchanged.eq_append {front : List Char}
    (h : Exchanged hole tail (front ++ hole) text') : text' = front ++ '\n' :: tail := by
  obtain ⟨front', hfront, htext'⟩ := h.exists_eq
  rw [List.append_cancel_right hfront, htext']

/-- What holds of the first character, and of line feeds, holds after the exchange. -/
theorem Exchanged.forall_head {p : Char → Prop} (h : Exchanged hole tail text text') (hfeed : p '\n')
    (htext : ∀ c ∈ text.head?, p c) : ∀ c ∈ text'.head?, p c := by
  cases h with
  | here =>
    intro c hc
    obtain rfl : '\n' = c := Option.some.inj hc
    exact hfeed
  | cons c _ => exact htext

theorem Exchanged.head_ne {ch : Char} (h : Exchanged hole tail text text') (hch : ch ≠ '\n')
    (htext : text.head? ≠ some ch) : text'.head? ≠ some ch := by
  intro htext'
  refine h.forall_head (p := fun c => c ≠ ch) hch.symm ?_ ch htext' rfl
  intro c hc hcc
  exact htext (hcc ▸ hc)

end Ends

/-- A kind of phrase that is found although the text behind it has its end exchanged. -/
def Phrase.Exchanges (hole tail : List Char) {α : Type} (p : Phrase α) : Prop :=
  ∀ ⦃text rest a rest'⦄, p text rest a → Exchanged hole tail rest rest' →
    ∃ text', Exchanged hole tail text text' ∧ p text' rest' a

variable {hole tail : List Char}

/-! ## 2. Tokens -/

theorem Blanks.exchange {text rest rest' : List Char} (h : Blanks text rest)
    (hrest : Exchanged hole tail rest rest') :
    ∃ text', Exchanged hole tail text text' ∧ Blanks text' rest' := by
  induction h with
  | none => exact ⟨rest', hrest, .none⟩
  | @blank c _ _ hc _ ih =>
    obtain ⟨text', htext, hblanks⟩ := ih hrest
    exact ⟨c :: text', htext.cons c, .blank hc hblanks⟩
  | @comment body _ _ hbody hend _ ih =>
    obtain ⟨text', htext, hblanks⟩ := ih hrest
    refine ⟨'#' :: (body ++ text'), (htext.append body).cons '#', .comment hbody ?_ hblanks⟩
    exact htext.forall_head rfl hend

theorem NameText.head?_eq {text rest : List Char} {name : String} (h : NameText text rest name) :
    text.head? = name.toList.head? := by
  have hne : name.toList ≠ [] := fun hnil => h.nonempty (by simpa using hnil)
  rw [h.run.spelled, List.head?_append_of_ne_nil _ hne]

theorem nameText_exchanges : Phrase.Exchanges hole tail NameText := by
  intro text rest name rest' h hrest
  refine ⟨name.toList ++ rest', h.run.spelled ▸ hrest.append _, ⟨rfl, h.run.all, ?_⟩, h.nonempty⟩
  exact hrest.forall_head (p := fun c => Scan.isNameChar c = false) not_isNameChar_feed h.run.stops

theorem stringText_exchanges : Phrase.Exchanges hole tail StringText := by
  intro text rest s rest' h hrest
  refine ⟨'"' :: (s.toList ++ '"' :: rest'), ?_, rfl, h.plain⟩
  rw [h.spelled]
  exact ((hrest.cons '"').append s.toList).cons '"'

theorem integerText_exchanges : Phrase.Exchanges hole tail IntegerText := by
  rintro text rest n rest' ⟨numeral, h, hvalue⟩ hrest
  refine ⟨numeral.chars ++ rest', h.spelled ▸ hrest.append _, numeral, ⟨rfl, h.wellFormed, ?_⟩,
    hvalue⟩
  exact hrest.forall_head (p := fun c => c.isDigit = false) (by decide) h.stops

theorem floatText_exchanges : Phrase.Exchanges hole tail FloatText := by
  rintro text rest x rest' ⟨numeral, h, hvalue⟩ hrest
  refine ⟨numeral.chars ++ rest', h.spelled ▸ hrest.append _, numeral, ⟨rfl, h.wellFormed, ?_⟩,
    hvalue⟩
  refine hrest.forall_head ?_ h.stops
  exact ⟨by decide, fun _ _ => by decide, fun _ => by decide⟩

/-! ## 3. Literals -/

section Lists

variable {α : Type} {item : Phrase α}

theorem itemsText_exchanges {close : Char} (hitem : item.Exchanges hole tail) :
    Phrase.Exchanges hole tail (ItemsText close item) := by
  intro text rest items rest' h hrest
  induction h with
  | last hlast =>
    obtain ⟨text', htext, hlast'⟩ := hlast.exchange (hrest.cons close)
    exact ⟨text', htext, .last hlast'⟩
  | more hcomma hnext hfirst _ ih =>
    obtain ⟨t₃, ht₃, hothers⟩ := ih hrest
    obtain ⟨t₂, ht₂, hfirst'⟩ := hitem hfirst ht₃
    obtain ⟨t₁, ht₁, hnext'⟩ := hnext.exchange ht₂
    obtain ⟨text', htext, hcomma'⟩ := hcomma.exchange (ht₁.cons ',')
    exact ⟨text', htext, .more hcomma' hnext' hfirst' hothers⟩

theorem listText_exchanges (hitem : item.Exchanges hole tail) :
    Phrase.Exchanges hole tail (ListText item) := by
  intro text rest items rest' h hrest
  cases h with
  | empty hlast =>
    obtain ⟨t, ht, hlast'⟩ := hlast.exchange (hrest.cons ']')
    exact ⟨'[' :: t, ht.cons '[', .empty hlast'⟩
  | items hnext hfirst hothers =>
    obtain ⟨t₂, ht₂, hothers'⟩ := itemsText_exchanges hitem hothers hrest
    obtain ⟨t₁, ht₁, hfirst'⟩ := hitem hfirst ht₂
    obtain ⟨t, ht, hnext'⟩ := hnext.exchange ht₁
    exact ⟨'[' :: t, ht.cons '[', .items hnext' hfirst' hothers'⟩

end Lists

theorem literalText_exchanges (kind : ValueKind) :
    Phrase.Exchanges hole tail (LiteralText kind) := by
  intro text rest value rest' h hrest
  cases h with
  | string h =>
    obtain ⟨text', htext, h'⟩ := stringText_exchanges h hrest
    exact ⟨text', htext, .string h'⟩
  | integer h =>
    obtain ⟨text', htext, h'⟩ := integerText_exchanges h hrest
    exact ⟨text', htext, .integer h'⟩
  | float h =>
    obtain ⟨text', htext, h'⟩ := floatText_exchanges h hrest
    exact ⟨text', htext, .float h'⟩
  | stringList h =>
    obtain ⟨text', htext, h'⟩ := listText_exchanges stringText_exchanges h hrest
    exact ⟨text', htext, .stringList h'⟩
  | integerList h =>
    obtain ⟨text', htext, h'⟩ := listText_exchanges integerText_exchanges h hrest
    exact ⟨text', htext, .integerList h'⟩
  | floatList h =>
    obtain ⟨text', htext, h'⟩ := listText_exchanges floatText_exchanges h hrest
    exact ⟨text', htext, .floatList h'⟩

/-! ## 4. Calls and keywords -/

section Calls

variable {w : Workspace} {base : MethodId} {m : Method}

theorem variableText_exchanges {vars : VariableRegistry} :
    Phrase.Exchanges hole tail (VariableText vars) := by
  rintro text rest id rest' ⟨name, hname, hfind⟩ hrest
  obtain ⟨text', htext, hname'⟩ := nameText_exchanges hname hrest
  exact ⟨text', htext, name, hname', hfind⟩

theorem argumentsText_exchanges : Phrase.Exchanges hole tail (ArgumentsText w base) := by
  intro text rest ids rest' h hrest
  cases h with
  | none hcount => exact ⟨rest', hrest, .none hcount⟩
  | empty hcount hlast =>
    obtain ⟨t, ht, hlast'⟩ := hlast.exchange (hrest.cons ')')
    exact ⟨'(' :: t, ht.cons '(', .empty hcount hlast'⟩
  | bound hcount hnext hfirst hothers =>
    obtain ⟨t₂, ht₂, hothers'⟩ := itemsText_exchanges variableText_exchanges hothers hrest
    obtain ⟨t₁, ht₁, hfirst'⟩ := variableText_exchanges hfirst ht₂
    obtain ⟨t, ht, hnext'⟩ := hnext.exchange ht₁
    exact ⟨'(' :: t, ht.cons '(', .bound hcount hnext' hfirst' hothers'⟩

theorem callText_exchanges : Phrase.Exchanges hole tail (CallText w base) := by
  intro text rest call rest' h hrest
  cases h with
  | mk hname hinclude hfind hblanks hargs hres =>
    obtain ⟨t₂, ht₂, hargs'⟩ := argumentsText_exchanges hargs hrest
    obtain ⟨t₁, ht₁, hblanks'⟩ := hblanks.exchange ht₂
    obtain ⟨text', htext, hname'⟩ := nameText_exchanges hname ht₁
    exact ⟨text', htext, .mk hname' hinclude hfind hblanks' hargs' hres⟩

theorem directiveText_exchanges : Phrase.Exchanges hole tail DirectiveText := by
  intro text rest path rest' h hrest
  cases h with
  | mk hname hblanks hpath =>
    obtain ⟨t₂, ht₂, hpath'⟩ := stringText_exchanges hpath hrest
    obtain ⟨t₁, ht₁, hblanks'⟩ := hblanks.exchange ht₂
    obtain ⟨text', htext, hname'⟩ := nameText_exchanges hname ht₁
    exact ⟨text', htext, .mk hname' hblanks' hpath'⟩

theorem keywordText_exchanges : Phrase.Exchanges hole tail (KeywordText m) := by
  intro text rest binding rest' h hrest
  cases h with
  | named hname hletter hfind hassign hblanks hvalue =>
    obtain ⟨t₃, ht₃, hvalue'⟩ := literalText_exchanges _ hvalue hrest
    obtain ⟨t₂, ht₂, hblanks'⟩ := hblanks.exchange ht₃
    obtain ⟨t₁, ht₁, hassign'⟩ := hassign.exchange (ht₂.cons '=')
    obtain ⟨text', htext, hname'⟩ := nameText_exchanges hname ht₁
    -- the text begins with the name, whatever is behind it
    rw [hname.head?_eq, ← hname'.head?_eq] at hletter
    exact ⟨text', htext, .named hname' hletter hfind hassign' hblanks' hvalue'⟩
  | unnamed honly hletter hvalue =>
    obtain ⟨text', htext, hvalue'⟩ := literalText_exchanges _ hvalue hrest
    refine ⟨text', htext, .unnamed honly ?_ hvalue'⟩
    exact htext.forall_head (p := fun c => c.isAlpha = false) (by decide) hletter

theorem CommaText.exchange {text rest rest' : List Char} (h : CommaText text rest)
    (hrest : Exchanged hole tail rest rest') :
    ∃ text', Exchanged hole tail text text' ∧ CommaText text' rest' := by
  cases h with
  | comma => exact ⟨',' :: rest', hrest.cons ',', .comma⟩
  | none => exact ⟨rest', hrest, .none⟩

theorem keywordsText_exchanges : Phrase.Exchanges hole tail (KeywordsText m) := by
  intro text rest bound rest' h hrest
  induction h with
  | nil hlast =>
    obtain ⟨text', htext, hlast'⟩ := hlast.exchange hrest
    exact ⟨text', htext, .nil hlast'⟩
  | cons hnext hbinding hbehind hcomma _ ih =>
    obtain ⟨t₄, ht₄, hothers⟩ := ih hrest
    obtain ⟨t₃, ht₃, hcomma'⟩ := hcomma.exchange ht₄
    obtain ⟨t₂, ht₂, hbehind'⟩ := hbehind.exchange ht₃
    obtain ⟨t₁, ht₁, hbinding'⟩ := keywordText_exchanges hbinding ht₂
    obtain ⟨text', htext, hnext'⟩ := hnext.exchange ht₁
    exact ⟨text', htext, .cons hnext' hbinding' hbehind' hcomma' hothers⟩

end Calls

/-! ## 5. Statements and agendas -/

section Statements

variable {w : Workspace} {texts : TextSource} {nested : Phrase Agenda}

theorem bodyText_exchanges {m : Method} {call : Call} (hnested : nested.Exchanges hole tail) :
    Phrase.Exchanges hole tail (BodyText m nested call) := by
  intro text rest s rest' h hrest
  cases h with
  | bareKeywords hagenda hdefaulted hbrace hcomplete =>
    exact ⟨rest', hrest,
      .bareKeywords hagenda hdefaulted (hrest.head_ne (by decide) hbrace) hcomplete⟩
  | bareAgenda hagenda hdefaulted hbrace =>
    exact ⟨rest', hrest, .bareAgenda hagenda hdefaulted (hrest.head_ne (by decide) hbrace)⟩
  | keywords hagenda hkeywords hnodup hcomplete =>
    obtain ⟨t, ht, hkeywords'⟩ := keywordsText_exchanges hkeywords (hrest.cons '\x7d')
    exact ⟨'\x7b' :: t, ht.cons '\x7b', .keywords hagenda hkeywords' hnodup hcomplete⟩
  | agenda hagenda hbody =>
    obtain ⟨t, ht, hbody'⟩ := hnested hbody (hrest.cons '\x7d')
    exact ⟨'\x7b' :: t, ht.cons '\x7b', .agenda hagenda hbody'⟩

theorem statementText_exchanges (hnested : nested.Exchanges hole tail) :
    Phrase.Exchanges hole tail (StatementText w nested) := by
  intro text rest s rest' h hrest
  cases h with
  | mk hcall hblanks hbody =>
    obtain ⟨t₂, ht₂, hbody'⟩ := bodyText_exchanges hnested hbody hrest
    obtain ⟨t₁, ht₁, hblanks'⟩ := hblanks.exchange ht₂
    obtain ⟨text', htext, hcall'⟩ := callText_exchanges hcall ht₁
    exact ⟨text', htext, .mk hcall' hblanks' hbody'⟩

theorem sequenceText_exchanges {statement : Phrase Statement} {included : String → Agenda → Prop}
    (hstatement : statement.Exchanges hole tail) :
    Phrase.Exchanges hole tail (SequenceText statement included) := by
  intro text rest a rest' h hrest
  induction h with
  | nil hlast =>
    obtain ⟨text', htext, hlast'⟩ := hlast.exchange hrest
    exact ⟨text', htext, .nil hlast'⟩
  | statement hnext hfirst _ ih =>
    obtain ⟨t₂, ht₂, hothers⟩ := ih hrest
    obtain ⟨t₁, ht₁, hfirst'⟩ := hstatement hfirst ht₂
    obtain ⟨text', htext, hnext'⟩ := hnext.exchange ht₁
    exact ⟨text', htext, .statement hnext' hfirst' hothers⟩
  | directive hnext hfirst hfound _ ih =>
    obtain ⟨t₂, ht₂, hothers⟩ := ih hrest
    obtain ⟨t₁, ht₁, hfirst'⟩ := directiveText_exchanges hfirst ht₂
    obtain ⟨text', htext, hnext'⟩ := hnext.exchange ht₁
    exact ⟨text', htext, .directive hnext' hfirst' hfound hothers⟩

theorem agendaText_exchanges (levels : Nat) (files : List String) :
    Phrase.Exchanges hole tail (AgendaText w texts levels files) := by
  induction levels generalizing files with
  | zero => exact fun _ _ _ _ h => h.elim
  | succ levels ih => exact sequenceText_exchanges (statementText_exchanges (ih files))

end Statements

end ControlScript.Grammar
