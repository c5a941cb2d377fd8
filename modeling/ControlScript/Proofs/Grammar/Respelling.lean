import ControlScript.Proofs.Grammar.Extent
import ControlScript.Proofs.Grammar.Spelling

/-!
# Other spellings of one script

When the grammar derives something from a text, it derives the same from every text that spells the
same tokens.  Each kind of phrase takes the same from both texts and leaves texts that still spell
the same tokens, so a derivation is carried over from one text to the other step by step.
-/

namespace ControlScript.Grammar

/-- A kind of phrase that is found, up to blanks, in all spellings of a text in which it is found. -/
def Phrase.Respells {α : Type} (p : Phrase α) : Prop :=
  ∀ ⦃s rest a t⦄, p s rest a → Alike s t → ∃ rest', p (trim t) rest' a ∧ Alike rest rest'

/-! ## 1. Literals -/

theorem not_isNameChar_of_not_isWordChar {c : Char} (h : isWordChar c = false) :
    Scan.isNameChar c = false := by
  cases hc : Scan.isNameChar c with
  | false => rfl
  | true => exact absurd (isWordChar_of_isNameChar hc) (by simp [h])

/-- What is no part of a word does not continue a number. -/
theorem continues_nothing {c : Char} (h : isWordChar c = false) :
    c.isDigit = false ∧ c ≠ '.' ∧ c ≠ 'e' ∧ c ≠ 'E' := by
  refine ⟨?_, ?_, ?_, ?_⟩
  · cases hc : c.isDigit with
    | false => rfl
    | true => exact absurd (isWordChar_of_isDigit hc) (by simp [h])
  all_goals
    rintro rfl
    exact absurd h (by decide)

theorem nameText_respells : Phrase.Respells NameText := by
  intro s rest name t h halike
  have hne : name.toList ≠ [] := fun hnil => h.nonempty (by simpa using hnil)
  obtain ⟨rest', ht, hrest, hstops⟩ := halike.run ((nameText_solid h).trans h.run.spelled) hne
    fun c hc => isWordChar_of_isNameChar (h.run.all c hc)
  exact ⟨rest', ⟨⟨ht, h.run.all, hstops (fun _ => not_isNameChar_of_not_isWordChar) h.run.stops⟩,
    h.nonempty⟩, hrest⟩

theorem stringText_respells : Phrase.Respells StringText := fun _ _ _ _ h halike =>
  halike.string h

theorem integerText_respells : Phrase.Respells IntegerText := by
  rintro s rest n t ⟨numeral, h, hvalue⟩ halike
  obtain ⟨c, chars, hchars, -⟩ := h.wellFormed.head
  obtain ⟨rest', ht, hrest, hstops⟩ := halike.run ((wholeText_solid h).trans h.spelled)
    (by rw [hchars]; exact List.cons_ne_nil c chars) (wordChars_of_whole h.wellFormed)
  exact ⟨rest', ⟨numeral, ⟨ht, h.wellFormed,
    hstops (fun _ hc => (continues_nothing hc).1) h.stops⟩, hvalue⟩, hrest⟩

theorem floatText_respells : Phrase.Respells FloatText := by
  rintro s rest x t ⟨numeral, h, hvalue⟩ halike
  obtain ⟨c, chars, hchars, -⟩ := h.wellFormed.head
  obtain ⟨rest', ht, hrest, hstops⟩ := halike.run ((decimalText_solid h).trans h.spelled)
    (by rw [hchars]; exact List.cons_ne_nil c chars) (wordChars_of_decimal h.wellFormed)
  refine ⟨rest', ⟨numeral, ⟨ht, h.wellFormed, hstops (fun c hc => ?_) h.stops⟩, hvalue⟩, hrest⟩
  obtain ⟨hdigit, hpoint, hmark⟩ := continues_nothing hc
  exact ⟨hdigit, fun _ _ => hpoint, fun _ => hmark⟩

section Lists

variable {α : Type} {item : Phrase α}

theorem itemsText_respells {close : Char} (hclose : close ∈ marks) (hitem : item.Respells) :
    Phrase.Respells (ItemsText close item) := by
  intro s rest items t h halike
  induction h generalizing t with
  | last hlast =>
    obtain ⟨rest', ht, hrest⟩ := halike.mark hclose (hlast.trim_eq.trans (solid_mark hclose _))
    exact ⟨rest', .last (ht ▸ .none), hrest⟩
  | @more _ t₁ t₂ t₃ _ a others hcomma hnext hfirst hothers ih =>
    obtain ⟨u₁, ht, hu₁⟩ := halike.mark (by decide)
      (hcomma.trim_eq.trans (solid_mark (show ',' ∈ marks by decide) t₁))
    obtain ⟨u₃, hu₂, hu₃⟩ := hitem hfirst (hu₁.blanks hnext)
    obtain ⟨rest', hitems, hrest⟩ := ih hu₃
    exact ⟨rest', .more (ht ▸ .none) (blanks_trim u₁) hu₂ (hitems.blanks (blanks_trim u₃)), hrest⟩

theorem listText_respells (hitem : item.Respells) : Phrase.Respells (ListText item) := by
  intro s rest items t h halike
  have hopen : '[' ∈ marks := by decide
  have hclose : ']' ∈ marks := by decide
  cases h with
  | empty hlast =>
    obtain ⟨u, ht, hu⟩ := halike.mark hopen (solid_mark hopen _)
    obtain ⟨rest', hu', hrest⟩ := hu.mark hclose (hlast.trim_eq.trans (solid_mark hclose _))
    exact ⟨rest', ht ▸ .empty (hu' ▸ blanks_trim u), hrest⟩
  | items hnext hfirst hothers =>
    obtain ⟨u, ht, hu⟩ := halike.mark hopen (solid_mark hopen _)
    obtain ⟨u₂, hu₁, hu₂⟩ := hitem hfirst (hu.blanks hnext)
    obtain ⟨rest', hitems, hrest⟩ := itemsText_respells hclose hitem hothers hu₂
    exact ⟨rest', ht ▸ .items (blanks_trim u) hu₁ (hitems.blanks (blanks_trim u₂)), hrest⟩

end Lists

theorem literalText_respells (kind : ValueKind) : Phrase.Respells (LiteralText kind) := by
  intro s rest value t h halike
  cases h with
  | string h =>
    obtain ⟨rest', h', hrest⟩ := stringText_respells h halike
    exact ⟨rest', .string h', hrest⟩
  | integer h =>
    obtain ⟨rest', h', hrest⟩ := integerText_respells h halike
    exact ⟨rest', .integer h', hrest⟩
  | float h =>
    obtain ⟨rest', h', hrest⟩ := floatText_respells h halike
    exact ⟨rest', .float h', hrest⟩
  | stringList h =>
    obtain ⟨rest', h', hrest⟩ := listText_respells stringText_respells h halike
    exact ⟨rest', .stringList h', hrest⟩
  | integerList h =>
    obtain ⟨rest', h', hrest⟩ := listText_respells integerText_respells h halike
    exact ⟨rest', .integerList h', hrest⟩
  | floatList h =>
    obtain ⟨rest', h', hrest⟩ := listText_respells floatText_respells h halike
    exact ⟨rest', .floatList h', hrest⟩

/-! ## 2. Calls -/

section Calls

variable {w : Workspace} {base : MethodId}

theorem variableText_respells {vars : VariableRegistry} : Phrase.Respells (VariableText vars) := by
  rintro s rest id t ⟨name, hname, hfind⟩ halike
  obtain ⟨rest', hname', hrest⟩ := nameText_respells hname halike
  exact ⟨rest', ⟨name, hname', hfind⟩, hrest⟩

theorem argumentsText_respells : Phrase.Respells (ArgumentsText w base) := by
  intro s rest ids t h halike
  have hopen : '(' ∈ marks := by decide
  have hclose : ')' ∈ marks := by decide
  cases h with
  | none hcount => exact ⟨trim t, .none hcount, halike.of_trim_eq rfl (trim_trim t)⟩
  | empty hcount hlast =>
    obtain ⟨u, ht, hu⟩ := halike.mark hopen (solid_mark hopen _)
    obtain ⟨rest', hu', hrest⟩ := hu.mark hclose (hlast.trim_eq.trans (solid_mark hclose _))
    exact ⟨rest', ht ▸ .empty hcount (hu' ▸ blanks_trim u), hrest⟩
  | bound hcount hnext hfirst hothers =>
    obtain ⟨u, ht, hu⟩ := halike.mark hopen (solid_mark hopen _)
    obtain ⟨u₂, hu₁, hu₂⟩ := variableText_respells hfirst (hu.blanks hnext)
    obtain ⟨rest', hitems, hrest⟩ := itemsText_respells hclose variableText_respells hothers hu₂
    exact ⟨rest', ht ▸ .bound hcount (blanks_trim u) hu₁ (hitems.blanks (blanks_trim u₂)), hrest⟩

theorem callText_respells : Phrase.Respells (CallText w base) := by
  intro s rest call t h halike
  cases h with
  | mk hname hinclude hfind hblanks hargs hres =>
    obtain ⟨u, hname', hu⟩ := nameText_respells hname halike
    obtain ⟨rest', hargs', hrest⟩ := argumentsText_respells hargs (hu.blanks hblanks)
    exact ⟨rest', .mk hname' hinclude hfind (blanks_trim u) hargs' hres, hrest⟩

theorem directiveText_respells : Phrase.Respells DirectiveText := by
  intro s rest path t h halike
  cases h with
  | mk hname hblanks hpath =>
    obtain ⟨u, hname', hu⟩ := nameText_respells hname halike
    obtain ⟨rest', hpath', hrest⟩ := stringText_respells hpath (hu.blanks hblanks)
    exact ⟨rest', .mk hname' (blanks_trim u) hpath', hrest⟩

end Calls

/-! ## 3. Keywords -/

section Keywords

variable {m : Method}

/-- A text that begins with something else than blanks begins like its other spellings. -/
theorem Alike.head_of_solid {s t : List Char} (h : Alike s t) (hs : trim s = s) :
    (trim t).head? = s.head? := by rw [← h.head_eq, hs]

theorem keywordText_respells : Phrase.Respells (KeywordText m) := by
  intro s rest binding t h halike
  have hhead := halike.head_of_solid (keywordText_solid h)
  have hequals : '=' ∈ marks := by decide
  cases h with
  | named hname hletter hfind hassign hblanks hvalue =>
    obtain ⟨u, hname', hu⟩ := nameText_respells hname halike
    obtain ⟨v, hv, hv'⟩ := hu.mark hequals (hassign.trim_eq.trans (solid_mark hequals _))
    obtain ⟨rest', hvalue', hrest⟩ := literalText_respells _ hvalue (hv'.blanks hblanks)
    exact ⟨rest', .named hname' (by rwa [hhead]) hfind (hv ▸ blanks_trim u) (blanks_trim v) hvalue',
      hrest⟩
  | unnamed honly hletter hvalue =>
    obtain ⟨rest', hvalue', hrest⟩ := literalText_respells _ hvalue halike
    exact ⟨rest', .unnamed honly (by rwa [hhead]) hvalue', hrest⟩

theorem commaText_respells {s rest t : List Char} (h : CommaText s rest) (halike : Alike s t) :
    ∃ rest', CommaText (trim t) rest' ∧ Alike rest rest' := by
  have hcomma : ',' ∈ marks := by decide
  cases h with
  | comma =>
    obtain ⟨rest', ht, hrest⟩ := halike.mark hcomma (solid_mark hcomma _)
    exact ⟨rest', ht ▸ .comma, hrest⟩
  | none => exact ⟨trim t, .none, halike.of_trim_eq rfl (trim_trim t)⟩

/-- What is taken may include the blanks behind it. -/
theorem KeywordsText.ends {s rest rest' : List Char} {bound : List (Keyword × Value)}
    (h : KeywordsText m s rest bound) (hblanks : Blanks rest rest') :
    KeywordsText m s rest' bound := by
  induction h with
  | nil hlast => exact .nil (hlast.trans hblanks)
  | cons hnext hbinding hbehind hcomma _ ih =>
    exact .cons hnext hbinding hbehind hcomma (ih hblanks)

theorem keywordsText_respells : Phrase.Respells (KeywordsText m) := by
  intro s rest bound t h halike
  induction h generalizing t with
  | nil hlast => exact ⟨trim t, .nil .none, (halike.blanks hlast).of_trim_eq rfl (trim_trim t)⟩
  | cons hnext hbinding hbehind hcomma _ ih =>
    obtain ⟨u, hbinding', hu⟩ := keywordText_respells hbinding (halike.blanks hnext)
    obtain ⟨v, hcomma', hv⟩ := commaText_respells hcomma (hu.blanks hbehind)
    obtain ⟨rest', hothers, hrest⟩ := ih hv
    exact ⟨rest', .cons .none hbinding' (blanks_trim u) hcomma' (hothers.blanks (blanks_trim v)),
      hrest⟩

end Keywords

/-! ## 4. Statements and agendas -/

section Statements

variable {w : Workspace} {texts : TextSource} {nested : Phrase Agenda}

/-- Whether something is opened behind the blanks at the beginning is the same in all spellings. -/
theorem Alike.nothingOpens {s t : List Char} (h : Alike s t) (hs : NothingOpens s) :
    NothingOpens t := by rwa [NothingOpens, ← h.head_eq]

/-- Agendas in braces are found in all spellings of the text, together with the closing brace. -/
def RespellsBraced (nested : Phrase Agenda) : Prop :=
  ∀ ⦃s rest a t⦄, nested s ('\x7d' :: rest) a → Alike s t →
    ∃ rest', nested t ('\x7d' :: rest') a ∧ Alike rest rest'

theorem bodyText_respells {m : Method} {call : Call} (hnested : RespellsBraced nested)
    {s rest t : List Char} {a : Statement} (h : BodyText m nested call s rest a)
    (halike : Alike s t) (hrest : NothingOpens rest) :
    ∃ rest', BodyText m nested call (trim t) rest' a ∧ Alike rest rest' := by
  have hopen : '\x7b' ∈ marks := by decide
  have hclose : '\x7d' ∈ marks := by decide
  cases h with
  | bareKeywords hagenda hdefaulted _ hcomplete =>
    exact ⟨trim t, .bareKeywords hagenda hdefaulted (halike.nothingOpens hrest).2 hcomplete,
      halike.of_trim_eq rfl (trim_trim t)⟩
  | bareAgenda hagenda hdefaulted _ =>
    exact ⟨trim t, .bareAgenda hagenda hdefaulted (halike.nothingOpens hrest).2,
      halike.of_trim_eq rfl (trim_trim t)⟩
  | keywords hagenda hkeywords hnodup hcomplete =>
    obtain ⟨u, ht, hu⟩ := halike.mark hopen (solid_mark hopen _)
    obtain ⟨v, hkeywords', hv⟩ := keywordsText_respells hkeywords hu
    obtain ⟨rest', hv', hrest⟩ := hv.mark hclose (solid_mark hclose _)
    have hend : KeywordsText m u ('\x7d' :: rest') _ :=
      hv' ▸ (hkeywords'.ends (blanks_trim v)).blanks (blanks_trim u)
    exact ⟨rest', ht ▸ .keywords hagenda hend hnodup hcomplete, hrest⟩
  | agenda hagenda hbody =>
    obtain ⟨u, ht, hu⟩ := halike.mark hopen (solid_mark hopen _)
    obtain ⟨rest', hbody', hrest⟩ := hnested hbody hu
    exact ⟨rest', ht ▸ .agenda hagenda hbody', hrest⟩

theorem statementText_respells (hnested : RespellsBraced nested) {s rest t : List Char}
    {a : Statement} (h : StatementText w nested s rest a) (halike : Alike s t)
    (hrest : NothingOpens rest) :
    ∃ rest', StatementText w nested (trim t) rest' a ∧ Alike rest rest' := by
  cases h with
  | mk hcall hblanks hbody =>
    obtain ⟨u, hcall', hu⟩ := callText_respells hcall halike
    obtain ⟨rest', hbody', hrest'⟩ := bodyText_respells hnested hbody (hu.blanks hblanks) hrest
    exact ⟨rest', .mk hcall' (blanks_trim u) hbody', hrest'⟩

theorem SequenceText.ends {statement : Phrase Statement} {included : String → Agenda → Prop}
    {s last last' : List Char} {a : Agenda} (h : SequenceText statement included s last a)
    (hblanks : Blanks last last') : SequenceText statement included s last' a := by
  induction h with
  | nil hlast => exact .nil (hlast.trans hblanks)
  | statement hnext hfirst _ ih => exact .statement hnext hfirst (ih hblanks)
  | directive hnext hfirst hfound _ ih => exact .directive hnext hfirst hfound (ih hblanks)

theorem sequenceText_respells (hnested : RespellsBraced nested) {included : String → Agenda → Prop}
    {s last t : List Char} {a : Agenda}
    (h : SequenceText (StatementText w nested) included s last a) (halike : Alike s t)
    (hlast : NothingOpens last) :
    ∃ last', SequenceText (StatementText w nested) included t last' a ∧ Alike last last' := by
  induction h generalizing t with
  | nil hblanks => exact ⟨t, .nil .none, halike.blanks hblanks⟩
  | statement hnext hfirst hothers ih =>
    obtain ⟨u, hfirst', hu⟩ := statementText_respells hnested hfirst (halike.blanks hnext)
      (hothers.nothingOpens StatementText.head hlast)
    obtain ⟨last', hothers', hlast'⟩ := ih hu hlast
    exact ⟨last', .statement (blanks_trim t) hfirst' hothers', hlast'⟩
  | directive hnext hfirst hfound _ ih =>
    obtain ⟨u, hfirst', hu⟩ := directiveText_respells hfirst (halike.blanks hnext)
    obtain ⟨last', hothers', hlast'⟩ := ih hu hlast
    exact ⟨last', .directive (blanks_trim t) hfirst' hfound hothers', hlast'⟩

theorem agendaText_respells (levels : Nat) (files : List String) :
    RespellsBraced (AgendaText w texts levels files) := by
  have hclose : '\x7d' ∈ marks := by decide
  have hopens : ∀ rest, NothingOpens ('\x7d' :: rest) := fun rest => by
    rw [NothingOpens, solid_mark hclose]
    simp
  induction levels with
  | zero => exact fun _ _ _ _ h => h.elim
  | succ levels ih =>
    intro s rest a t h halike
    obtain ⟨v, h', hv⟩ := sequenceText_respells ih h halike (hopens rest)
    obtain ⟨rest', hv', hrest⟩ := hv.mark hclose (solid_mark hclose _)
    exact ⟨rest', hv' ▸ (h'.ends (blanks_trim v)), hrest⟩

end Statements

/-- What the grammar derives from a script, it derives from every other spelling. -/
theorem ScriptText.respells {w : Workspace} {nested : Phrase Agenda} {entry : String}
    {s t : List Char} {a : Agenda} (hnested : RespellsBraced nested)
    (h : ScriptText w nested entry s a) (halike : Alike s t) : ScriptText w nested entry t a := by
  cases h with
  | @mk _ rest call hblanks hstatement hlast hname =>
    have hopens : NothingOpens rest := by
      rw [NothingOpens, hlast.trim_eq]
      simp
    obtain ⟨rest', hstatement', hrest⟩ :=
      statementText_respells hnested hstatement (halike.blanks hblanks) hopens
    have hend : trim rest' = [] := hrest.nil_iff.1 (hlast.trim_eq.trans trim_nil)
    exact .mk (blanks_trim t) hstatement' (hend ▸ blanks_trim rest') hname

end ControlScript.Grammar
