import ControlScript.Proofs.Reading.KeywordOrder
import ControlScript.Proofs.Reading.Statement

/-!
# Statements with keywords in braces

A statement whose method takes no agenda is a head and keywords between braces, unless all keywords
are left out together with the braces.  Where a head ends is seen on the head alone, so the same
head can be put in front of any body.
-/

namespace ControlScript

/-! ## 1. Heads as they are written -/

namespace Grammar

theorem Blanks.exists_gap {text rest : List Char} (h : Blanks text rest) (hne : rest ≠ [])
    (hfeed : rest.head? ≠ some '\n') : ∃ gap, Gap gap ∧ text = gap ++ rest := by
  induction h with
  | none => exact ⟨[], .nil, rfl⟩
  | @blank c _ _ hc _ ih =>
    obtain ⟨gap, hgap, rfl⟩ := ih hne hfeed
    exact ⟨c :: gap, .blank hc hgap, rfl⟩
  | @comment body text rest hbody hend hblanks ih =>
    obtain ⟨gap, hgap, rfl⟩ := ih hne hfeed
    -- the comment ends with a line feed, which is part of the gap
    cases hgap with
    | nil =>
      obtain ⟨c, t, rfl⟩ := List.exists_cons_of_ne_nil hne
      obtain rfl := hend c rfl
      exact absurd rfl hfeed
    | @blank c gap hc hgap =>
      obtain rfl := hend c rfl
      exact ⟨'#' :: (body ++ '\n' :: gap), .comment hbody hgap, by simp⟩
    | comment _ _ => exact absurd (hend _ rfl) (by decide)

/-- The blanks in front of a name are a gap, since a name begins with no line feed. -/
theorem Blanks.exists_gap_of_name {text rest : List Char} {c : Char} (h : Blanks text (c :: rest))
    (hc : Scan.isNameChar c = true) : ∃ gap, Gap gap ∧ text = gap ++ c :: rest := by
  refine h.exists_gap (List.cons_ne_nil c rest) ?_
  rintro ⟨⟩
  exact absurd hc (by decide)

theorem wordEnds_gap {gap text : List Char} (h : Gap gap) (htext : WordEnds text) :
    WordEnds (gap ++ text) :=
  forall_head_append h.head fun _ => htext

theorem wordEnds_mark {c : Char} (h : c ∈ marks) (text : List Char) : WordEnds (c :: text) :=
  wordEnds_cons (not_isWordChar_mark h) text

variable {w : Workspace} {vars : VariableRegistry}

theorem VariableText.exists_name {text rest : List Char} {id : VariableId}
    (h : VariableText vars text rest id) :
    ∃ c name, Scan.isNameChar c = true ∧ text = c :: name ++ rest ∧
      (VariableText vars).Stands (c :: name) id := by
  obtain ⟨name, hname, hfind⟩ := h
  obtain ⟨c, chars, hchars⟩ : ∃ c chars, name.toList = c :: chars :=
    List.exists_cons_of_ne_nil (by simpa using hname.nonempty)
  refine ⟨c, chars, hname.run.all c (by simp [hchars]), hchars ▸ hname.run.spelled, ?_⟩
  intro rest' hrest'
  rw [← hchars]
  exact ⟨name, nameText_stands hname.nonempty hname.run.all hrest', hfind⟩

/-- What closes a list of variables is part of the list, so anything may stand behind it. -/
theorem itemsText_exists_front {text rest : List Char} {ids : List VariableId}
    (h : ItemsText ')' (VariableText vars) text rest ids) :
    ∃ front, text = front ++ rest ∧ ∀ rest', WordEnds (front ++ rest') ∧
      ItemsText ')' (VariableText vars) (front ++ rest') rest' ids := by
  induction h with
  | @last text rest hlast =>
    obtain ⟨gap, hgap, rfl⟩ := hlast.exists_gap (List.cons_ne_nil _ _) (by simp)
    refine ⟨gap ++ [')'], by simp, fun rest' => ?_⟩
    rw [List.append_assoc, List.singleton_append]
    exact ⟨wordEnds_gap hgap (wordEnds_mark (by decide) _), .last (hgap.blanks _)⟩
  | @more text t₁ t₂ t₃ rest id ids hcomma hnext hfirst hothers ih =>
    obtain ⟨front, rfl, hfront⟩ := ih
    obtain ⟨c, name, hc, rfl, hname⟩ := hfirst.exists_name
    obtain ⟨gap, hgap, rfl⟩ := hcomma.exists_gap (List.cons_ne_nil _ _) (by simp)
    obtain ⟨gap', hgap', rfl⟩ := hnext.exists_gap_of_name hc
    refine ⟨gap ++ ',' :: (gap' ++ (c :: name ++ front)), by simp, fun rest' => ?_⟩
    obtain ⟨hends, hitems⟩ := hfront rest'
    have htext : gap ++ ',' :: (gap' ++ (c :: name ++ front)) ++ rest'
        = gap ++ ',' :: (gap' ++ (c :: name ++ (front ++ rest'))) := by simp
    rw [htext]
    exact ⟨wordEnds_gap hgap (wordEnds_mark (by decide) _),
      .more (hgap.blanks _) (hgap'.blanks _) (hname hends) hitems⟩

/-- A head as it is written, and the blanks that are taken with it. -/
theorem CallText.exists_front {base : MethodId} {text rest : List Char} {call : Call}
    (h : CallText w base text rest call) :
    ∃ front behind, text = front ++ behind ∧ Blanks behind rest ∧
      (CallText w base).Stands front call := by
  cases h with
  | @mk _ t₁ t₂ _ name ids method hname hdirective hfind hblanks hargs hres =>
    have hstands := nameText_stands hname.nonempty hname.run.all
    -- parentheses are part of the head, and so are the blanks in front of them
    have hparens : ∀ {t : List Char}, t₂ = '(' :: t → ∃ gap, Gap gap ∧ t₁ = gap ++ '(' :: t := by
      rintro t rfl
      exact hblanks.exists_gap (List.cons_ne_nil _ _) (by simp)
    cases hargs with
    | none hcount =>
      refine ⟨name.toList, t₁, hname.run.spelled, hblanks, fun rest' hrest' => ?_⟩
      exact .mk (hstands hrest') hdirective hfind .none (.none hcount) hres
    | @empty t _ hcount hclose =>
      obtain ⟨gap, hgap, rfl⟩ := hparens rfl
      obtain ⟨gap', hgap', rfl⟩ := hclose.exists_gap (List.cons_ne_nil _ _) (by simp)
      refine ⟨name.toList ++ (gap ++ '(' :: (gap' ++ [')'])), rest, ?_, .none, fun rest' _ => ?_⟩
      · rw [hname.run.spelled]
        simp
      · have htext : name.toList ++ (gap ++ '(' :: (gap' ++ [')'])) ++ rest'
            = name.toList ++ (gap ++ '(' :: (gap' ++ ')' :: rest')) := by simp
        rw [htext]
        exact .mk (hstands (wordEnds_gap hgap (wordEnds_mark (by decide) _))) hdirective hfind
          (hgap.blanks _) (.empty hcount (hgap'.blanks _)) hres
    | @bound t t₃ t₄ _ id ids hcount hnext hfirst hothers =>
      obtain ⟨gap, hgap, rfl⟩ := hparens rfl
      obtain ⟨front, rfl, hfront⟩ := itemsText_exists_front hothers
      obtain ⟨c, chars, hc, rfl, hvar⟩ := hfirst.exists_name
      obtain ⟨gap', hgap', rfl⟩ := hnext.exists_gap_of_name hc
      refine ⟨name.toList ++ (gap ++ '(' :: (gap' ++ (c :: chars ++ front))), rest, ?_, .none,
        fun rest' _ => ?_⟩
      · rw [hname.run.spelled]
        simp
      · obtain ⟨hends, hitems⟩ := hfront rest'
        have htext : name.toList ++ (gap ++ '(' :: (gap' ++ (c :: chars ++ front))) ++ rest'
            = name.toList ++ (gap ++ '(' :: (gap' ++ (c :: chars ++ (front ++ rest')))) := by simp
        rw [htext]
        exact .mk (hstands (wordEnds_gap hgap (wordEnds_mark (by decide) _))) hdirective hfind
          (hgap.blanks _) (.bound hcount (hgap'.blanks _) (hvar hends) hitems) hres

end Grammar

/-! ## 2. Reading a statement -/

namespace Reading

open Grammar

variable {ctx : Context} {nested : Terminator → Read Agenda} {s : Progress}

/-- One statement is read: what it means, apart from where it stands, and the text that it leaves.
    Reading it ends on the level and in the file where it began. -/
def ReadsAs (ctx : Context) (nested : Terminator → Read Agenda) (s : Progress) (meaning : Statement)
    (left : List Char) : Prop :=
  ∃ call u found t, head ctx.workspace s.cursor = .ok (.call call) u ∧
    statement ctx nested call { s with cursor := u } = .ok found t ∧
    found.unplaced = meaning ∧ t.cursor.rest = left ∧ t.nesting = s.nesting

/-- How a statement is read whose head has keywords in braces behind it. -/
theorem readsAs_braced_iff (hr : ctx.workspace.methods.Sound) {base : MethodId} {call : Call}
    {behind body : List Char} (hcall : CallText ctx.workspace base s.cursor.rest behind call)
    (hbrace : trim behind = '\x7b' :: body)
    (hagenda : (ctx.workspace.methods.get call.method).takesAgenda = false) {meaning : Statement}
    {left : List Char} :
    ReadsAs ctx nested s meaning left ↔ ∃ found values rest,
      KeywordsText (ctx.workspace.methods.get call.method) body ('\x7d' :: rest) found ∧
        (found.map Prod.fst).Nodup ∧
        Completes (ctx.workspace.methods.get call.method) found values ∧
        meaning = .keywords call values ∧ left = dropFeeds rest := by
  have hkeywords := hr.nodup_keywords call.method
  obtain ⟨u, hhead, hu⟩ := ok_of_callText hr hcall (by simp [hbrace])
  have hbehind : trim u.rest = '\x7b' :: body := hu.trans hbrace
  have hopen := openBrace_of_brace (ctx.workspace.methods.get call.method) hbehind
  have hinside := rest_behind_brace hbehind
  constructor
  · rintro ⟨call', u', found, t, hhead', hread, rfl, rfl, -⟩
    obtain ⟨heq, rfl⟩ := EStateM.Result.ok.inj (hhead.symm.trans hhead')
    obtain rfl := Head.call.inj heq
    obtain ⟨values, d, hbind, rfl, hend⟩ := keywords_of_statement hread hopen hagenda
    obtain ⟨-, rfl⟩ : d.rest.head? = some '\x7d' ∧ t = ⟨d.advance, s.nesting⟩ := by
      simpa using hend
    obtain ⟨found, rest, htext, hnodup, hcomplete, hrest⟩ := bindKeywords_sound hkeywords hbind
    rw [hinside] at htext
    refine ⟨found, values, rest, htext.blanks (blanks_dropFeeds body), hnodup, hcomplete, ?_,
      Cursor.rest_advance_of hrest⟩
    exact congrArg (Statement.keywords · values) hcall.unplaced_eq
  · rintro ⟨found, values, rest, htext, hnodup, hcomplete, rfl, rfl⟩
    obtain ⟨d, hbind, hd⟩ : ∃ d, bindKeywords (ctx.workspace.methods.get call.method) true
        s.cursor.position u.pastBlanks.advance = .ok values d ∧ d.rest = '\x7d' :: rest :=
      bindKeywords_complete hkeywords htext hnodup hcomplete (by rw [hinside, trim_dropFeeds])
    refine ⟨_, u, _, _, hhead, statement_eq_ok_iff.2 ⟨true, _, hopen, .inr (.inr ⟨hagenda, values,
      d, hbind, rfl, .inl ⟨rfl, by rw [hd]; rfl, rfl⟩⟩)⟩, ?_, Cursor.rest_advance_of hd, rfl⟩
    exact congrArg (Statement.keywords · values) hcall.unplaced_eq

/-- A head may be followed by blanks and then by any body. -/
theorem readsAs_front_iff (hr : ctx.workspace.methods.Sound) {base : MethodId} {call : Call}
    {front gap body : List Char} (hcall : (CallText ctx.workspace base).Stands front call)
    (hgap : Gap gap) (hs : s.cursor.rest = front ++ (gap ++ '\x7b' :: body))
    (hagenda : (ctx.workspace.methods.get call.method).takesAgenda = false) {meaning : Statement}
    {left : List Char} :
    ReadsAs ctx nested s meaning left ↔ ∃ found values rest,
      KeywordsText (ctx.workspace.methods.get call.method) body ('\x7d' :: rest) found ∧
        (found.map Prod.fst).Nodup ∧
        Completes (ctx.workspace.methods.get call.method) found values ∧
        meaning = .keywords call values ∧ left = dropFeeds rest := by
  have hbrace : trim (gap ++ '\x7b' :: body) = '\x7b' :: body := by
    rw [hgap.trim_eq, trim_solid (by decide) (by decide)]
  have hends : WordEnds (gap ++ '\x7b' :: body) := wordEnds_gap hgap (wordEnds_mark (by decide) _)
  exact readsAs_braced_iff hr (hs ▸ hcall hends) hbrace hagenda

end Reading

end ControlScript
