import ControlScript.Proofs.Grammar.Exchange
import ControlScript.Proofs.Reading.Shorthand

/-!
# Defaults written out

A keyword that is left out has the value of its default.  The default is read from a text of its own
up to the end of this text, and a literal in a body is read with more text behind it; still the two
mean the same, so the default may as well be written at the end of the body.
-/

namespace ControlScript

namespace Grammar

variable {m : Method} {keyword : Keyword} {value : Value}

/-! ## 1. What a default stands for -/

/-- A default is one value at most. -/
theorem DefaultText.unique {other : Value} (h : DefaultText keyword value)
    (h' : DefaultText keyword other) : value = other := by
  have heq := (@Reading.defaultValue_eq_ok_iff {} keyword .nowhere _).2 h
  rw [Reading.defaultValue_eq_ok_iff.2 h'] at heq
  exact (Except.ok.inj heq).symm

/-- A keyword that is not bound has a default. -/
theorem Completes.exists_default {found : List (Keyword × Value)} {values : List Value}
    (h : Completes m found values) (hkeyword : keyword ∈ m.keywords)
    (hunbound : ∀ v, (keyword, v) ∉ found) : ∃ v, DefaultText keyword v := by
  obtain ⟨i, hi, rfl⟩ := List.mem_iff_getElem.1 hkeyword
  have hvalue := h.get hi (h.length_eq ▸ hi)
  rcases hvalue with hbound | ⟨-, hdefault⟩
  · exact absurd hbound (hunbound _)
  · exact ⟨_, hdefault⟩

/-- Binding a keyword to its default changes none of the values. -/
theorem Completes.bind_default {found : List (Keyword × Value)} {values : List Value}
    (h : Completes m found values) (hunbound : ∀ v, (keyword, v) ∉ found)
    (hdefault : DefaultText keyword value) : Completes m (found ++ [(keyword, value)]) values := by
  refine h.imp fun other v hv => ?_
  rcases hv with hbound | ⟨hnot, hother⟩
  · exact .inl (List.mem_append_left _ hbound)
  by_cases hsame : other = keyword
  · subst hsame
    obtain rfl := hdefault.unique hother
    exact .inl (by simp)
  · refine .inr ⟨fun w hmem => ?_, hother⟩
    rcases List.mem_append.1 hmem with hmem | hmem
    · exact hnot w hmem
    · simp [hsame] at hmem

/-! ## 2. Keywords at the end of a body -/

theorem KeywordsText.append {text mid rest : List Char} {found others : List (Keyword × Value)}
    (h : KeywordsText m text mid found) (hothers : KeywordsText m mid rest others) :
    KeywordsText m text rest (found ++ others) := by
  induction h with
  | nil hlast => exact hothers.blanks hlast
  | cons hnext hbinding hbehind hcomma _ ih =>
    exact .cons hnext hbinding hbehind hcomma (ih hothers)

/-- A line that binds a keyword to what is written as its default. -/
def defaultLine (name literal : String) : List Char :=
  "\n".toList ++ assigned name (literal ++ "\n").toList

theorem defaultLine_append (name literal : String) (rest : List Char) :
    defaultLine name literal ++ rest
      = '\n' :: assigned name (literal.toList ++ '\n' :: rest) := by
  simp [defaultLine, assigned]

/-- The line is read up to a closing brace, and has the value of the default.  Line feeds in front
    of the literal are blanks here, and a comment behind it ends with the line. -/
theorem Assignable.keywordsText_defaultLine (h : Assignable m keyword)
    (hkeywords : (m.keywords.map (·.name)).Nodup) {literal : String}
    (hliteral : keyword.default = some literal) (hdefault : DefaultText keyword value)
    (rest : List Char) :
    KeywordsText m (defaultLine keyword.name literal ++ '\x7d' :: rest) ('\x7d' :: rest)
      [(keyword, value)] := by
  obtain ⟨written, behind, hwritten, hvalue, hbehind⟩ := hdefault
  obtain rfl : literal = written := Option.some.inj (hliteral.symm.trans hwritten)
  have hwide : LiteralText keyword.kind (dropFeeds literal.toList ++ '\n' :: '\x7d' :: rest)
      (behind ++ '\n' :: '\x7d' :: rest) value :=
    literalText_widens _ hvalue fun _ => by simp [NumberEnds]
  -- leading line feeds are skipped with the space behind the equals sign
  have hfront : Blanks (' ' :: (literal.toList ++ '\n' :: '\x7d' :: rest))
      (dropFeeds literal.toList ++ '\n' :: '\x7d' :: rest) := by
    obtain ⟨c, taken, hsolid⟩ := literalText_proper keyword.kind hvalue
    have hnonempty : dropFeeds literal.toList ≠ [] := by
      rw [hsolid]
      exact List.cons_ne_nil _ _
    exact (blanks_space _).trans ((blanks_dropFeeds _).append hnonempty _)
  have hafter : Blanks (behind ++ '\n' :: '\x7d' :: rest) ('\x7d' :: rest) := by
    obtain ⟨text, htext, hblanks⟩ := hbehind.exchange (@Exchanged.here [] ('\x7d' :: rest))
    rw [← List.append_nil behind] at htext
    exact htext.eq_append ▸ hblanks.trans (blanks_feed _)
  rw [defaultLine_append]
  exact .cons (blanks_feed _) (h.keywordText hkeywords hfront hwide) hafter .none (.nil .none)

end Grammar

namespace Reading

open Grammar

/-! ## 3. Statements with the default written out -/

variable {ctx : Context} {nested : Terminator → Read Agenda} {s s' : Progress} {keyword : Keyword}
  {braced : Bool} {found : Statement}

/-- A statement is read in which a keyword is left out. -/
def ReadsWithout (ctx : Context) (nested : Terminator → Read Agenda) (s : Progress)
    (keyword : Keyword) (braced : Bool) (found : Statement) (s' : Progress) : Prop :=
  ∃ call u v bound d, head ctx.workspace s.cursor = .ok (.call call) u ∧
    openBrace (ctx.workspace.methods.get call.method) u = .ok braced v ∧
    (if braced then bindings (ctx.workspace.methods.get call.method) else pure []) v
      = .ok bound d ∧
    List.lookup keyword.name bound = none ∧
    statement ctx nested call { s with cursor := u } = .ok found s'

/-- With a line and a closing brace behind `front`, a statement is read that means the same. -/
def ReadsWith (ctx : Context) (nested : Terminator → Read Agenda) (meaning : Statement)
    (front line rest : List Char) : Prop :=
  ∀ t : Progress, t.cursor.rest = front ++ (line ++ '\x7d' :: rest) →
    ReadsAs ctx nested t meaning (dropFeeds rest)

theorem bindKeywords_of_ok {m : Method} {bound : Bindings} {here : Position} {c d : Cursor}
    (h : (if braced then bindings m else pure []) c = .ok bound d) :
    bindKeywords m braced here c = (ofExcept (complete m bound here) : Scan (List Value)) d := by
  cases braced with
  | true => exact bind_of_ok h
  | false => exact bind_of_ok h

/-- A statement that leaves a keyword out has keywords, all of which have a value. -/
theorem ReadsWithout.values (hr : ctx.workspace.methods.Sound)
    (h : ReadsWithout ctx nested s keyword braced found s')
    (hmem : keyword ∈ (ctx.workspace.methods.get found.call.method).keywords) :
    ∃ u v bound d values, head ctx.workspace s.cursor = .ok (.call found.call) u ∧
      openBrace (ctx.workspace.methods.get found.call.method) u = .ok braced v ∧
      (if braced then bindings (ctx.workspace.methods.get found.call.method) else pure []) v
        = .ok bound d ∧
      List.lookup keyword.name bound = none ∧
      complete (ctx.workspace.methods.get found.call.method) bound found.call.position
        = .ok values ∧
      found.unplaced = .keywords found.call.unplaced values ∧
      s'.cursor = if braced then d.advance else d := by
  obtain ⟨call, u, v, bound, d, hhead, hopen, hbound, hunbound, hread⟩ := h
  obtain rfl := call_of_statement hread
  have hagenda := hr.not_takesAgenda hmem
  obtain ⟨values, w, hbind, hfound, hend⟩ := keywords_of_statement hread hopen hagenda
  rw [bindKeywords_of_ok hbound, ofExcept_eq_ok_iff] at hbind
  obtain ⟨hcomplete, rfl⟩ := hbind
  refine ⟨u, v, bound, w, values, hhead, hopen, hbound, hunbound, hcomplete, ?_, ?_⟩
  · rw [hfound]
    rfl
  · rcases hend with ⟨rfl, -, rfl⟩ | ⟨rfl, rfl⟩
    · rfl
    · rfl

section Written

variable {literal : String}

/-- Where a keyword is left out of a body in braces, a line with its default may stand in front of
    the closing brace. -/
theorem readsAs_of_braced (hr : ctx.workspace.methods.Sound)
    (h : ReadsWithout ctx nested s keyword true found s')
    (hkeyword : Assignable (ctx.workspace.methods.get found.call.method) keyword)
    (hliteral : keyword.default = some literal) :
    ∃ front rest, s.cursor.rest = front ++ '\x7d' :: rest ∧ s'.cursor.rest = dropFeeds rest ∧
      ReadsWith ctx nested found.unplaced front (defaultLine keyword.name literal) rest := by
  have hkeywords := hr.nodup_keywords found.call.method
  obtain ⟨u, v, _, d, values, hhead, hopen, hbound, hunbound, hcomplete, hmeaning, hs'⟩ :=
    h.values hr hkeyword.mem
  obtain ⟨bindings, rest, htext, hnodup, rfl, hd⟩ := text_of_bindings hkeywords hbound
  rw [complete_eq_ok_iff hkeywords htext.forall_mem hnodup] at hcomplete
  rw [lookup_byName_eq_none hkeywords htext.forall_mem hnodup hkeyword.mem] at hunbound
  obtain ⟨value, hdefault⟩ := hcomplete.exists_default hkeyword.mem hunbound
  obtain ⟨-, base, behind, hcall, htrim⟩ := callText_of_ok hr hhead
  obtain ⟨body, hbrace, hv⟩ := brace_of_openBrace hopen
  rw [htrim] at hbrace
  have hbody : KeywordsText (ctx.workspace.methods.get found.call.method) body ('\x7d' :: rest)
      bindings := (hv ▸ htext).blanks (blanks_dropFeeds body)
  -- the body, the brace in front of it and the head are read with the line behind them too
  have hline := hkeyword.keywordsText_defaultLine hkeywords hliteral hdefault rest
  rw [defaultLine_append] at hline
  obtain ⟨body', hbody', htext'⟩ := keywordsText_exchanges hbody .here
  obtain ⟨behind', hbehind', hblanks'⟩ :=
    Blanks.exchange (hbrace ▸ blanks_trim behind) (hbody'.cons '\x7b')
  obtain ⟨text', hexchanged, hcall'⟩ := callText_exchanges hcall hbehind'
  obtain ⟨front, hfront, rfl⟩ := hexchanged.exists_eq
  refine ⟨front, rest, hfront, ?_, fun t ht => ?_⟩
  · rw [hs']
    exact Cursor.rest_advance_of hd
  rw [defaultLine_append] at ht
  have hagenda := hr.not_takesAgenda hkeyword.mem
  have hbrace' : trim behind' = '\x7b' :: body' := by
    rw [hblanks'.trim_eq, trim_solid (by decide) (by decide)]
  rw [← ht] at hcall'
  refine (readsAs_braced_iff hr hcall' hbrace' hagenda).2 ⟨_, values, rest, htext'.append hline, ?_,
    hcomplete.bind_default hunbound hdefault, hmeaning, rfl⟩
  -- the keyword of the line was not bound before
  rw [List.map_append, List.nodup_append]
  refine ⟨hnodup, List.nodup_singleton _, fun other hother _ hlast => ?_⟩
  obtain rfl := List.mem_singleton.1 hlast
  rintro rfl
  obtain ⟨⟨_, v⟩, hv, rfl⟩ := List.mem_map.1 hother
  exact hunbound v hv

/-- Where the braces are left out too, the line may stand in braces behind the head. -/
theorem readsAs_of_bare (hr : ctx.workspace.methods.Sound)
    (h : ReadsWithout ctx nested s keyword false found s')
    (hkeyword : Assignable (ctx.workspace.methods.get found.call.method) keyword)
    (hliteral : keyword.default = some literal) :
    ∃ front rest, s.cursor.rest = front ++ rest ∧ s'.cursor.rest = trim rest ∧
      (∃ base, (CallText ctx.workspace base).Stands front found.call.unplaced) ∧
      ∀ gap, Gap gap → ReadsWith ctx nested found.unplaced (front ++ (gap ++ ['\x7b']))
        (defaultLine keyword.name literal) rest := by
  have hkeywords := hr.nodup_keywords found.call.method
  obtain ⟨u, v, bound, d, values, hhead, hopen, hbound, -, hcomplete, hmeaning, hs'⟩ :=
    h.values hr hkeyword.mem
  obtain ⟨rfl, rfl⟩ := EStateM.Result.ok.inj hbound
  have hall := (complete_eq_ok_iff hkeywords (List.forall_mem_nil _) List.nodup_nil).1 hcomplete
  obtain ⟨value, hdefault⟩ := hall.exists_default hkeyword.mem fun v => List.not_mem_nil
  obtain ⟨-, base, t₁, hcall, htrim⟩ := callText_of_ok hr hhead
  obtain ⟨front, rest, hfront, hblanks, hstands⟩ := hcall.exists_front
  refine ⟨front, rest, hfront, ?_, ⟨base, hstands⟩, fun gap hgap t ht => ?_⟩
  · rcases openBrace_eq_ok_iff.1 hopen with ⟨hbraced, -⟩ | ⟨-, -, -, rfl⟩
    · cases hbraced
    · rw [hs', hblanks.trim_eq, ← htrim, ← Cursor.rest_pastBlanks]
      rfl
  rw [List.append_assoc, List.append_assoc, List.singleton_append] at ht
  have hline := hkeyword.keywordsText_defaultLine hkeywords hliteral hdefault rest
  have hagenda := hr.not_takesAgenda hkeyword.mem
  refine (readsAs_front_iff hr hstands hgap ht hagenda).2 ⟨_, values, rest, hline,
    List.nodup_singleton _, ?_, hmeaning, rfl⟩
  exact hall.bind_default (fun v => List.not_mem_nil) hdefault

/-- Writing the default of a keyword that is left out, on a line of its own in front of the closing
    brace or in braces of its own, makes no difference. -/
theorem default_may_be_written (hmethods : ctx.workspace.methods.Built)
    (h : ReadsWithout ctx nested s keyword braced found s')
    (hkeyword : Assignable (ctx.workspace.methods.get found.call.method) keyword)
    (hliteral : keyword.default = some literal) :
    (braced = true → ∃ front rest,
      s.cursor.rest = front ++ '\x7d' :: rest ∧ s'.cursor.rest = dropFeeds rest ∧
        ReadsWith ctx nested found.unplaced front (defaultLine keyword.name literal) rest) ∧
    (braced = false → ∃ front rest, s.cursor.rest = front ++ rest ∧ s'.cursor.rest = trim rest ∧
      (∃ base, (CallText ctx.workspace base).Stands front found.call.unplaced) ∧
        ∀ gap, Gap gap → ReadsWith ctx nested found.unplaced (front ++ (gap ++ ['\x7b']))
          (defaultLine keyword.name literal) rest) := by
  constructor
  · rintro rfl
    exact readsAs_of_braced hmethods.sound h hkeyword hliteral
  · rintro rfl
    exact readsAs_of_bare hmethods.sound h hkeyword hliteral

end Written

/-- Whether a read has succeeded with a result that passes a test. -/
def succeedsWith {σ α : Type} (r : EStateM.Result Fault σ α) (test : α → σ → Bool) : Bool :=
  match r with
  | .ok a s => test a s
  | .error _ _ => false

theorem succeedsWith_iff {σ α : Type} {r : EStateM.Result Fault σ α} {test : α → σ → Bool} :
    succeedsWith r test = true ↔ ∃ a s, r = .ok a s ∧ test a s = true := by
  cases r with
  | ok a s => simp [succeedsWith]
  | error f s => simp [succeedsWith]

/-- Reading against a method with two keywords, one of which has a default. -/
def Context.scaling : Context where
  workspace := { methods := ⟨[⟨Workspace.arts, none⟩, ⟨scale, none⟩]⟩ }
  texts := .ofList []

/-- A statement that leaves out a keyword, and the same one with the default of the keyword. -/
theorem default_may_be_written_label :
    ∃ found s', ReadsWithout .scaling (agenda .scaling 64)
        ⟨.start "main" "Scale \x7b factor = 2 \x7d".toList, {}⟩ label true found s' ∧
      ReadsAs .scaling (agenda .scaling 64)
        ⟨.start "main" "Scale \x7b factor = 2 \nlabel = \"none\"\n\x7d".toList, {}⟩ found.unplaced
        [] := by
  let s : Progress := ⟨.start "main" "Scale \x7b factor = 2 \x7d".toList, {}⟩
  let here : Position := ⟨"main", 1, 1⟩
  let u : Cursor := ⟨"main", "\x7b factor = 2 \x7d".toList, ⟨1, 7⟩, false⟩
  let v : Cursor := ⟨"main", " factor = 2 \x7d".toList, ⟨1, 8⟩, false⟩
  obtain ⟨bound, d, hbound, hunbound⟩ := succeedsWith_iff.1 (by decide +kernel :
    succeedsWith (bindings scale v) (fun bound _ => List.lookup "label" bound = none) = true)
  obtain ⟨found, s', hread, htest⟩ := succeedsWith_iff.1 (by decide +kernel :
    succeedsWith (statement .scaling (agenda .scaling 64) ⟨⟨1⟩, here, [], []⟩ ⟨u, {}⟩)
      (fun _ s' => s'.cursor.rest = []) = true)
  have h : ReadsWithout .scaling (agenda .scaling 64) s label true found s' :=
    ⟨⟨⟨1⟩, here, [], []⟩, u, v, bound, d, rfl, rfl, hbound, of_decide_eq_true hunbound, hread⟩
  refine ⟨found, s', h, ?_⟩
  have h₁ : MethodRegistry.Built ⟨[⟨Workspace.arts, none⟩]⟩ :=
    .insert .empty (rfl : MethodRegistry.insert {} Workspace.arts = .ok (⟨0⟩, _))
  have hbuilt : Context.scaling.workspace.methods.Built :=
    .insert h₁ (rfl : MethodRegistry.insert _ scale = .ok (⟨1⟩, _))
  have hlabel : Assignable (Context.scaling.workspace.methods.get found.call.method) label := by
    rw [call_of_statement hread]
    exact ⟨by decide, by decide, List.all_eq_true.1 (by decide),
      fun hone => absurd hone (by decide)⟩
  obtain ⟨front, rest, hfront, -, hwith⟩ := (default_may_be_written hbuilt h hlabel rfl).1 rfl
  -- the only closing brace of the text is at its end
  have htext : "Scale \x7b factor = 2 ".toList ++ '\x7d' :: [] = front ++ '\x7d' :: rest := by
    rw [← hfront]
    decide
  obtain ⟨rfl, -, rfl⟩ := (List.append_cons_inj_of_notMem (by decide) (by decide)).1 htext
  exact hwith _ (by decide)

end Reading

end ControlScript
