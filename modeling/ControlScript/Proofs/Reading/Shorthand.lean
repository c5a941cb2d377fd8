import ControlScript.Proofs.Acceptance
import ControlScript.Proofs.Reading.Bodies

/-!
# Keywords without their names

The only keyword of a method may be bound with its name or without it.  Which of the two is meant is
told from one character: a letter begins a name, and no literal.  So both ways of writing agree for
every name that begins with a letter; a name that begins with a digit or an underscore is taken for
a literal, and cannot be written at all.
-/

namespace ControlScript

namespace Grammar

/-! ## 1. Names and literals told apart -/

theorem BeginsLiteral.not_isAlpha {c : Char} (h : BeginsLiteral c) : c.isAlpha = false := by
  rcases h with (h | rfl | rfl | rfl) | rfl | rfl
  · -- all digits are in front of the letters
    have hnine : c.val ≤ '9'.val := of_decide_eq_true (Bool.and_eq_true_iff.1 h).2
    refine Bool.eq_false_iff.2 fun halpha => ?_
    rcases Bool.or_eq_true_iff.1 halpha with hupper | hlower
    · have hfirst : 'A'.val ≤ c.val := (of_decide_eq_true hupper).1
      exact absurd (UInt32.le_trans hfirst hnine) (by decide)
    · have hfirst : 'a'.val ≤ c.val := of_decide_eq_true (Bool.and_eq_true_iff.1 hlower).1
      exact absurd (UInt32.le_trans hfirst hnine) (by decide)
  all_goals decide

theorem BeginsLiteral.solid {c : Char} (h : BeginsLiteral c) (text : List Char) :
    trim (c :: text) = c :: text := by
  rcases h with h | rfl | rfl
  · exact h.solid text
  · exact trim_solid (by decide) (by decide) text
  · exact trim_solid (by decide) (by decide) text

/-- A name with an equals sign behind it. -/
def assigned (name : String) (text : List Char) : List Char :=
  name.toList ++ ' ' :: '=' :: ' ' :: text

section Names

variable {name : String} {text rest : List Char}

theorem assigned_head (hne : name ≠ "") (hname : ∀ c ∈ name.toList, Scan.isNameChar c = true)
    (text : List Char) : ∃ c t, assigned name text = c :: t ∧ name.toList.head? = some c ∧
      Scan.isNameChar c = true := by
  obtain ⟨c, chars, hchars⟩ := List.exists_cons_of_ne_nil
    (show name.toList ≠ [] by simpa using hne)
  refine ⟨c, chars ++ ' ' :: '=' :: ' ' :: text, ?_, ?_, hname c (by simp [hchars])⟩
  · rw [assigned, hchars, List.cons_append]
  · rw [hchars, List.head?_cons]

theorem assigned_solid (hne : name ≠ "") (hname : ∀ c ∈ name.toList, Scan.isNameChar c = true)
    (text : List Char) : trim (assigned name text) = assigned name text := by
  obtain ⟨c, t, ht, -, hc⟩ := assigned_head hne hname text
  rw [ht]
  exact solid_wordChar (isWordChar_of_isNameChar hc) t

/-- No digit, sign or point of a number is a blank, so a number at the beginning of a name ends
    within the name. -/
theorem exists_more_of_word {word : List Char} (hname : ∀ c ∈ name.toList, Scan.isNameChar c = true)
    (hword : ∀ c ∈ word, isWordChar c = true) (h : assigned name text = word ++ rest) :
    ∃ more, (∀ c ∈ more, Scan.isNameChar c = true) ∧ rest = more ++ ' ' :: '=' :: ' ' :: text := by
  rcases List.append_eq_append_iff.1 h with ⟨extra, hextra, hbehind⟩ | ⟨more, hmore, hbehind⟩
  · cases extra with
    | nil => exact ⟨[], by simp, hbehind.symm⟩
    | cons d extra =>
      obtain ⟨rfl, -⟩ := List.cons.inj hbehind
      exact absurd (hword ' ' (by simp [hextra])) (by decide)
  · exact ⟨more, fun d hd => hname d (by simp [hmore, hd]), hbehind⟩

/-- A literal at the beginning of a name leaves the end of the name. -/
theorem literalText_of_name {kind : ValueKind} {value : Value} (hne : name ≠ "")
    (hname : ∀ c ∈ name.toList, Scan.isNameChar c = true)
    (h : LiteralText kind (assigned name text) rest value) :
    ∃ more, (∀ c ∈ more, Scan.isNameChar c = true) ∧ rest = more ++ ' ' :: '=' :: ' ' :: text := by
  obtain ⟨c, t, ht, -, hc⟩ := assigned_head hne hname text
  have hquote : ∀ {d : Char} {t' : List Char}, assigned name text = d :: t' →
      Scan.isNameChar d = false → False := by
    intro d t' heq hd
    rw [ht] at heq
    obtain ⟨rfl, -⟩ := List.cons.inj heq
    rw [hc] at hd
    cases hd
  have hlist : ∀ {α : Type} {item : Phrase α} {items : List α},
      ListText item (assigned name text) rest items → False := by
    intro α item items hitems
    generalize htext : assigned name text = whole at hitems
    cases hitems with
    | empty _ => exact hquote htext (by decide)
    | items _ _ _ => exact hquote htext (by decide)
  cases h with
  | string h => exact (hquote h.spelled (by decide)).elim
  | integer h =>
    obtain ⟨numeral, h, -⟩ := h
    exact exists_more_of_word hname (wordChars_of_whole h.wellFormed) h.spelled
  | float h =>
    obtain ⟨numeral, h, -⟩ := h
    exact exists_more_of_word hname (wordChars_of_decimal h.wellFormed) h.spelled
  | stringList h => exact (hlist h).elim
  | integerList h => exact (hlist h).elim
  | floatList h => exact (hlist h).elim

end Names

/-! ## 2. The only keyword of a method -/

section Only

variable {m : Method} {keyword : Keyword} {text rest : List Char}

/-- A keyword of a method that can be bound by its name.  The name of an only keyword has to begin
    with a letter, or it is taken for a literal. -/
structure Assignable (m : Method) (keyword : Keyword) : Prop where
  mem : keyword ∈ m.keywords
  nonempty : keyword.name ≠ ""
  chars : ∀ c ∈ keyword.name.toList, Scan.isNameChar c = true
  letter : m.keywords.length = 1 → ∃ c ∈ keyword.name.toList.head?, c.isAlpha = true

/-- A literal may have the name of its keyword in front of it. -/
theorem Assignable.keywordText (h : Assignable m keyword)
    (hkeywords : (m.keywords.map (·.name)).Nodup) {t : List Char} {value : Value}
    (hblanks : Blanks (' ' :: text) t) (hvalue : LiteralText keyword.kind t rest value) :
    KeywordText m (assigned keyword.name text) rest (keyword, value) := by
  have hrun : Run Scan.isNameChar (assigned keyword.name text) (' ' :: '=' :: ' ' :: text)
      keyword.name.toList := ⟨rfl, h.chars, by rintro _ ⟨⟩; decide⟩
  obtain ⟨c, t', hassigned, hc, -⟩ := assigned_head h.nonempty h.chars text
  have hfirst : (assigned keyword.name text).head? = keyword.name.toList.head? := by
    rw [hassigned, List.head?_cons, hc]
  exact .named ⟨hrun, h.nonempty⟩ (hfirst ▸ h.letter) (find?_keyword hkeywords h.mem)
    (blanks_space _) hblanks hvalue

/-- A name that begins with a letter may stand in front of the literal or not. -/
theorem keywordText_assigned_iff (honly : m.keywords = [keyword]) (hne : keyword.name ≠ "")
    (hname : ∀ c ∈ keyword.name.toList, Scan.isNameChar c = true)
    (hletter : ∃ c ∈ keyword.name.toList.head?, c.isAlpha = true)
    (htext : ∃ c ∈ text.head?, BeginsLiteral c) {binding : Keyword × Value} :
    KeywordText m (assigned keyword.name text) rest binding ↔ KeywordText m text rest binding := by
  obtain ⟨c, hc, halpha⟩ := hletter
  obtain ⟨d, hd, hliteral⟩ := htext
  obtain ⟨t, rfl⟩ := List.head?_eq_some_iff.1 hd
  obtain ⟨c', t', hassigned, hc', -⟩ := assigned_head hne hname (d :: t)
  obtain rfl : c = c' := Option.some.inj ((Option.mem_def.1 hc).symm.trans hc')
  have hrun : Run Scan.isNameChar (assigned keyword.name (d :: t)) (' ' :: '=' :: ' ' :: d :: t)
      keyword.name.toList := ⟨rfl, hname, by rintro _ ⟨⟩; decide⟩
  constructor
  · intro h
    generalize hwhole : assigned keyword.name (d :: t) = whole at h
    cases h with
    | @named _ t₁ t₂ t₃ _ name found value hfirst _ hfind hassign hblanks hvalue =>
      rw [← hwhole] at hfirst
      obtain ⟨-, rfl⟩ := hfirst.run.eq_takeWhile
      rw [← hrun.eq_takeWhile.2] at hassign
      -- behind the equals sign there are only blanks in front of the literal
      have hbehind : t₂ = ' ' :: d :: t := by
        have htrim := hassign.trim_eq
        rw [trim_blank (by decide), trim_solid (by decide) (by decide),
          trim_solid (by decide) (by decide)] at htrim
        exact (List.cons.inj htrim).2.symm
      have hstart : t₃ = d :: t := by
        have htrim := hblanks.trim_eq
        rw [hbehind, trim_blank (by decide), hliteral.solid, literalText_solid _ hvalue] at htrim
        exact htrim.symm
      obtain rfl : found = keyword := by
        have hmem := List.mem_of_find?_eq_some hfind
        rwa [honly, List.mem_singleton] at hmem
      rw [hstart] at hvalue
      exact .unnamed honly (by rintro _ ⟨⟩; exact hliteral.not_isAlpha) hvalue
    | unnamed _ hnot _ =>
      rw [← hwhole, hassigned] at hnot
      rw [hnot c rfl] at halpha
      cases halpha
  · intro h
    cases h with
    | named _ hfirst _ _ _ _ =>
      obtain ⟨_, ⟨⟩, hbegins⟩ := hfirst (by rw [honly]; rfl)
      rw [hliteral.not_isAlpha] at hbegins
      cases hbegins
    | @unnamed _ _ found value hkeywords _ hvalue =>
      obtain rfl : keyword = found := List.singleton_inj.1 (honly.symm.trans hkeywords)
      have hassignable : Assignable m keyword :=
        ⟨by simp [honly], hne, hname, fun _ => ⟨c, hc, halpha⟩⟩
      exact hassignable.keywordText (by simp [honly]) (blanks_space _) hvalue

/-- Texts that begin with the same keyword are the same keywords up to the closing brace. -/
theorem KeywordsText.of_head {text' : List Char} {found : List (Keyword × Value)}
    (h : KeywordsText m text ('\x7d' :: rest) found) (hbrace : (trim text).head? ≠ some '\x7d')
    (hhead : ∀ {t binding}, KeywordText m (trim text) t binding → KeywordText m text' t binding) :
    KeywordsText m text' ('\x7d' :: rest) found := by
  cases h with
  | nil hlast =>
    rw [hlast.trim_eq, trim_solid (by decide) (by decide)] at hbrace
    exact absurd rfl hbrace
  | cons hnext hbinding hbehind hcomma hothers =>
    rw [← keywordText_solid hbinding, ← hnext.trim_eq] at hbinding
    exact .cons .none (hhead hbinding) hbehind hcomma hothers

theorem trim_space_assigned (hne : keyword.name ≠ "")
    (hname : ∀ c ∈ keyword.name.toList, Scan.isNameChar c = true) (text : List Char) :
    trim (' ' :: assigned keyword.name text) = assigned keyword.name text := by
  rw [trim_blank (by decide), assigned_solid hne hname]

theorem keywordsText_assigned_iff (honly : m.keywords = [keyword]) (hne : keyword.name ≠ "")
    (hname : ∀ c ∈ keyword.name.toList, Scan.isNameChar c = true)
    (hletter : ∃ c ∈ keyword.name.toList.head?, c.isAlpha = true)
    (htext : ∃ c ∈ text.head?, BeginsLiteral c) {found : List (Keyword × Value)} :
    KeywordsText m (' ' :: assigned keyword.name text) ('\x7d' :: rest) found ↔
      KeywordsText m (' ' :: text) ('\x7d' :: rest) found := by
  have hiff {t : List Char} {binding : Keyword × Value} :=
    @keywordText_assigned_iff m keyword text t honly hne hname hletter htext binding
  constructor
  · intro h
    refine (h.of_head ?_ fun hbinding => ?_).blanks (blanks_space text)
    · obtain ⟨c, t, hassigned, -, hc⟩ := assigned_head hne hname text
      rw [trim_space_assigned hne hname, hassigned]
      rintro ⟨⟩
      exact absurd hc (by decide)
    · rw [trim_space_assigned hne hname] at hbinding
      exact hiff.1 hbinding
  · obtain ⟨c, hc, hliteral⟩ := htext
    obtain ⟨t, rfl⟩ := List.head?_eq_some_iff.1 hc
    have htrim : trim (' ' :: c :: t) = c :: t := by rw [trim_blank (by decide), hliteral.solid]
    intro h
    refine (h.of_head ?_ fun hbinding => ?_).blanks (blanks_space _)
    · rw [htrim]
      rintro ⟨⟩
      exact hliteral.ne (.inr (.inl rfl)) rfl
    · rw [htrim] at hbinding
      exact hiff.2 hbinding

/-- Behind a literal that is taken from a name, the rest of the name or the equals sign is left. -/
theorem exists_behind_assigned (honly : m.keywords = [keyword]) (hne : keyword.name ≠ "")
    (hname : ∀ c ∈ keyword.name.toList, Scan.isNameChar c = true)
    (hletter : ∀ c ∈ keyword.name.toList.head?, c.isAlpha = false) {binding : Keyword × Value}
    (h : KeywordText m (assigned keyword.name text) rest binding) :
    ∃ d left, trim rest = d :: left ∧ d ≠ ',' ∧ d ≠ '\x7d' := by
  obtain ⟨c, t, hassigned, hc, -⟩ := assigned_head hne hname text
  cases h with
  | named _ hfirst _ _ _ _ =>
    obtain ⟨e, he, halpha⟩ := hfirst (by rw [honly]; rfl)
    rw [hassigned] at he
    obtain rfl := Option.some.inj (Option.mem_def.1 he)
    rw [hletter c hc] at halpha
    cases halpha
  | unnamed _ _ hvalue =>
    obtain ⟨more, hmore, rfl⟩ := literalText_of_name hne hname hvalue
    cases more with
    | nil =>
      rw [List.nil_append, trim_blank (by decide), trim_solid (by decide) (by decide)]
      exact ⟨_, _, rfl, by decide, by decide⟩
    | cons d more =>
      have hd := hmore d List.mem_cons_self
      rw [List.cons_append, solid_wordChar (isWordChar_of_isNameChar hd)]
      refine ⟨_, _, rfl, ?_, ?_⟩
      all_goals
        rintro rfl
        exact absurd hd (by decide)

/-- Behind a literal that is taken from a name nothing can follow that ends the body. -/
theorem not_keywordsText_assigned (honly : m.keywords = [keyword]) (hne : keyword.name ≠ "")
    (hname : ∀ c ∈ keyword.name.toList, Scan.isNameChar c = true)
    (hletter : ∀ c ∈ keyword.name.toList.head?, c.isAlpha = false) {found : List (Keyword × Value)}
    (hnodup : (found.map Prod.fst).Nodup) :
    ¬KeywordsText m (' ' :: assigned keyword.name text) ('\x7d' :: rest) found := by
  have hsolid := trim_space_assigned hne hname text
  intro h
  cases h with
  | nil hlast =>
    obtain ⟨c, t, hassigned, -, hchar⟩ := assigned_head hne hname text
    have htrim := hlast.trim_eq
    rw [hsolid, hassigned, trim_solid (by decide) (by decide)] at htrim
    obtain ⟨rfl, -⟩ := List.cons.inj htrim
    exact absurd hchar (by decide)
  | @cons _ t₁ t₂ t₃ t₄ _ binding others hnext hbinding hbehind hcomma hothers =>
    obtain rfl : t₁ = assigned keyword.name text := by
      rw [← keywordText_solid hbinding, ← hnext.trim_eq, hsolid]
    obtain ⟨d, left, hleft, hd⟩ := exists_behind_assigned honly hne hname hletter hbinding
    have hbehind : trim t₃ = d :: left := by rw [← hbehind.trim_eq, hleft]
    cases hcomma with
    | comma =>
      rw [trim_solid (by decide) (by decide)] at hbehind
      exact hd.1 (List.cons.inj hbehind).1.symm
    | none =>
      cases hothers with
      | nil hlast =>
        rw [hlast.trim_eq, trim_solid (by decide) (by decide)] at hbehind
        exact hd.2 (List.cons.inj hbehind).1.symm
      | cons _ hother _ _ _ =>
        -- a second binding would be of the same keyword
        have hfirst := hbinding.mem
        have hsecond := hother.mem
        rw [honly, List.mem_singleton] at hfirst hsecond
        simp [hfirst, hsecond] at hnodup

end Only

end Grammar

namespace Reading

open Grammar

/-! ## 3. Both ways of writing a statement -/

/-- A body that binds a keyword by its name. -/
def namedBody (name literal : String) : String := "\x7b " ++ name ++ " = " ++ literal ++ " \x7d"

/-- A body that binds the only keyword without its name. -/
def unnamedBody (literal : String) : String := "\x7b " ++ literal ++ " \x7d"

variable {ctx : Context} {nested : Terminator → Read Agenda} {s t : Progress}

/-- A statement that binds the only keyword of its method by name is read exactly when the one that
    leaves the name out is, and as the same statement, if the name begins with a letter.  If it does
    not, the statement with the name is not read at all. -/
theorem shorthand_agrees (hmethods : ctx.workspace.methods.Built) {base : MethodId} {call : Call}
    {keyword : Keyword} {front gap rest : List Char} {literal : String}
    (hcall : (CallText ctx.workspace base).Stands front call) (hgap : Gap gap)
    (honly : (ctx.workspace.methods.get call.method).keywords = [keyword])
    (hne : keyword.name ≠ "") (hname : ∀ c ∈ keyword.name.toList, Scan.isNameChar c = true)
    (hliteral : ∃ c ∈ literal.toList.head?, BeginsLiteral c)
    (hs : s.cursor.rest = front ++ (gap ++ ((namedBody keyword.name literal).toList ++ rest)))
    (ht : t.cursor.rest = front ++ (gap ++ ((unnamedBody literal).toList ++ rest))) :
    ((∃ c ∈ keyword.name.toList.head?, c.isAlpha = true) → ∀ meaning left,
      (ReadsAs ctx nested s meaning left ↔ ReadsAs ctx nested t meaning left)) ∧
    ((∀ c ∈ keyword.name.toList.head?, c.isAlpha = false) → ∀ meaning left,
      ¬ReadsAs ctx nested s meaning left) := by
  have hr := hmethods.sound
  have hagenda := Method.not_takesAgenda_of_check (hr.check_get call.method)
    (honly ▸ List.mem_singleton_self keyword)
  obtain ⟨d, hd, hbegins⟩ := hliteral
  obtain ⟨more, hmore⟩ := List.head?_eq_some_iff.1 hd
  let text := literal.toList ++ ' ' :: '\x7d' :: rest
  have htext : text = d :: (more ++ ' ' :: '\x7d' :: rest) := by simp [text, hmore]
  have hnamed : (namedBody keyword.name literal).toList ++ rest
      = '\x7b' :: ' ' :: assigned keyword.name text := by
    simp [namedBody, assigned, text]
  have hunnamed : (unnamedBody literal).toList ++ rest = '\x7b' :: ' ' :: text := by
    simp [unnamedBody, text]
  rw [hnamed] at hs
  rw [hunnamed] at ht
  constructor
  · intro hletter meaning left
    have hbegin : ∃ c ∈ text.head?, BeginsLiteral c := ⟨d, by rw [htext]; rfl, hbegins⟩
    rw [readsAs_front_iff hr hcall hgap hs hagenda, readsAs_front_iff hr hcall hgap ht hagenda]
    simp only [keywordsText_assigned_iff honly hne hname hletter hbegin]
  · rintro hletter meaning left h
    obtain ⟨found, values, rest', hkeywords, hnodup, -⟩ :=
      (readsAs_front_iff hr hcall hgap hs hagenda).1 h
    exact not_keywordsText_assigned honly hne hname hletter hnodup hkeywords

theorem small_wait_stands :
    (CallText Workspace.small ⟨1⟩).Stands "Wait".toList ⟨⟨1⟩, .nowhere, [], []⟩ := by
  intro rest hrest
  have hres : Resolves Workspace.small ⟨1⟩ [] ⟨1⟩ :=
    ⟨by decide, fun _ => rfl, fun h => absurd h (by decide), .nil⟩
  have hname : NameText ("Wait".toList ++ rest) rest "Wait" :=
    nameText_stands (by decide) (List.all_eq_true.1 (by decide)) hrest
  exact .mk hname (by decide) (by decide) .none (.none (by decide)) hres

/-- A statement with a number, with and without the name of its keyword in front of it. -/
theorem shorthand_agrees_wait : Workspace.small.methods.Built ∧
    (∀ meaning left,
      (ReadsAs .small (agenda .small 64) ⟨.start "main" "Wait \x7b time = 2.5 \x7d".toList, {}⟩
          meaning left ↔
        ReadsAs .small (agenda .small 64) ⟨.start "main" "Wait \x7b 2.5 \x7d".toList, {}⟩
          meaning left)) ∧
    acceptsWith .small "main" "Arts \x7b Wait \x7b time = 2.5 \x7d \x7d"
      (Agenda.count · = 1) = true ∧
    acceptsWith .small "main" "Arts \x7b Wait \x7b 2.5 \x7d \x7d" (Agenda.count · = 1) = true := by
  have hspace : Gap [' '] := .blank (by decide) .nil
  have hagree := @shorthand_agrees .small (agenda .small 64)
    ⟨.start "main" "Wait \x7b time = 2.5 \x7d".toList, {}⟩
    ⟨.start "main" "Wait \x7b 2.5 \x7d".toList, {}⟩ Workspace.small_methods_built _ _
    ⟨"time", .float, some "1.5"⟩ _ _ [] "2.5" small_wait_stands hspace rfl (by decide)
    (List.all_eq_true.1 (by decide)) ⟨'2', rfl, .inl (.inl (by decide))⟩ (by decide) (by decide)
  exact ⟨Workspace.small_methods_built, hagree.1 ⟨'t', rfl, by decide⟩, by decide +kernel,
    by decide +kernel⟩

/-- A method whose only keyword has a name that begins with an underscore. -/
def hold : Method := { name := "Hold", keywords := [⟨"_x", .integer, none⟩] }

/-- Reading against this method, with no texts to include. -/
def Context.holding : Context where
  workspace := { methods := ⟨[⟨Workspace.arts, none⟩, ⟨hold, none⟩]⟩ }
  texts := .ofList []

/-- A name that begins with an underscore cannot be written, so only one of the two statements is
    accepted. -/
theorem shorthand_differs_underscore : Context.holding.workspace.methods.Built ∧
    (∀ c ∈ "_x".toList, Scan.isNameChar c = true) ∧
    (∃ a, parse .holding "main" "Arts \x7b Hold \x7b 5 \x7d \x7d" = .ok a) ∧
    ∀ a, parse .holding "main" "Arts \x7b Hold \x7b _x = 5 \x7d \x7d" ≠ .ok a := by
  have h₁ : MethodRegistry.Built ⟨[⟨Workspace.arts, none⟩]⟩ :=
    .insert .empty (rfl : MethodRegistry.insert {} Workspace.arts = .ok (⟨0⟩, _))
  have hbuilt : Context.holding.workspace.methods.Built :=
    .insert h₁ (rfl : MethodRegistry.insert _ hold = .ok (⟨1⟩, _))
  have haccepts : acceptsWith .holding "main" "Arts \x7b Hold \x7b 5 \x7d \x7d"
      (fun _ => true) = true := by decide +kernel
  have hrejects : acceptsWith .holding "main" "Arts \x7b Hold \x7b _x = 5 \x7d \x7d"
      (fun _ => true) = false := by decide +kernel
  obtain ⟨a, ha, -⟩ := acceptsWith_iff.1 haccepts
  refine ⟨hbuilt, List.all_eq_true.1 (by decide), ⟨a, ha⟩, fun b hb => ?_⟩
  rw [acceptsWith_iff.2 ⟨b, hb, rfl⟩] at hrejects
  cases hrejects

end Reading

end ControlScript
