import ControlScript.Proofs.Canonical.Values
import ControlScript.Proofs.Reading.Keywords

/-!
# Keywords in any order

The keywords of a method with several of them are bound by name, so it does not matter in which
order they stand between the braces, nor whether a comma or only blanks separate them.  The keywords
that are left out are filled in afterwards, in the order of their declaration; the first of them
without a usable default decides how the statement fails.
-/

namespace ControlScript

open Grammar

/-! ## 1. Texts with something behind them -/

namespace Grammar

theorem Blanks.append {text rest : List Char} (h : Blanks text rest) (hne : rest ≠ [])
    (more : List Char) : Blanks (text ++ more) (rest ++ more) := by
  induction h with
  | none => exact .none
  | blank hc _ ih => exact .blank hc (ih hne)
  | @comment body text rest hbody hend hblanks ih =>
    rw [List.cons_append, List.append_assoc]
    refine .comment hbody ?_ (ih hne)
    -- a comment that goes on up to the end of the text would leave nothing
    cases text with
    | nil => exact absurd (List.eq_nil_of_suffix_nil hblanks.suffix) hne
    | cons c text => exact hend

/-- A kind of phrase that is found although more stands behind it, as long as the end of a number is
    still the end of the number. -/
def Phrase.Widens {α : Type} (p : Phrase α) : Prop :=
  ∀ ⦃text rest a more⦄, p text rest a → (rest = [] → NumberEnds more) →
    p (text ++ more) (rest ++ more) a

theorem forall_head_append {p : Char → Prop} {rest more : List Char} (h : ∀ c ∈ rest.head?, p c)
    (hmore : rest = [] → ∀ c ∈ more.head?, p c) : ∀ c ∈ (rest ++ more).head?, p c := by
  cases rest with
  | nil => exact hmore rfl
  | cons c rest => exact h

theorem stringText_widens : Phrase.Widens StringText := by
  intro text rest s more h _
  refine ⟨?_, h.plain⟩
  rw [h.spelled, List.cons_append, List.append_assoc, List.cons_append]

theorem integerText_widens : Phrase.Widens IntegerText := by
  rintro text rest n more ⟨numeral, h, hvalue⟩ hmore
  refine ⟨numeral, ⟨?_, h.wellFormed, ?_⟩, hvalue⟩
  · rw [h.spelled, List.append_assoc]
  · exact forall_head_append h.stops fun hnil c hc => (hmore hnil c hc).1

theorem floatText_widens : Phrase.Widens FloatText := by
  rintro text rest x more ⟨numeral, h, hvalue⟩ hmore
  refine ⟨numeral, ⟨?_, h.wellFormed, ?_⟩, hvalue⟩
  · rw [h.spelled, List.append_assoc]
  · refine forall_head_append h.stops fun hnil c hc => ?_
    obtain ⟨hdigit, hpoint, hmark⟩ := hmore hnil c hc
    exact ⟨hdigit, fun _ _ => hpoint, fun _ => hmark⟩

section Lists

variable {α : Type} {item : Phrase α}

/-- Behind every item there is at least the closing character, so what stands behind that is of no
    account to the item. -/
theorem itemsText_widens {close : Char} (hitem : item.Widens) (hproper : item.Proper)
    {text rest more : List Char} {items : List α} (h : ItemsText close item text rest items) :
    ItemsText close item (text ++ more) (rest ++ more) items := by
  induction h with
  | last hlast => exact .last (hlast.append (List.cons_ne_nil _ _) more)
  | more hcomma hnext hfirst hothers ih =>
    obtain ⟨c, taken, htext⟩ := hproper hfirst
    obtain ⟨taken', htext'⟩ := hothers.suffix hproper
    refine .more (hcomma.append (List.cons_ne_nil _ _) more) (hnext.append ?_ more) ?_ ih
    · rw [htext]
      exact List.cons_ne_nil _ _
    · exact hitem hfirst fun hnil => absurd hnil (by rw [htext']; simp)

theorem listText_widens (hitem : item.Widens) (hproper : item.Proper) :
    Phrase.Widens (ListText item) := by
  intro text rest items more h _
  cases h with
  | empty hlast => exact .empty (hlast.append (List.cons_ne_nil _ _) more)
  | items hnext hfirst hothers =>
    obtain ⟨c, taken, htext⟩ := hproper hfirst
    obtain ⟨taken', htext'⟩ := hothers.suffix hproper
    refine .items (hnext.append ?_ more) ?_ (itemsText_widens hitem hproper hothers)
    · rw [htext]
      exact List.cons_ne_nil _ _
    · exact hitem hfirst fun hnil => absurd hnil (by rw [htext']; simp)

end Lists

theorem literalText_widens (kind : ValueKind) : Phrase.Widens (LiteralText kind) := by
  intro text rest v more h hmore
  cases h with
  | string h => exact .string (stringText_widens h hmore)
  | integer h => exact .integer (integerText_widens h hmore)
  | float h => exact .float (floatText_widens h hmore)
  | stringList h =>
    exact .stringList (listText_widens stringText_widens stringText_proper h hmore)
  | integerList h =>
    exact .integerList (listText_widens integerText_widens integerText_proper h hmore)
  | floatList h => exact .floatList (listText_widens floatText_widens floatText_proper h hmore)

/-! ## 2. Bodies of bindings -/

/-- A binding: a name, an equals sign and a literal, which is complete on its own. -/
inductive BindingText : Keyword × Value → List Char → Prop where
  | mk {keyword : Keyword} {value : Value} {before behind literal : List Char} :
      Gap before → Gap behind → LiteralText keyword.kind literal [] value →
        BindingText (keyword, value) (keyword.name.toList ++ (before ++ '=' :: (behind ++ literal)))

/-- What separates bindings: a comma, which may have blanks around it, or only blanks. -/
inductive Separator : List Char → Prop where
  | comma {before behind : List Char} :
      Gap before → Gap behind → Separator (before ++ ',' :: behind)
  | blanks {gap : List Char} : Gap gap → gap ≠ [] → Separator gap

/-- Bindings with a separator between neighbours; behind the last one there may be another. -/
inductive BindingsText : List (Keyword × Value) → List Char → Prop where
  | nil : BindingsText [] []
  | last {binding : Keyword × Value} {text : List Char} :
      BindingText binding text → BindingsText [binding] text
  | cons {binding : Keyword × Value} {others : List (Keyword × Value)}
      {text separator rest : List Char} :
      BindingText binding text → Separator separator → BindingsText others rest →
        BindingsText (binding :: others) (text ++ (separator ++ rest))

/-- What stands between the braces: bindings, in front of which there may be blanks. -/
def BodyOf (found : List (Keyword × Value)) (body : List Char) : Prop :=
  ∃ gap text, body = gap ++ text ∧ Gap gap ∧ BindingsText found text

theorem numberEnds_gap {gap text : List Char} (h : Gap gap) (htext : NumberEnds text) :
    NumberEnds (gap ++ text) :=
  forall_head_append (WordEnds.numberEnds h.head) fun _ => htext

theorem numberEnds_mark {c : Char} (h : c ∈ marks) (text : List Char) : NumberEnds (c :: text) :=
  (wordEnds_cons (not_isWordChar_mark h) text).numberEnds

theorem Separator.numberEnds {separator : List Char} (h : Separator separator)
    (text : List Char) : NumberEnds (separator ++ text) := by
  cases h with
  | comma hbefore _ =>
    rw [List.append_assoc]
    exact numberEnds_gap hbefore (numberEnds_mark (by decide) _)
  | blanks hgap hne =>
    exact forall_head_append (WordEnds.numberEnds hgap.head) fun hnil => absurd hnil hne

section Bodies

variable {m : Method} {binding : Keyword × Value} {found : List (Keyword × Value)}

/-- The names of the keywords of a list are names, and their keywords are declared. -/
structure Declared (m : Method) (found : List (Keyword × Value)) : Prop where
  mem : ∀ binding ∈ found, binding.1 ∈ m.keywords
  named : ∀ binding ∈ found, binding.1.name ≠ "" ∧
    ∀ c ∈ binding.1.name.toList, Scan.isNameChar c = true

theorem Declared.of_cons (h : Declared m (binding :: found)) : Declared m found :=
  ⟨fun b hb => h.mem b (List.mem_cons_of_mem _ hb),
    fun b hb => h.named b (List.mem_cons_of_mem _ hb)⟩

theorem Declared.perm (h : Declared m found) {order : List (Keyword × Value)}
    (hperm : order.Perm found) : Declared m order :=
  ⟨fun b hb => h.mem b (hperm.mem_iff.1 hb), fun b hb => h.named b (hperm.mem_iff.1 hb)⟩

/-- A binding is a keyword of a method with several keywords, wherever no number goes on behind
    it. -/
theorem keywordText_of_binding (hkeywords : (m.keywords.map (·.name)).Nodup)
    (hmany : 2 ≤ m.keywords.length) (hdeclared : Declared m (binding :: found)) {text : List Char}
    (h : BindingText binding text) {rest : List Char} (hrest : NumberEnds rest) :
    KeywordText m (text ++ rest) rest binding := by
  obtain ⟨hne, hchars⟩ := hdeclared.named binding List.mem_cons_self
  have hmem := hdeclared.mem binding List.mem_cons_self
  cases h with
  | @mk keyword value before behind literal hbefore hbehind hliteral =>
    have htext : keyword.name.toList ++ (before ++ '=' :: (behind ++ literal)) ++ rest
        = keyword.name.toList ++ (before ++ '=' :: (behind ++ (literal ++ rest))) := by
      simp only [List.append_assoc, List.cons_append]
    rw [htext]
    apply KeywordText.named ?name (fun hone => by omega) (find?_keyword hkeywords hmem)
      (hbefore.blanks _) (hbehind.blanks _)
    case name =>
      -- behind the name there are blanks or the equals sign
      refine ⟨⟨rfl, hchars, forall_head_append ?_ fun _ c hc => ?_⟩, hne⟩
      · exact fun c hc => not_isNameChar_of_not_isWordChar (hbefore.head c hc)
      · obtain rfl : '=' = c := Option.some.inj hc
        decide
    case _ => exact literalText_widens _ hliteral fun _ => hrest

/-- Bindings up to a closing brace are keywords of the grammar, however they are separated. -/
theorem keywordsText_of_bindings (hkeywords : (m.keywords.map (·.name)).Nodup)
    (hmany : 2 ≤ m.keywords.length) (hdeclared : Declared m found) {text : List Char}
    (h : BindingsText found text) (rest : List Char) :
    KeywordsText m (text ++ '\x7d' :: rest) ('\x7d' :: rest) found := by
  induction h with
  | nil => exact .nil .none
  | last hbinding =>
    exact .cons .none (keywordText_of_binding hkeywords hmany hdeclared hbinding
      (numberEnds_mark (by decide) rest)) .none .none (.nil .none)
  | @cons binding others text separator behind hbinding hseparator _ ih =>
    have hothers := ih hdeclared.of_cons
    have hfirst := keywordText_of_binding hkeywords hmany hdeclared hbinding
      (hseparator.numberEnds (behind ++ '\x7d' :: rest))
    rw [List.append_assoc, List.append_assoc]
    cases hseparator with
    | comma hbefore hbehind =>
      rw [List.append_assoc, List.cons_append] at hfirst ⊢
      exact .cons .none hfirst (hbefore.blanks _) .comma (hothers.blanks (hbehind.blanks _))
    | blanks hgap _ => exact .cons .none hfirst (hgap.blanks _) .none hothers

theorem keywordsText_of_body (hkeywords : (m.keywords.map (·.name)).Nodup)
    (hmany : 2 ≤ m.keywords.length) (hdeclared : Declared m found) {body : List Char}
    (h : BodyOf found body) (rest : List Char) :
    KeywordsText m (body ++ '\x7d' :: rest) ('\x7d' :: rest) found := by
  obtain ⟨gap, text, rfl, hgap, htext⟩ := h
  rw [List.append_assoc]
  exact (keywordsText_of_bindings hkeywords hmany hdeclared htext rest).blanks (hgap.blanks _)

end Bodies

end Grammar

namespace Reading

/-! ## 3. The values of all keywords -/

section Completing

variable {m : Method} {found : List (Keyword × Value)} {here : Position}

/-- What is bound to a keyword is looked up by its name, in whichever order things were bound. -/
theorem lookup_byName (hkeywords : (m.keywords.map (·.name)).Nodup)
    (hfound : ∀ binding ∈ found, binding.1 ∈ m.keywords) (hnodup : (found.map Prod.fst).Nodup)
    {keyword : Keyword} (hkeyword : keyword ∈ m.keywords) {value : Value} :
    List.lookup keyword.name (byName found) = some value ↔ (keyword, value) ∈ found := by
  rw [lookup_eq_some_iff_mem ((nodup_byName_iff hkeywords hfound).2 hnodup),
    mem_byName_iff hkeywords hfound hkeyword]

theorem lookup_byName_eq_none (hkeywords : (m.keywords.map (·.name)).Nodup)
    (hfound : ∀ binding ∈ found, binding.1 ∈ m.keywords) (hnodup : (found.map Prod.fst).Nodup)
    {keyword : Keyword} (hkeyword : keyword ∈ m.keywords) :
    List.lookup keyword.name (byName found) = none ↔ ∀ value, (keyword, value) ∉ found := by
  rw [Option.eq_none_iff_forall_ne_some]
  simp only [ne_eq, lookup_byName hkeywords hfound hnodup hkeyword]

theorem mapM_congr_of_mem {α β ε : Type} {f g : α → Except ε β} {items : List α}
    (h : ∀ a ∈ items, f a = g a) : items.mapM f = items.mapM g := by
  induction items with
  | nil => rfl
  | cons a items ih =>
    obtain ⟨ha, hitems⟩ := List.forall_mem_cons.1 h
    rw [List.mapM_cons, List.mapM_cons, ha, ih hitems]

/-- The values of all keywords do not depend on the order in which some were bound. -/
theorem complete_perm (hkeywords : (m.keywords.map (·.name)).Nodup)
    (hfound : ∀ binding ∈ found, binding.1 ∈ m.keywords) (hnodup : (found.map Prod.fst).Nodup)
    {order : List (Keyword × Value)} (hperm : order.Perm found) :
    complete m (byName order) here = complete m (byName found) here := by
  have horder : ∀ binding ∈ order, binding.1 ∈ m.keywords :=
    fun binding hb => hfound binding (hperm.mem_iff.1 hb)
  have hnodup' : (order.map Prod.fst).Nodup := (hperm.map _).nodup_iff.2 hnodup
  rw [complete, complete]
  refine mapM_congr_of_mem fun keyword hkeyword => ?_
  have hlookup : List.lookup keyword.name (byName order)
      = List.lookup keyword.name (byName found) := by
    refine Option.ext fun value => ?_
    rw [lookup_byName hkeywords horder hnodup' hkeyword,
      lookup_byName hkeywords hfound hnodup hkeyword, hperm.mem_iff]
  rw [hlookup]

/-- What a statement at `here` comes to when some of its keywords are bound: every keyword has the
    value that is bound to it or its default, or the first of those that have neither is reported. -/
def Settles (m : Method) (found : List (Keyword × Value)) (here : Position) :
    Except Fault (List Value) → Prop
  | .ok values => Completes m found values
  | .error f => f.position = here ∧ ∃ before keyword behind, m.keywords = before ++ keyword :: behind ∧
      (∀ other ∈ before, (∃ v, (other, v) ∈ found) ∨ ∃ v, DefaultText other v) ∧
      (∀ v, (keyword, v) ∉ found) ∧ (∀ v, ¬ DefaultText keyword v) ∧ LacksDefault m keyword f.cause

theorem complete_settles (hkeywords : (m.keywords.map (·.name)).Nodup)
    (hfound : ∀ binding ∈ found, binding.1 ∈ m.keywords) (hnodup : (found.map Prod.fst).Nodup) :
    Settles m found here (complete m (byName found) here) := by
  cases hresult : complete m (byName found) here with
  | ok values => exact (complete_eq_ok_iff hkeywords hfound hnodup).1 hresult
  | error f =>
    rw [complete] at hresult
    obtain ⟨before, keyword, behind, hsplit, hbefore, hfails⟩ := split_of_mapM_eq_error hresult
    have hmem : ∀ {other}, other ∈ before ∨ other = keyword → other ∈ m.keywords := by
      intro other hother
      rw [hsplit, List.mem_append, List.mem_cons]
      exact hother.imp id .inl
    split at hfails
    · cases hfails
    · rename_i hunbound
      obtain ⟨hposition, hcause⟩ := defaultValue_error hfails
      refine ⟨hposition, before, keyword, behind, hsplit, fun other hother => ?_, ?_, ?_, hcause⟩
      · obtain ⟨v, hv⟩ := hbefore other hother
        split at hv
        · rename_i hbound
          exact .inl ⟨_, (lookup_byName hkeywords hfound hnodup (hmem (.inl hother))).1 hbound⟩
        · exact .inr ⟨v, defaultValue_eq_ok_iff.1 hv⟩
      · exact (lookup_byName_eq_none hkeywords hfound hnodup (hmem (.inr rfl))).1 hunbound
      · intro v hv
        rw [defaultValue_eq_ok_iff.2 hv] at hfails
        cases hfails

/-! ## 4. Bodies in any order -/

/-- Inside the braces, the bindings are read by name and the values of all keywords follow. -/
theorem bindKeywords_of_body (hkeywords : (m.keywords.map (·.name)).Nodup)
    (hmany : 2 ≤ m.keywords.length) (hdeclared : Declared m found)
    (hnodup : (found.map Prod.fst).Nodup) {body rest : List Char} (hbody : BodyOf found body)
    {c : Cursor} (hc : c.rest = '\x7b' :: (body ++ '\x7d' :: rest)) :
    ∃ c', c'.rest = '\x7d' :: rest ∧ bindKeywords m true here c.advance
      = (ofExcept (complete m (byName found) here) : Scan (List Value)) c' := by
  have htext := keywordsText_of_body hkeywords hmany hdeclared hbody rest
  obtain ⟨c', hread, hc'⟩ := bindings_of_text htext
    ((nodup_byName_iff hkeywords hdeclared.mem).2 hnodup) (Cursor.trim_rest_advance hc)
  refine ⟨c', hc', ?_⟩
  rw [bindKeywords, if_pos rfl, bind_of_ok hread]

end Completing

/-- Whatever the order of the bindings of a method with several keywords, and whatever separates
    them, a braced body comes to the same result. -/
theorem keyword_order_insignificant {methods : MethodRegistry} (hbuilt : methods.Built)
    {id : MethodId} (hmany : 2 ≤ (methods.get id).keywords.length)
    {found : List (Keyword × Value)} (hdeclared : Declared (methods.get id) found)
    (hdistinct : (found.map (·.1.name)).Nodup) (here : Position) :
    ∃ result, Settles (methods.get id) found here result ∧
      ∀ order body rest (c : Cursor), order.Perm found → BodyOf order body →
        c.rest = '\x7b' :: (body ++ '\x7d' :: rest) →
          ∃ c', c'.rest = '\x7d' :: rest ∧ bindKeywords (methods.get id) true here c.advance
            = (ofExcept result : Scan (List Value)) c' := by
  have hkeywords : ((methods.get id).keywords.map (·.name)).Nodup :=
    Method.nodup_keywords_of_check (hbuilt.sound.check_get id)
  have hnodup : (found.map Prod.fst).Nodup := by
    have hnames : (found.map Prod.fst).map (·.name) = found.map (·.1.name) := List.map_map
    exact List.Nodup.of_map _ (hnames ▸ hdistinct)
  refine ⟨_, complete_settles hkeywords hdeclared.mem hnodup, ?_⟩
  intro order body rest c hperm hbody hc
  have horder : (order.map Prod.fst).Nodup := (hperm.map _).nodup_iff.2 hnodup
  rw [← complete_perm hkeywords hdeclared.mem hnodup hperm]
  exact bindKeywords_of_body hkeywords hmany (hdeclared.perm hperm) horder hbody hc

/-- A keyword that has to be bound. -/
def factor : Keyword := ⟨"factor", .integer, none⟩

/-- A keyword that has a default. -/
def label : Keyword := ⟨"label", .string, some "\"none\""⟩

/-- A method with these two keywords. -/
def scale : Method := { name := "Scale", keywords := [factor, label] }

/-- Two bodies that bind both keywords of a method, one way round with a comma between them and the
    other way round on two lines. -/
theorem keyword_order_insignificant_scale : ∃ result c₁ c₂,
    Settles scale [(factor, .integer 2), (label, .string "x, y")] ⟨"main", 1, 1⟩ result ∧
      bindKeywords scale true ⟨"main", 1, 1⟩
          (Cursor.start "main" "\x7bfactor=2,label=\"x, y\"\x7d".toList).advance
        = (ofExcept result : Scan (List Value)) c₁ ∧
      bindKeywords scale true ⟨"main", 1, 1⟩
          (Cursor.start "main" "\x7b label = \"x, y\"\nfactor=2 , \x7d".toList).advance
        = (ofExcept result : Scan (List Value)) c₂ := by
  have hbuilt : MethodRegistry.Built ⟨[⟨scale, none⟩]⟩ :=
    .insert .empty (rfl : MethodRegistry.insert {} scale = .ok (⟨0⟩, _))
  have hdeclared : Declared scale [(factor, .integer 2), (label, .string "x, y")] :=
    ⟨by simp [scale], by simp only [List.forall_mem_cons, ← List.all_eq_true]; decide⟩
  obtain ⟨result, hresult, hany⟩ := @keyword_order_insignificant _ hbuilt ⟨0⟩ (by decide) _
    hdeclared (by decide) ⟨"main", 1, 1⟩
  have hfactor : LiteralText .integer "2".toList [] (.integer 2) :=
    @literalText_text (.integer 2) trivial [] (by simp [NumberEnds])
  have hlabel : LiteralText .string "\"x, y\"".toList [] (.string "x, y") :=
    .string ⟨rfl, by simp⟩
  have hspace : Gap [' '] := .blank (by decide) .nil
  have hfeed : Gap ['\n'] := .blank (by decide) .nil
  -- without any blanks
  have hdense : BodyOf [(factor, .integer 2), (label, .string "x, y")]
      "factor=2,label=\"x, y\"".toList := by
    have htext := BindingsText.cons (@BindingText.mk factor _ _ _ _ .nil .nil hfactor)
      (.comma .nil .nil) (.last (@BindingText.mk label _ _ _ _ .nil .nil hlabel))
    exact ⟨[], _, by decide, .nil, htext⟩
  -- the other way round, with blanks between them and a comma behind the last
  have hloose : BodyOf [(label, .string "x, y"), (factor, .integer 2)]
      " label = \"x, y\"\nfactor=2 , ".toList := by
    have htext := BindingsText.cons (@BindingText.mk label _ _ _ _ hspace hspace hlabel)
      (.blanks hfeed (by simp)) (.cons (@BindingText.mk factor _ _ _ _ .nil .nil hfactor)
        (.comma hspace hspace) .nil)
    exact ⟨[' '], _, by decide, hspace, htext⟩
  obtain ⟨c₁, -, h₁⟩ := hany _ _ [] (Cursor.start "main" "\x7bfactor=2,label=\"x, y\"\x7d".toList)
    (.refl _) hdense (by decide)
  obtain ⟨c₂, -, h₂⟩ := hany _ _ []
    (Cursor.start "main" "\x7b label = \"x, y\"\nfactor=2 , \x7d".toList) (.swap _ _ _) hloose
    (by decide)
  exact ⟨result, c₁, c₂, hresult, h₁, h₂⟩

end Reading

end ControlScript
