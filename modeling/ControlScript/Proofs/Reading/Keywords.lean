import ControlScript.Proofs.Grammar.Script
import ControlScript.Proofs.Literal
import ControlScript.Proofs.Registration
import Mathlib.Data.List.Nodup

/-!
# Binding keywords as the grammar says

The keywords of a statement are read exactly as the grammar describes them.  While they are read,
their values are kept by name; the names of the keywords of a method are distinct, so nothing is
lost by that.
-/

namespace ControlScript

open Grammar

/-! ## 1. Keywords as phrases -/

namespace Grammar

variable {m : Method}

/-- What may stand at the beginning of a keyword. -/
def BeginsKeyword (ch : Char) : Prop := Scan.isNameChar ch = true ∨ BeginsLiteral ch

theorem KeywordText.head {text rest : List Char} {binding : Keyword × Value}
    (h : KeywordText m text rest binding) : ∃ ch t, text = ch :: t ∧ BeginsKeyword ch := by
  cases h with
  | named hname _ _ _ _ _ =>
    obtain ⟨ch, t, ht, hch⟩ := hname.head
    exact ⟨ch, t, ht, .inl hch⟩
  | unnamed _ _ hvalue =>
    obtain ⟨ch, t, ht, hch⟩ := hvalue.head
    exact ⟨ch, t, ht, .inr hch⟩

theorem BeginsKeyword.ne {ch d : Char} (h : BeginsKeyword ch) (hd : d = '\x7d' ∨ d = ',') :
    ch ≠ d := by
  rcases h with h | h
  · rintro rfl
    rcases hd with rfl | rfl <;> exact absurd h (by decide)
  · exact h.ne (.inr hd)

theorem keywordText_solid : Phrase.Solid (KeywordText m) := by
  intro text rest binding h
  cases h with
  | named hname _ _ _ _ _ => exact nameText_solid hname
  | unnamed _ _ hvalue => exact literalText_solid _ hvalue

theorem keywordText_proper : Phrase.Proper (KeywordText m) := by
  intro text rest binding h
  cases h with
  | named hname _ _ hequals hblanks hvalue =>
    obtain ⟨s, rfl⟩ := ((literalText_proper _).suffix hvalue).trans
      (hblanks.suffix.trans ((List.suffix_cons _ _).trans hequals.suffix))
    obtain ⟨ch, t, rfl⟩ := nameText_proper hname
    exact ⟨ch, t ++ s, by rw [List.append_assoc]⟩
  | unnamed _ _ hvalue => exact literalText_proper _ hvalue

theorem KeywordText.mem {text rest : List Char} {keyword : Keyword} {value : Value}
    (h : KeywordText m text rest (keyword, value)) : keyword ∈ m.keywords := by
  cases h with
  | named _ _ hfind _ _ _ => exact List.mem_of_find?_eq_some hfind
  | unnamed hkeywords _ _ => rw [hkeywords]; exact List.mem_singleton_self _

theorem KeywordsText.blanks {text t rest : List Char} {bound : List (Keyword × Value)}
    (hblanks : Blanks text t) (h : KeywordsText m t rest bound) :
    KeywordsText m text rest bound := by
  cases h with
  | nil hlast => exact .nil (hblanks.trans hlast)
  | cons hnext hbinding hbehind hcomma hothers =>
    exact .cons (hblanks.trans hnext) hbinding hbehind hcomma hothers

theorem CommaText.suffix {text rest : List Char} (h : CommaText text rest) : rest <:+ text := by
  cases h with
  | comma => exact List.suffix_cons _ _
  | none => exact List.suffix_rfl

theorem KeywordsText.suffix {text rest : List Char} {bound : List (Keyword × Value)}
    (h : KeywordsText m text rest bound) : rest <:+ text := by
  induction h with
  | nil hlast => exact hlast.suffix
  | cons hnext hbinding hbehind hcomma _ ih =>
    exact ih.trans (hcomma.suffix.trans (hbehind.suffix.trans
      ((keywordText_proper.suffix hbinding).trans hnext.suffix)))

theorem KeywordsText.forall_mem {text rest : List Char} {found : List (Keyword × Value)}
    (h : KeywordsText m text rest found) : ∀ binding ∈ found, binding.1 ∈ m.keywords := by
  induction h with
  | nil _ => simp
  | cons _ hbinding _ _ _ ih =>
    intro binding hmem
    rcases List.mem_cons.1 hmem with rfl | hmem
    · exact hbinding.mem
    · exact ih binding hmem

/-- A comma that could be taken for the one behind a keyword does not stand in front of keywords. -/
theorem KeywordsText.head_ne {text rest : List Char} {bound : List (Keyword × Value)}
    (h : KeywordsText m text ('\x7d' :: rest) bound) : (trim text).head? ≠ some ',' := by
  cases h with
  | nil hlast =>
    rw [hlast.trim_eq, trim_solid (by decide) (by decide)]
    simp
  | cons hnext hbinding _ _ _ =>
    obtain ⟨ch, t, rfl, hch⟩ := hbinding.head
    rw [hnext.trim_eq, keywordText_solid hbinding, List.head?_cons]
    exact fun heq => hch.ne (.inr rfl) (Option.some.inj heq)

end Grammar

/-- Names of keywords are distinct, so every keyword is found under its own. -/
theorem find?_keyword {m : Method} (hnodup : (m.keywords.map (·.name)).Nodup) {keyword : Keyword}
    (hmem : keyword ∈ m.keywords) :
    m.keywords.find? (·.name = keyword.name) = some keyword := by
  have hsome : (m.keywords.find? (·.name = keyword.name)).isSome = true := by
    rw [List.find?_isSome]
    exact ⟨keyword, hmem, by simp⟩
  obtain ⟨found, hfound⟩ := Option.isSome_iff_exists.1 hsome
  have hname : found.name = keyword.name := by simpa using List.find?_some hfound
  rw [hfound, List.inj_on_of_nodup_map hnodup (List.mem_of_find?_eq_some hfound) hmem hname]

namespace Reading

variable {m : Method} {c c' : Cursor}

/-! ## 2. One keyword -/

theorem checkUnset_eq_ok_iff {bound : Bindings} {keyword : Keyword} {here : Position} {u : Unit} :
    checkUnset bound keyword here c = .ok u c' ↔
      List.lookup keyword.name bound = none ∧ c' = c := by
  rw [checkUnset]
  cases List.lookup keyword.name bound with
  | none => simp
  | some value => simp

/-- The name of an only keyword is left out exactly when no letter comes next. -/
theorem unnamed?_eq_ok_iff {found : Option Keyword} : unnamed? m c = .ok found c' ↔ c' = c ∧
    ((∃ keyword, m.keywords = [keyword] ∧ found = some keyword ∧
        ∃ ch ∈ c.rest.head?, ch.isAlpha = false) ∨
      (found = none ∧ (m.keywords.length = 1 → ∃ ch ∈ c.rest.head?, ch.isAlpha = true))) := by
  -- no name is left out unless there is exactly one keyword
  have hmany : m.keywords.length ≠ 1 → (unnamed? m c = .ok found c' ↔ c' = c ∧ found = none) := by
    intro hlength
    unfold unnamed?
    rcases hkeywords : m.keywords with _ | ⟨keyword, _ | ⟨other, rest⟩⟩
    · simp [and_comm]
    · exact absurd (by rw [hkeywords]; rfl) hlength
    · simp [and_comm]
  by_cases hlength : m.keywords.length = 1
  · obtain ⟨keyword, hkeywords⟩ := List.length_eq_one_iff.1 hlength
    simp only [unnamed?, bind_eq_ok_iff, Scan.current_eq_ok_iff, pure_eq_ok_iff, and_assoc,
      exists_and_left, exists_eq_left, hkeywords, List.cons.injEq, and_true, List.length_singleton,
      true_implies, Option.mem_def, exists_eq_left']
    constructor
    · rintro ⟨ch, hch, rfl, rfl⟩
      cases halpha : ch.isAlpha with
      | true => exact ⟨rfl, .inr ⟨rfl, ch, hch, halpha⟩⟩
      | false => exact ⟨rfl, .inl ⟨rfl, ch, hch, halpha⟩⟩
    · rintro ⟨rfl, ⟨rfl, ch, hch, halpha⟩ | ⟨rfl, ch, hch, halpha⟩⟩
      · exact ⟨ch, hch, by rw [halpha]; rfl, rfl⟩
      · exact ⟨ch, hch, by rw [halpha]; rfl, rfl⟩
  · rw [hmany hlength]
    refine and_congr_right fun _ => ⟨fun h => .inr ⟨h, fun h' => absurd h' hlength⟩, ?_⟩
    rintro (⟨keyword, hkeywords, -⟩ | ⟨h, -⟩)
    · exact absurd (by rw [hkeywords]; rfl) hlength
    · exact h

theorem nextKeyword_eq_ok_iff {bound : Bindings} {keyword : Keyword} :
    nextKeyword m bound c = .ok keyword c' ↔ List.lookup keyword.name bound = none ∧
      ((m.keywords = [keyword] ∧ (∃ ch ∈ c.rest.head?, ch.isAlpha = false) ∧ c' = c) ∨
        ((m.keywords.length = 1 → ∃ ch ∈ c.rest.head?, ch.isAlpha = true) ∧
          ∃ name u, Scan.requiredName .keywordName c = .ok name u ∧
            m.keywords.find? (·.name = name) = some keyword ∧
            u.pastBlanks.rest.head? = some '=' ∧ c' = u.pastBlanks.advance.pastBlanks)) := by
  simp only [nextKeyword, bind_eq_ok_iff, Scan.position_eq_ok_iff, unnamed?_eq_ok_iff, and_assoc,
    exists_and_left, exists_eq_left]
  constructor
  · rintro ⟨found, ⟨only, hkeywords, rfl, hhead⟩ | ⟨rfl, hhead⟩, h⟩
    · simp only [bind_eq_ok_iff, checkUnset_eq_ok_iff, pure_eq_ok_iff, and_assoc, exists_and_left,
        exists_eq_left, exists_const] at h
      obtain ⟨hunset, rfl, rfl⟩ := h
      exact ⟨hunset, .inl ⟨hkeywords, hhead, rfl⟩⟩
    · obtain ⟨name, u, hread, h⟩ := bind_eq_ok_iff.1 h
      cases hfind : m.keywords.find? (·.name = name) with
      | none => simp [hfind] at h
      | some named =>
        simp only [hfind, bind_eq_ok_iff, checkUnset_eq_ok_iff, Scan.skipBlanks_eq_ok_iff,
          Scan.expect_eq_ok_iff, pure_eq_ok_iff, and_assoc, exists_and_left, exists_eq_left,
          exists_const] at h
        obtain ⟨hunset, hequals, rfl, rfl⟩ := h
        exact ⟨hunset, .inr ⟨hhead, name, u, hread, hfind, hequals, rfl⟩⟩
  · rintro ⟨hunset, ⟨hkeywords, hhead, rfl⟩ | ⟨hhead, name, u, hread, hfind, hequals, rfl⟩⟩
    · refine ⟨some keyword, .inl ⟨keyword, hkeywords, rfl, hhead⟩, ?_⟩
      simp only [bind_eq_ok_iff, checkUnset_eq_ok_iff, pure_eq_ok_iff, and_assoc, exists_and_left,
        exists_eq_left, exists_const]
      exact ⟨hunset, trivial, trivial⟩
    · refine ⟨none, .inr ⟨rfl, hhead⟩, bind_eq_ok_iff.2 ⟨name, u, hread, ?_⟩⟩
      simp only [hfind, bind_eq_ok_iff, checkUnset_eq_ok_iff, Scan.skipBlanks_eq_ok_iff,
        Scan.expect_eq_ok_iff, pure_eq_ok_iff, and_assoc, exists_and_left, exists_eq_left,
        exists_const]
      exact ⟨hunset, hequals, trivial, trivial⟩

/-- The value of the next keyword is read: its name and its literal are a keyword of the grammar. -/
theorem keywordText_of_ok {bound : Bindings} {keyword : Keyword} {value : Value} {u : Cursor}
    (hkeyword : nextKeyword m bound c = .ok keyword u)
    (hvalue : Literal.value keyword.kind u = .ok value c') :
    List.lookup keyword.name bound = none ∧
      ∃ rest, KeywordText m c.rest rest (keyword, value) ∧ c'.rest = dropFeeds rest := by
  obtain ⟨rest, htext, hrest⟩ := (Scan.value_reads keyword.kind).sound hvalue
  obtain ⟨hunset, h⟩ := nextKeyword_eq_ok_iff.1 hkeyword
  refine ⟨hunset, rest, ?_, hrest⟩
  rcases h with ⟨hkeywords, ⟨ch, hch, halpha⟩, rfl⟩ | ⟨hhead, name, v, hname, hfind, hequals, rfl⟩
  · refine .unnamed hkeywords (fun ch' hch' => ?_) htext
    obtain rfl := Option.mem_unique hch hch'
    exact halpha
  · obtain ⟨t, ht⟩ := List.head?_eq_some_iff.1 hequals
    obtain ⟨t', hname', hv⟩ := (Scan.requiredName_reads .keywordName).sound hname
    rw [Cursor.rest_advance_pastBlanks ht] at htext
    rw [Cursor.rest_pastBlanks_of hv] at ht
    exact .named hname' hhead hfind (ht ▸ blanks_trim t') (blanks_trim t) htext

theorem ok_of_keywordText {bound : Bindings} {keyword : Keyword} {value : Value} {rest : List Char}
    (h : KeywordText m c.rest rest (keyword, value))
    (hunset : List.lookup keyword.name bound = none) :
    ∃ u c', nextKeyword m bound c = .ok keyword u ∧
      Literal.value keyword.kind u = .ok value c' ∧ c'.rest = dropFeeds rest := by
  generalize htext : c.rest = text at h
  cases h with
  | @named _ t₁ t₂ t₃ _ name _ _ hname hhead hfind hequals hblanks hvalue =>
    obtain ⟨u, hread, hu⟩ := (Scan.requiredName_reads .keywordName).complete (htext ▸ hname)
    have hsign : u.pastBlanks.rest = '=' :: t₂ := by
      rw [Cursor.rest_pastBlanks_of hu, hequals.trim_eq,
        trim_solid (by decide) (by decide)]
    have hstart : u.pastBlanks.advance.pastBlanks.rest = t₃ := by
      rw [Cursor.rest_advance_pastBlanks hsign,
        hblanks.trim_eq, literalText_solid _ hvalue]
    obtain ⟨c', hread', hc'⟩ := (Scan.value_reads keyword.kind).complete (hstart ▸ hvalue)
    refine ⟨_, c', nextKeyword_eq_ok_iff.2 ⟨hunset, .inr ⟨htext ▸ hhead, name, u, hread, hfind, ?_,
      rfl⟩⟩, hread', hc'⟩
    rw [hsign, List.head?_cons]
  | unnamed hkeywords hhead hvalue =>
    obtain ⟨c', hread, hc'⟩ := (Scan.value_reads keyword.kind).complete (htext ▸ hvalue)
    obtain ⟨ch, t, ht, -⟩ := hvalue.head
    refine ⟨c, c', nextKeyword_eq_ok_iff.2 ⟨hunset, .inl ⟨hkeywords, ⟨ch, ?_, ?_⟩, rfl⟩⟩, hread, hc'⟩
    · rw [htext, ht]
      rfl
    · exact hhead ch (by rw [ht]; rfl)

/-! ## 3. All keywords -/

/-- One turn of binding keywords, when some are bound already. -/
def keywordTurn (m : Method) (bound : Bindings) : Scan (Turn Bindings Bindings) := do
  if (← Scan.current) = '\x7d' then
    return .done bound
  let keyword ← nextKeyword m bound
  let value ← Literal.value keyword.kind
  Scan.skipBlanks
  if (← Scan.peek) = some ',' then
    Scan.advance
    Scan.skipBlanks
  return .again ((keyword.name, value) :: bound)

theorem bindings_eq (m : Method) : bindings m = (do
    Scan.skipBlanks
    Scan.repeat (keywordTurn m) []) := rfl

/-- A cursor behind a comma and the blanks behind it, if it stands in front of one. -/
def pastComma (c : Cursor) : Cursor :=
  if c.rest.head? = some ',' then c.advance.pastBlanks else c

theorem keywordTurn_eq_ok_iff {bound : Bindings} {turn : Turn Bindings Bindings} :
    keywordTurn m bound c = .ok turn c' ↔
      c.rest.head? = some '\x7d' ∧ turn = .done bound ∧ c' = c ∨
        ∃ ch, c.rest.head? = some ch ∧ ch ≠ '\x7d' ∧ ∃ keyword value u v,
          nextKeyword m bound c = .ok keyword u ∧ Literal.value keyword.kind u = .ok value v ∧
            turn = .again ((keyword.name, value) :: bound) ∧ c' = pastComma v.pastBlanks := by
  -- what is done behind a value, whether there is a comma or not
  have hcomma : ∀ {keyword : Keyword} {value : Value} {v : Cursor}, (do
      Scan.skipBlanks
      if (← Scan.peek) = some ',' then
        Scan.advance
        Scan.skipBlanks
      return .again ((keyword.name, value) :: bound) : Scan (Turn Bindings Bindings)) v
        = .ok turn c' ↔
      turn = .again ((keyword.name, value) :: bound) ∧ c' = pastComma v.pastBlanks := by
    intro keyword value v
    simp only [bind_eq_ok_iff, Scan.skipBlanks_eq_ok_iff, Scan.peek_eq_ok_iff, and_assoc,
      exists_and_left, exists_eq_left, exists_const]
    unfold pastComma
    by_cases hhead : v.pastBlanks.rest.head? = some ','
    · rw [if_pos hhead, if_pos hhead]
      simp only [bind_eq_ok_iff, Scan.advance_eq_ok_iff, Scan.skipBlanks_eq_ok_iff, pure_eq_ok_iff,
        exists_eq_left, exists_const]
    · rw [if_neg hhead, if_neg hhead, pure_eq_ok_iff]
  simp only [keywordTurn, bind_eq_ok_iff, Scan.current_eq_ok_iff, and_assoc, exists_and_left]
  constructor
  · rintro ⟨ch, hch, _, rfl, h⟩
    by_cases hclose : ch = '\x7d'
    · rw [if_pos hclose, pure_eq_ok_iff] at h
      exact .inl ⟨hclose ▸ hch, h⟩
    · rw [if_neg hclose, bind_eq_ok_iff] at h
      obtain ⟨keyword, u, hkeyword, h⟩ := h
      rw [bind_eq_ok_iff] at h
      obtain ⟨value, v, hvalue, h⟩ := h
      exact .inr ⟨ch, hch, hclose, keyword, value, u, hkeyword, v, hvalue, hcomma.1 h⟩
  · rintro (⟨hch, rfl, rfl⟩ | ⟨ch, hch, hclose, keyword, value, u, hkeyword, v, hvalue, h⟩)
    · exact ⟨_, hch, c', rfl, by rw [if_pos rfl, pure_eq_ok_iff]; exact ⟨rfl, rfl⟩⟩
    · refine ⟨ch, hch, c, rfl, ?_⟩
      rw [if_neg hclose, bind_eq_ok_iff]
      refine ⟨keyword, u, hkeyword, ?_⟩
      rw [bind_eq_ok_iff]
      exact ⟨value, v, hvalue, hcomma.2 h⟩

/-- Bindings by the names of their keywords, the last one first. -/
def byName (found : List (Keyword × Value)) : Bindings :=
  (found.map fun binding => (binding.1.name, binding.2)).reverse

theorem byName_cons (binding : Keyword × Value) (found : List (Keyword × Value)) :
    byName (binding :: found) = byName found ++ [(binding.1.name, binding.2)] := by
  rw [byName, List.map_cons, List.reverse_cons, byName]

theorem nodup_cons_of_lookup {bound : Bindings} (h : (bound.map Prod.fst).Nodup) {name : String}
    (hunset : List.lookup name bound = none) (value : Value) :
    (((name, value) :: bound).map Prod.fst).Nodup := by
  rw [List.map_cons, List.nodup_cons]
  refine ⟨fun hmem => ?_, h⟩
  obtain ⟨binding, hbinding, hname⟩ := List.mem_map.1 hmem
  have hne := List.lookup_eq_none_iff.1 hunset binding hbinding
  simp [hname] at hne

/-- Where all names are distinct, the keyword of a binding has not been bound before. -/
theorem lookup_eq_none_of_nodup {found bound : Bindings} {name : String} {value : Value}
    (h : ((found ++ (name, value) :: bound).map Prod.fst).Nodup) :
    List.lookup name bound = none := by
  rw [List.lookup_eq_none_iff]
  intro other hother
  rw [List.map_append, List.map_cons] at h
  have hnot := (List.nodup_cons.1 h.of_append_right).1
  exact bne_iff_ne.2 fun heq => hnot (List.mem_map.2 ⟨other, hother, heq.symm⟩)

/-- In front of further keywords, a comma is passed together with the blanks behind it. -/
theorem rest_pastComma {text t rest : List Char} {others : List (Keyword × Value)}
    (hcomma : CommaText text t) (hothers : KeywordsText m t ('\x7d' :: rest) others)
    (hc : c.rest = trim text) : (pastComma c).rest = trim t := by
  cases hcomma with
  | comma =>
    rw [trim_solid (by decide) (by decide)] at hc
    rw [pastComma, if_pos (by rw [hc]; rfl), Cursor.rest_advance_pastBlanks hc]
  | none =>
    -- no comma comes next, or it would be taken
    have hne := hothers.head_ne
    rw [← hc] at hne
    rw [pastComma, if_neg hne, hc]

/-- Up to the closing brace, the loop reads keywords none of which is bound already. -/
theorem bindings_sound {fuel : List Char} {bound result : Bindings}
    (h : takeTurns (keywordTurn m) (Scan.fail .endOfText) fuel bound c = .ok result c') :
    ∃ found rest, KeywordsText m c.rest ('\x7d' :: rest) found ∧ c'.rest = '\x7d' :: rest ∧
      result = byName found ++ bound ∧
      ((bound.map Prod.fst).Nodup → (result.map Prod.fst).Nodup) := by
  refine takeTurns_induction (motive := fun bound c result c' => ∃ found rest,
    KeywordsText m c.rest ('\x7d' :: rest) found ∧ c'.rest = '\x7d' :: rest ∧
      result = byName found ++ bound ∧
      ((bound.map Prod.fst).Nodup → (result.map Prod.fst).Nodup))
    (fun h => Scan.fail_ne_ok h) ?done ?again h
  case done =>
    intro bound c result c' hturn
    rcases keywordTurn_eq_ok_iff.1 hturn with ⟨hclose, hdone, rfl⟩ | ⟨_, _, _, _, _, _, _, _, _, h, _⟩
    · obtain ⟨rest, hrest⟩ := List.head?_eq_some_iff.1 hclose
      obtain rfl := Turn.done.inj hdone
      exact ⟨[], rest, .nil (hrest ▸ .none), hrest, rfl, id⟩
    · exact absurd h (by simp)
  case again =>
    intro bound c next u result c' hturn ih
    rcases keywordTurn_eq_ok_iff.1 hturn with
      ⟨_, hdone, _⟩ | ⟨_, _, _, keyword, value, v, v', hkeyword, hvalue, hagain, rfl⟩
    · exact absurd hdone (by simp)
    obtain rfl := Turn.again.inj hagain
    obtain ⟨hunset, t, htext, hv⟩ := keywordText_of_ok hkeyword hvalue
    obtain ⟨found, rest, hothers, hc', rfl, hnodup⟩ := ih
    refine ⟨(keyword, value) :: found, rest, ?_, hc', ?_, fun h =>
      hnodup (nodup_cons_of_lookup h hunset value)⟩
    · -- a comma behind the value belongs to the keyword
      by_cases hcomma : v'.pastBlanks.rest.head? = some ','
      · obtain ⟨t', ht'⟩ := List.head?_eq_some_iff.1 hcomma
        rw [pastComma, if_pos hcomma, Cursor.rest_advance_pastBlanks ht'] at hothers
        rw [Cursor.rest_pastBlanks_of hv] at ht'
        exact .cons .none htext (ht' ▸ blanks_trim t) .comma (hothers.blanks (blanks_trim t'))
      · rw [pastComma, if_neg hcomma, Cursor.rest_pastBlanks_of hv] at hothers
        exact .cons .none htext .none .none (hothers.blanks (blanks_trim t))
    · rw [byName_cons, List.append_assoc, List.singleton_append]

theorem bindings_complete {text rest : List Char} {found : List (Keyword × Value)}
    (h : KeywordsText m text ('\x7d' :: rest) found) {fuel : List Char} {bound : Bindings}
    (hnodup : ((byName found ++ bound).map Prod.fst).Nodup) (hc : c.rest = trim text)
    (hfuel : c.rest.length ≤ fuel.length) :
    ∃ c', takeTurns (keywordTurn m) (Scan.fail .endOfText) fuel bound c
      = .ok (byName found ++ bound) c' ∧ c'.rest = '\x7d' :: rest := by
  generalize hend : '\x7d' :: rest = last at h
  induction h generalizing fuel bound c with
  | nil hlast =>
    subst hend
    rw [hlast.trim_eq, trim_solid (by decide) (by decide)] at hc
    have hturn : keywordTurn m bound c = .ok (.done bound) c :=
      keywordTurn_eq_ok_iff.2 (.inl ⟨by rw [hc]; rfl, rfl, rfl⟩)
    exact ⟨c, takeTurns_of_done hturn, hc⟩
  | @cons text t₁ t₂ t₃ t₄ last binding others hnext hbinding hbehind hcomma hothers ih =>
    subst hend
    obtain ⟨keyword, value⟩ := binding
    have hlength₂ := keywordText_proper.length_lt hbinding
    have hlength₃ := hbehind.suffix.length_le
    have hlength₄ := hcomma.suffix.length_le
    have hlength₅ := length_trim_le t₄
    rw [hnext.trim_eq, keywordText_solid hbinding] at hc
    rw [hc] at hfuel
    rw [byName_cons, List.append_assoc, List.singleton_append] at hnodup ⊢
    have hunset := lookup_eq_none_of_nodup hnodup
    obtain ⟨u, v, hkeyword, hvalue, hv⟩ := ok_of_keywordText (hc ▸ hbinding) hunset
    obtain ⟨ch, t, ht, hch⟩ := hbinding.head
    have hturn : keywordTurn m bound c = .ok (.again ((keyword.name, value) :: bound))
        (pastComma v.pastBlanks) :=
      keywordTurn_eq_ok_iff.2 (.inr ⟨ch, by rw [hc, ht]; rfl, hch.ne (.inl rfl), keyword, value, u, v,
        hkeyword, hvalue, rfl, rfl⟩)
    have hv' : v.pastBlanks.rest = trim t₃ := by
      rw [Cursor.rest_pastBlanks_of hv, hbehind.trim_eq]
    have hstart : (pastComma v.pastBlanks).rest = trim t₄ := rest_pastComma hcomma hothers hv'
    have hfewer : (pastComma v.pastBlanks).rest.length ≤ fuel.tail.length := by
      rw [hstart, List.length_tail]
      omega
    obtain ⟨c', hread, hc'⟩ := ih hnodup hstart hfewer rfl
    exact ⟨c', takeTurns_of_again hturn (by omega) hread, hc'⟩

/-! ## 4. Defaults and the values of all keywords -/

theorem wholeLiteral_eq_ok_iff {kind : ValueKind} {value : Value} :
    wholeLiteral kind c = .ok value c' ↔ ∃ u, Literal.value kind c = .ok value u ∧
      c' = u.pastBlanks ∧ u.pastBlanks.rest = [] := by
  simp only [wholeLiteral, bind_eq_ok_iff, Scan.skipBlanks_eq_ok_iff, Scan.peek_eq_ok_iff,
    and_assoc, exists_and_left, exists_eq_left, exists_const]
  constructor
  · rintro ⟨found, u, hread, h⟩
    cases hrest : u.pastBlanks.rest with
    | nil =>
      rw [hrest, List.head?_nil, pure_eq_ok_iff] at h
      exact ⟨u, h.1 ▸ hread, h.2, hrest⟩
    | cons ch t =>
      rw [hrest, List.head?_cons] at h
      exact absurd h Scan.fail_ne_ok
  · rintro ⟨u, hread, rfl, hrest⟩
    refine ⟨value, u, hread, ?_⟩
    rw [hrest, List.head?_nil, pure_eq_ok_iff]
    exact ⟨rfl, rfl⟩

theorem blanks_nil_iff {text : List Char} : Blanks text [] ↔ trim text = [] := by
  constructor
  · intro h
    rw [h.trim_eq, trim_nil]
  · intro h
    exact h ▸ blanks_trim text

theorem defaultValue_eq_ok_iff {keyword : Keyword} {here : Position} {value : Value} :
    defaultValue m keyword here = .ok value ↔ DefaultText keyword value := by
  unfold defaultValue DefaultText
  cases keyword.default with
  | none => simp
  | some literal =>
    simp only [Option.some.injEq, exists_and_left, exists_eq_left']
    generalize s!"<default of {m.name}.{keyword.name}>" = file
    constructor
    · intro h
      split at h
      · rename_i found u heq
        obtain rfl := Except.ok.inj h
        obtain ⟨v, hread, -, hempty⟩ := wholeLiteral_eq_ok_iff.1 heq
        obtain ⟨rest, htext, hv⟩ := (Scan.value_reads keyword.kind).sound hread
        rw [Cursor.rest_start] at htext
        rw [Cursor.rest_pastBlanks_of hv] at hempty
        exact ⟨rest, htext, blanks_nil_iff.2 hempty⟩
      · exact absurd h (by simp)
    · rintro ⟨rest, htext, hblanks⟩
      rw [← Cursor.rest_start file] at htext
      obtain ⟨u, hread, hu⟩ := (Scan.value_reads keyword.kind).complete htext
      have hwhole : (wholeLiteral keyword.kind).run (.start file literal.toList)
          = .ok value u.pastBlanks := wholeLiteral_eq_ok_iff.2 ⟨u, hread, rfl, by
        rw [Cursor.rest_pastBlanks_of hu, blanks_nil_iff.1 hblanks]⟩
      rw [hwhole]

theorem mapM_eq_ok_iff {α β ε : Type} {f : α → Except ε β} {items : List α} {values : List β} :
    items.mapM f = .ok values ↔ List.Forall₂ (fun a b => f a = .ok b) items values := by
  induction items generalizing values with
  | nil => cases values <;> simp [pure, Except.pure]
  | cons a items ih =>
    rw [List.mapM_cons]
    cases ha : f a with
    | error e => cases values <;> simp [bind, Except.bind, ha]
    | ok b =>
      cases hitems : items.mapM f with
      | error e => cases values <;> simp [bind, Except.bind, ← ih, hitems, ha]
      | ok bs => cases values <;> simp [bind, Except.bind, pure, Except.pure, ← ih, hitems, ha]

theorem lookup_eq_some_iff_mem {bound : Bindings} (h : (bound.map Prod.fst).Nodup) {name : String}
    {value : Value} : List.lookup name bound = some value ↔ (name, value) ∈ bound := by
  induction bound with
  | nil => simp
  | cons binding bound ih =>
    obtain ⟨other, w⟩ := binding
    rw [List.map_cons, List.nodup_cons] at h
    rw [List.lookup_cons, List.mem_cons, Prod.mk.injEq]
    by_cases hname : name = other
    · subst hname
      have hnot : (name, value) ∉ bound := fun hmem => h.1 (List.mem_map.2 ⟨_, hmem, rfl⟩)
      simp [hnot, eq_comm]
    · rw [beq_eq_false_iff_ne.2 hname, ih h.2]
      simp [hname]

/-- The keywords that are bound, and their names, are distinct at the same time. -/
theorem nodup_byName_iff (hkeywords : (m.keywords.map (·.name)).Nodup)
    {found : List (Keyword × Value)} (hfound : ∀ binding ∈ found, binding.1 ∈ m.keywords) :
    ((byName found).map Prod.fst).Nodup ↔ (found.map Prod.fst).Nodup := by
  have hnames : (byName found).map Prod.fst = ((found.map Prod.fst).map (·.name)).reverse := by
    rw [byName, List.map_reverse, List.map_map, List.map_map]
    rfl
  rw [hnames, List.nodup_reverse]
  constructor
  · exact List.Nodup.of_map _
  · intro h
    refine h.map_on fun x hx y hy heq => ?_
    obtain ⟨b, hb, rfl⟩ := List.mem_map.1 hx
    obtain ⟨b', hb', rfl⟩ := List.mem_map.1 hy
    exact List.inj_on_of_nodup_map hkeywords (hfound b hb) (hfound b' hb') heq

theorem mem_byName_iff (hkeywords : (m.keywords.map (·.name)).Nodup)
    {found : List (Keyword × Value)} (hfound : ∀ binding ∈ found, binding.1 ∈ m.keywords)
    {keyword : Keyword} (hkeyword : keyword ∈ m.keywords) {value : Value} :
    (keyword.name, value) ∈ byName found ↔ (keyword, value) ∈ found := by
  rw [byName, List.mem_reverse, List.mem_map]
  constructor
  · rintro ⟨⟨other, w⟩, hmem, heq⟩
    rw [Prod.mk.injEq] at heq
    obtain rfl := List.inj_on_of_nodup_map hkeywords (hfound _ hmem) hkeyword heq.1
    exact heq.2 ▸ hmem
  · intro hmem
    exact ⟨_, hmem, rfl⟩

theorem forall₂_congr_of_mem {α β : Type} {r s : α → β → Prop} {items : List α}
    (h : ∀ a ∈ items, ∀ b, r a b ↔ s a b) {values : List β} :
    List.Forall₂ r items values ↔ List.Forall₂ s items values := by
  induction items generalizing values with
  | nil => rw [List.forall₂_nil_left_iff, List.forall₂_nil_left_iff]
  | cons a items ih =>
    rw [List.forall₂_cons_left_iff, List.forall₂_cons_left_iff]
    simp only [h a List.mem_cons_self, ih fun b hb => h b (List.mem_cons_of_mem _ hb)]

theorem complete_eq_ok_iff (hkeywords : (m.keywords.map (·.name)).Nodup)
    {found : List (Keyword × Value)} (hfound : ∀ binding ∈ found, binding.1 ∈ m.keywords)
    (hnodup : (found.map Prod.fst).Nodup) {here : Position} {values : List Value} :
    complete m (byName found) here = .ok values ↔ Completes m found values := by
  rw [complete, mapM_eq_ok_iff, Completes]
  -- keyword by keyword: looking a name up among the bindings finds the value of the keyword
  refine forall₂_congr_of_mem fun keyword hkeyword value => ?_
  have hlookup : ∀ v, List.lookup keyword.name (byName found) = some v ↔ (keyword, v) ∈ found :=
    fun v => by
      rw [lookup_eq_some_iff_mem ((nodup_byName_iff hkeywords hfound).2 hnodup),
        mem_byName_iff hkeywords hfound hkeyword]
  cases hbound : List.lookup keyword.name (byName found) with
  | some v =>
    have hmem := (hlookup v).1 hbound
    constructor
    · intro h
      exact .inl (Except.ok.inj h ▸ hmem)
    · rintro (h | ⟨hnot, -⟩)
      · rw [(hlookup value).2 h, Option.some.injEq] at hbound
        rw [hbound]
      · exact absurd hmem (hnot v)
  | none =>
    have hnot : ∀ v, (keyword, v) ∉ found := fun v hmem => by
      rw [(hlookup v).2 hmem] at hbound
      exact absurd hbound (by simp)
    rw [← defaultValue_eq_ok_iff]
    constructor
    · exact fun h => .inr ⟨hnot, h⟩
    · rintro (h | ⟨-, h⟩)
      · exact absurd h (hnot value)
      · exact h

theorem bindKeywords_unbraced_iff (hkeywords : (m.keywords.map (·.name)).Nodup) {here : Position}
    {values : List Value} :
    bindKeywords m false here c = .ok values c' ↔ Completes m [] values ∧ c' = c := by
  simp only [bindKeywords, Bool.false_eq_true, if_false, bind_eq_ok_iff, pure_eq_ok_iff,
    ofExcept_eq_ok_iff, and_assoc, exists_and_left, exists_eq_left]
  rw [← complete_eq_ok_iff hkeywords (List.forall_mem_nil _) List.nodup_nil]
  rfl

/-- What is bound up to a closing brace is bound by the names of keywords that are distinct. -/
theorem text_of_bindings (hkeywords : (m.keywords.map (·.name)).Nodup) {bound : Bindings}
    (h : bindings m c = .ok bound c') :
    ∃ found rest, KeywordsText m c.rest ('\x7d' :: rest) found ∧ (found.map Prod.fst).Nodup ∧
      bound = byName found ∧ c'.rest = '\x7d' :: rest := by
  simp only [bindings_eq, Scan.repeat, bind_eq_ok_iff, get_eq_ok_iff, Scan.skipBlanks_eq_ok_iff,
    and_assoc, exists_and_left, exists_eq_left, exists_const] at h
  obtain ⟨found, rest, htext, hrest, rfl, hnodup⟩ := bindings_sound h
  rw [List.append_nil] at hnodup
  rw [Cursor.rest_pastBlanks] at htext
  exact ⟨found, rest, htext.blanks (blanks_trim c.rest),
    (nodup_byName_iff hkeywords htext.forall_mem).1 (hnodup List.nodup_nil),
    List.append_nil _, hrest⟩

theorem bindKeywords_sound (hkeywords : (m.keywords.map (·.name)).Nodup) {here : Position}
    {values : List Value} (h : bindKeywords m true here c = .ok values c') :
    ∃ found rest, KeywordsText m c.rest ('\x7d' :: rest) found ∧ (found.map Prod.fst).Nodup ∧
      Completes m found values ∧ c'.rest = '\x7d' :: rest := by
  simp only [bindKeywords, if_true, bind_eq_ok_iff, ofExcept_eq_ok_iff] at h
  obtain ⟨_, _, hread, hcomplete, rfl⟩ := h
  obtain ⟨found, rest, htext, hnodup, rfl, hrest⟩ := text_of_bindings hkeywords hread
  exact ⟨found, rest, htext, hnodup,
    (complete_eq_ok_iff hkeywords htext.forall_mem hnodup).1 hcomplete, hrest⟩

/-- Keywords up to a closing brace are bound by their names, if these are distinct. -/
theorem bindings_of_text {text rest : List Char} {found : List (Keyword × Value)}
    (htext : KeywordsText m text ('\x7d' :: rest) found)
    (hnodup : ((byName found).map Prod.fst).Nodup) (hc : trim c.rest = trim text) :
    ∃ c', bindings m c = .ok (byName found) c' ∧ c'.rest = '\x7d' :: rest := by
  rw [← List.append_nil (byName found)] at hnodup ⊢
  have hstart : c.pastBlanks.rest = trim text := by rw [Cursor.rest_pastBlanks, hc]
  obtain ⟨c', hread, hc'⟩ := bindings_complete htext hnodup hstart (Nat.le_refl _)
  refine ⟨c', ?_, hc'⟩
  simp only [bindings_eq, Scan.repeat, bind_eq_ok_iff, get_eq_ok_iff, Scan.skipBlanks_eq_ok_iff,
    and_assoc, exists_and_left, exists_eq_left, exists_const]
  exact hread

theorem bindKeywords_complete (hkeywords : (m.keywords.map (·.name)).Nodup) {here : Position}
    {values : List Value} {text rest : List Char} {found : List (Keyword × Value)}
    (htext : KeywordsText m text ('\x7d' :: rest) found) (hnodup : (found.map Prod.fst).Nodup)
    (hcomplete : Completes m found values) (hc : trim c.rest = trim text) :
    ∃ c', bindKeywords m true here c = .ok values c' ∧ c'.rest = '\x7d' :: rest := by
  have hfound := htext.forall_mem
  obtain ⟨c', hread, hc'⟩ := bindings_of_text htext
    ((nodup_byName_iff hkeywords hfound).2 hnodup) hc
  refine ⟨c', ?_, hc'⟩
  rw [bindKeywords, if_pos rfl, bind_of_ok hread, ofExcept_eq_ok_iff]
  exact ⟨(complete_eq_ok_iff hkeywords hfound hnodup).2 hcomplete, rfl⟩

end Reading

end ControlScript
