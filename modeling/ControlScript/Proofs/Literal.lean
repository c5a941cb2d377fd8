import ControlScript.Proofs.Numeral

/-!
# Scans of literals

Literals are read exactly as the grammar describes them.  A list is read item by item; the scan of
its items takes text with every item, so the text is long enough to count them.
-/

namespace ControlScript

open Grammar

/-! ## 1. Literals as phrases -/

namespace Grammar

variable {α : Type} {item : Phrase α}

theorem integerText_solid : Phrase.Solid IntegerText := by
  rintro text rest n ⟨numeral, h, -⟩
  exact wholeText_solid h

theorem integerText_proper : Phrase.Proper IntegerText := by
  rintro text rest n ⟨numeral, h, -⟩
  exact wholeText_proper h

theorem floatText_solid : Phrase.Solid FloatText := by
  rintro text rest x ⟨numeral, h, -⟩
  exact decimalText_solid h

theorem floatText_proper : Phrase.Proper FloatText := by
  rintro text rest x ⟨numeral, h, -⟩
  exact decimalText_proper h

/-- What may stand at the beginning of a literal. -/
def BeginsLiteral (c : Char) : Prop := BeginsNumber c ∨ c = '"' ∨ c = '['

theorem BeginsLiteral.ne {c d : Char} (h : BeginsLiteral c) (hd : d = ']' ∨ d = '\x7d' ∨ d = ',') :
    c ≠ d := by
  rintro rfl
  revert h
  rcases hd with rfl | rfl | rfl <;> (unfold BeginsLiteral BeginsNumber; decide)

theorem StringText.head {text rest : List Char} {s : String} (h : StringText text rest s) :
    ∃ c t, text = c :: t ∧ BeginsLiteral c := ⟨_, _, h.spelled, .inr (.inl rfl)⟩

theorem IntegerText.head {text rest : List Char} {n : Int64} (h : IntegerText text rest n) :
    ∃ c t, text = c :: t ∧ BeginsLiteral c := by
  obtain ⟨numeral, h, -⟩ := h
  obtain ⟨c, t, ht, hc⟩ := h.wellFormed.head
  exact ⟨c, t ++ rest, by rw [h.spelled, ht, List.cons_append], .inl hc⟩

theorem FloatText.head {text rest : List Char} {x : Binary64} (h : FloatText text rest x) :
    ∃ c t, text = c :: t ∧ BeginsLiteral c := by
  obtain ⟨numeral, h, -⟩ := h
  obtain ⟨c, t, ht, hc⟩ := h.wellFormed.head
  exact ⟨c, t ++ rest, by rw [h.spelled, ht, List.cons_append], .inl hc⟩

theorem ListText.head {text rest : List Char} {items : List α} (h : ListText item text rest items) :
    ∃ c t, text = c :: t ∧ BeginsLiteral c := by
  cases h with
  | empty _ => exact ⟨_, _, rfl, .inr (.inr rfl)⟩
  | items _ _ _ => exact ⟨_, _, rfl, .inr (.inr rfl)⟩

theorem LiteralText.head {kind : ValueKind} {text rest : List Char} {value : Value}
    (h : LiteralText kind text rest value) : ∃ c t, text = c :: t ∧ BeginsLiteral c := by
  cases h with
  | string h => exact h.head
  | integer h => exact h.head
  | float h => exact h.head
  | stringList h => exact h.head
  | integerList h => exact h.head
  | floatList h => exact h.head

theorem ItemsText.blanks {close : Char} {text t rest : List Char} {others : List α}
    (hblanks : Blanks text t) (h : ItemsText close item t rest others) :
    ItemsText close item text rest others := by
  cases h with
  | last hlast => exact .last (hblanks.trans hlast)
  | more hcomma hnext hitem hothers => exact .more (hblanks.trans hcomma) hnext hitem hothers

theorem ListText.blanks {text t rest : List Char} {items : List α} (hblanks : Blanks text t)
    (h : ListText item ('[' :: t) rest items) : ListText item ('[' :: text) rest items := by
  cases h with
  | empty hclose => exact .empty (hblanks.trans hclose)
  | items hnext hfirst hothers => exact .items (hblanks.trans hnext) hfirst hothers

theorem ItemsText.suffix {close : Char} (hitem : item.Proper) {text rest : List Char}
    {others : List α} (h : ItemsText close item text rest others) :
    ∃ taken, text = taken ++ close :: rest := by
  induction h with
  | last hlast => exact ⟨_, hlast.suffix.choose_spec.symm⟩
  | more hcomma hnext hfirst _ ih =>
    obtain ⟨taken, rfl⟩ := ih
    obtain ⟨s, rfl⟩ := (hitem.suffix hfirst).trans (hnext.suffix.trans
      ((List.suffix_cons _ _).trans hcomma.suffix))
    exact ⟨s ++ taken, by rw [List.append_assoc]⟩

theorem listText_solid : Phrase.Solid (ListText item) := by
  intro text rest items h
  cases h with
  | empty _ => exact trim_solid (by decide) (by decide) _
  | items _ _ _ => exact trim_solid (by decide) (by decide) _

theorem listText_proper (hitem : item.Proper) : Phrase.Proper (ListText item) := by
  intro text rest items h
  cases h with
  | empty hclose =>
    obtain ⟨taken, rfl⟩ := hclose.suffix
    exact ⟨'[', taken ++ [']'], by rw [List.append_assoc, List.singleton_append]⟩
  | items hnext hfirst hothers =>
    obtain ⟨taken, rfl⟩ := hothers.suffix hitem
    obtain ⟨s, rfl⟩ := (hitem.suffix hfirst).trans hnext.suffix
    exact ⟨'[', s ++ taken ++ [']'], by simp only [List.append_assoc, List.singleton_append]⟩

theorem literalText_solid (kind : ValueKind) : Phrase.Solid (LiteralText kind) := by
  intro text rest value h
  cases h with
  | string h => exact stringText_solid h
  | integer h => exact integerText_solid h
  | float h => exact floatText_solid h
  | stringList h => exact listText_solid h
  | integerList h => exact listText_solid h
  | floatList h => exact listText_solid h

theorem literalText_proper (kind : ValueKind) : Phrase.Proper (LiteralText kind) := by
  intro text rest value h
  cases h with
  | string h => exact stringText_proper h
  | integer h => exact integerText_proper h
  | float h => exact floatText_proper h
  | stringList h => exact listText_proper stringText_proper h
  | integerList h => exact listText_proper integerText_proper h
  | floatList h => exact listText_proper floatText_proper h

end Grammar

namespace Scan

/-! ## 2. Numbers of a type -/

/-- A scan that converts what another one reads, when the phrases convert in the same way. -/
theorem Reads.convert {α β : Type} {x : Scan β} {y : Scan α} {p : Phrase β} {q : Phrase α}
    {r : β → α → Prop} (hx : Reads x p)
    (hy : ∀ {c a c'}, y c = .ok a c' ↔ ∃ b, x c = .ok b c' ∧ r b a)
    (hq : ∀ {text rest a}, q text rest a ↔ ∃ b, p text rest b ∧ r b a) : Reads y q where
  sound := by
    intro c a c' h
    obtain ⟨b, hread, hvalue⟩ := hy.1 h
    obtain ⟨rest, htext, hrest⟩ := hx.sound hread
    exact ⟨rest, hq.2 ⟨b, htext, hvalue⟩, hrest⟩
  complete := by
    intro c rest a h
    obtain ⟨b, htext, hvalue⟩ := hq.1 h
    obtain ⟨c', hread, hrest⟩ := hx.complete htext
    exact ⟨c', hy.2 ⟨b, hread, hvalue⟩, hrest⟩

theorem integer_eq_ok_iff {c c' : Cursor} {n : Int64} : Literal.integer c = .ok n c' ↔
    ∃ numeral, Literal.wholeNumeral c = .ok numeral c' ∧ numeral.value? = some n := by
  simp only [Literal.integer, bind_eq_ok_iff, position_eq_ok_iff, and_assoc, exists_and_left,
    exists_eq_left]
  constructor
  · rintro ⟨numeral, u, hread, h⟩
    cases hvalue : numeral.value? with
    | none => simp [hvalue] at h
    | some found =>
      rw [hvalue, pure_eq_ok_iff] at h
      exact ⟨numeral, h.2 ▸ hread, h.1 ▸ hvalue⟩
  · rintro ⟨numeral, hread, hvalue⟩
    exact ⟨numeral, c', hread, by rw [hvalue, pure_eq_ok_iff]; exact ⟨rfl, rfl⟩⟩

theorem float_eq_ok_iff {c c' : Cursor} {x : Binary64} : Literal.float c = .ok x c' ↔
    ∃ numeral, Literal.decimalNumeral c = .ok numeral c' ∧ numeral.value? = some x := by
  simp only [Literal.float, bind_eq_ok_iff, position_eq_ok_iff, and_assoc, exists_and_left,
    exists_eq_left]
  constructor
  · rintro ⟨numeral, u, hread, h⟩
    cases hvalue : numeral.value? with
    | none => simp [hvalue] at h
    | some found =>
      rw [hvalue, pure_eq_ok_iff] at h
      exact ⟨numeral, h.2 ▸ hread, h.1 ▸ hvalue⟩
  · rintro ⟨numeral, hread, hvalue⟩
    exact ⟨numeral, c', hread, by rw [hvalue, pure_eq_ok_iff]; exact ⟨rfl, rfl⟩⟩

theorem integer_reads : Reads Literal.integer IntegerText :=
  wholeNumeral_reads.convert integer_eq_ok_iff Iff.rfl

theorem float_reads : Reads Literal.float FloatText :=
  decimalNumeral_reads.convert float_eq_ok_iff Iff.rfl

/-! ## 3. Lists -/

section Lists

variable {α : Type} {item : Scan α} {phrase : Phrase α}

/-- One turn of reading the items of a list, in front of which stand those of `found`. -/
def itemTurn (item : Scan α) (found : List α) : Scan (Turn (List α) (List α)) := do
  if (← current) = ']' then
    return .done found.reverse
  if !found.isEmpty then
    expect ','
    skipBlanks
  let next ← item
  skipBlanks
  return .again (next :: found)

theorem list_eq (item : Scan α) : Literal.list item = (do
    expect '['
    skipBlanks
    let items ← Scan.repeat (itemTurn item) []
    advance
    return items) := rfl

theorem itemTurn_eq_ok_iff {found : List α} {turn : Turn (List α) (List α)} {c c' : Cursor} :
    itemTurn item found c = .ok turn c' ↔
      c.rest.head? = some ']' ∧ turn = .done found.reverse ∧ c' = c ∨
        ∃ ch, c.rest.head? = some ch ∧ ch ≠ ']' ∧ (found ≠ [] → ch = ',') ∧
          ∃ a u, item (if found = [] then c else c.advance.pastBlanks) = .ok a u ∧
            turn = .again (a :: found) ∧ c' = u.pastBlanks := by
  simp only [itemTurn, bind_eq_ok_iff, current_eq_ok_iff, and_assoc, exists_and_left]
  -- only in front of the first item there is no comma
  constructor
  · rintro ⟨ch, hch, _, rfl, h⟩
    by_cases hclose : ch = ']'
    · rw [if_pos hclose, pure_eq_ok_iff] at h
      exact .inl ⟨hclose ▸ hch, h⟩
    rw [if_neg hclose] at h
    refine .inr ⟨ch, hch, hclose, ?_⟩
    cases found with
    | nil =>
      simp only [List.isEmpty_nil, Bool.not_true, Bool.false_eq_true, if_false, bind_eq_ok_iff,
        skipBlanks_eq_ok_iff, pure_eq_ok_iff] at h
      obtain ⟨a, u, hread, _, _, rfl, rfl, rfl⟩ := h
      exact ⟨by simp, a, u, hread, rfl, rfl⟩
    | cons b found =>
      simp only [List.isEmpty_cons, Bool.not_false, if_true, bind_eq_ok_iff, expect_eq_ok_iff,
        skipBlanks_eq_ok_iff, pure_eq_ok_iff] at h
      obtain ⟨_, _, ⟨hcomma, rfl⟩, _, _, rfl, a, u, hread, _, _, rfl, rfl, rfl⟩ := h
      rw [hch, Option.some.injEq] at hcomma
      exact ⟨fun _ => hcomma, a, u, hread, rfl, rfl⟩
  · rintro (⟨hch, rfl, rfl⟩ | ⟨ch, hch, hclose, hcomma, a, u, hread, rfl, rfl⟩)
    · exact ⟨']', hch, c', rfl, by rw [if_pos rfl, pure_eq_ok_iff]; exact ⟨rfl, rfl⟩⟩
    refine ⟨ch, hch, c, rfl, ?_⟩
    rw [if_neg hclose]
    cases found with
    | nil =>
      simp only [List.isEmpty_nil, Bool.not_true, Bool.false_eq_true, if_false, bind_eq_ok_iff,
        skipBlanks_eq_ok_iff, pure_eq_ok_iff]
      exact ⟨a, u, hread, ⟨⟩, _, rfl, rfl, rfl⟩
    | cons b found =>
      obtain rfl := hcomma (by simp)
      simp only [List.isEmpty_cons, Bool.not_false, if_true, bind_eq_ok_iff, expect_eq_ok_iff,
        skipBlanks_eq_ok_iff, pure_eq_ok_iff]
      exact ⟨⟨⟩, _, ⟨hch, rfl⟩, ⟨⟩, _, rfl, a, u, hread, ⟨⟩, _, rfl, rfl, rfl⟩

/-- What is read behind the opening bracket or behind an item: the other items and the closing
    bracket. -/
theorem items_sound (hitem : Reads item phrase) {fuel : List Char} {found items : List α}
    {c c' : Cursor} (h : takeTurns (itemTurn item) (fail .endOfText) fuel found c = .ok items c') :
    ∃ others rest, items = found.reverse ++ others ∧ c'.rest = ']' :: rest ∧
      (found = [] → ListText phrase ('[' :: c.rest) rest others) ∧
      (found ≠ [] → ItemsText ']' phrase c.rest rest others) := by
  -- in front of the first item the whole list is still to come, later the items behind a comma
  refine takeTurns_induction (motive := fun found c items c' => ∃ others rest,
    items = found.reverse ++ others ∧ c'.rest = ']' :: rest ∧
      (found = [] → ListText phrase ('[' :: c.rest) rest others) ∧
      (found ≠ [] → ItemsText ']' phrase c.rest rest others)) (fun h => fail_ne_ok h) ?done ?again h
  case done =>
    intro found c items c' hturn
    rcases itemTurn_eq_ok_iff.1 hturn with ⟨hclose, hdone, rfl⟩ | ⟨_, _, _, _, _, _, _, hagain, _⟩
    · obtain ⟨rest, hrest⟩ := List.head?_eq_some_iff.1 hclose
      obtain rfl := Turn.done.inj hdone
      refine ⟨[], rest, (List.append_nil _).symm, hrest, fun _ => ?_, fun _ => ?_⟩
      · exact hrest ▸ .empty .none
      · exact hrest ▸ .last .none
    · exact absurd hagain (by simp)
  case again =>
    intro found c next u items c' hturn ih
    rcases itemTurn_eq_ok_iff.1 hturn with ⟨_, hdone, _⟩ |
      ⟨ch, hch, _, hcomma, a, v, hread, hagain, rfl⟩
    · exact absurd hdone (by simp)
    obtain rfl := Turn.again.inj hagain
    obtain ⟨others, rest, rfl, hc', -, hothers⟩ := ih
    obtain ⟨t, htext, hv⟩ := hitem.sound hread
    have hnext := hothers (List.cons_ne_nil _ _)
    rw [Cursor.rest_pastBlanks_of hv] at hnext
    have hnext := hnext.blanks (blanks_trim t)
    refine ⟨a :: others, rest, by simp, hc', fun hnil => ?_, fun hne => ?_⟩
    · rw [if_pos hnil] at htext
      exact .items .none htext hnext
    · obtain rfl := hcomma hne
      obtain ⟨t', ht'⟩ := List.head?_eq_some_iff.1 hch
      rw [if_neg hne, Cursor.rest_advance_pastBlanks ht'] at htext
      rw [ht']
      exact .more .none (blanks_trim t') htext hnext

theorem items_complete (hitem : Reads item phrase) (hsolid : phrase.Solid) (hproper : phrase.Proper)
    {text rest : List Char} {others : List α} (h : ItemsText ']' phrase text rest others)
    {fuel : List Char} {found : List α} {c : Cursor} (hne : found ≠ []) (hc : c.rest = trim text)
    (hfuel : text.length ≤ fuel.length) :
    ∃ c', takeTurns (itemTurn item) (fail .endOfText) fuel found c
      = .ok (found.reverse ++ others) c' ∧ c'.rest = ']' :: rest := by
  -- every item takes text, so the text of the list is fuel enough
  induction h generalizing fuel found c with
  | @last text rest hclose =>
    rw [hclose.trim_eq, trim_solid (by decide) (by decide)] at hc
    have hturn : itemTurn item found c = .ok (.done found.reverse) c :=
      itemTurn_eq_ok_iff.2 (.inl ⟨by rw [hc]; rfl, rfl, rfl⟩)
    exact ⟨c, by rw [List.append_nil]; exact takeTurns_of_done hturn, hc⟩
  | @more text t₁ t₂ t₃ rest a others hcomma hnext hfirst _ ih =>
    have hlength₁ := hcomma.suffix.length_le
    have hlength₂ := hnext.suffix.length_le
    have hlength₃ := hproper.length_lt hfirst
    rw [List.length_cons] at hlength₁
    rw [hcomma.trim_eq, trim_solid (by decide) (by decide)] at hc
    have hstart : c.advance.pastBlanks.rest = t₂ := by
      rw [Cursor.rest_advance_pastBlanks hc,
        hnext.trim_eq, hsolid hfirst]
    obtain ⟨u, hread, hu⟩ := hitem.complete (hstart ▸ hfirst)
    have hturn : itemTurn item found c = .ok (.again (a :: found)) u.pastBlanks :=
      itemTurn_eq_ok_iff.2 (.inr ⟨',', by rw [hc]; rfl, by decide, fun _ => rfl, a, u,
        by rwa [if_neg hne], rfl, rfl⟩)
    have hfewer : t₃.length ≤ fuel.tail.length := by rw [List.length_tail]; omega
    obtain ⟨c', hothers, hc'⟩ := ih (List.cons_ne_nil a found)
      (Cursor.rest_pastBlanks_of hu) hfewer
    refine ⟨c', takeTurns_of_again hturn (by omega) ?_, hc'⟩
    rw [hothers, List.reverse_cons, List.append_assoc, List.singleton_append]

/-- The turns of a list read what stands between its brackets. -/
theorem list_eq_ok_iff {items : List α} {c c' : Cursor} : Literal.list item c = .ok items c' ↔
    c.rest.head? = some '[' ∧ ∃ v, takeTurns (itemTurn item) (fail .endOfText)
      c.advance.pastBlanks.rest [] c.advance.pastBlanks = .ok items v ∧ c' = v.advance := by
  rw [list_eq]
  simp only [Scan.repeat, bind_eq_ok_iff, expect_eq_ok_iff, skipBlanks_eq_ok_iff, get_eq_ok_iff,
    advance_eq_ok_iff, pure_eq_ok_iff, and_assoc, exists_and_left, exists_eq_left, exists_const]
  refine and_congr_right fun _ => ⟨?_, ?_⟩
  · rintro ⟨_, v, hread, rfl, rfl⟩
    exact ⟨v, hread, rfl⟩
  · rintro ⟨v, hread, rfl⟩
    exact ⟨items, v, hread, rfl, rfl⟩

theorem list_reads (hitem : Reads item phrase) (hsolid : phrase.Solid) (hproper : phrase.Proper)
    (hhead : ∀ {text rest a}, phrase text rest a → ∃ c t, text = c :: t ∧ BeginsLiteral c) :
    Reads (Literal.list item) (ListText phrase) where
  sound := by
    intro c items c' h
    obtain ⟨hopen, v, hread, rfl⟩ := list_eq_ok_iff.1 h
    obtain ⟨t, ht⟩ := List.head?_eq_some_iff.1 hopen
    obtain ⟨others, rest, rfl, hv, hlist, -⟩ := items_sound hitem hread
    have hlist := hlist rfl
    rw [Cursor.rest_advance_pastBlanks ht] at hlist
    refine ⟨rest, ?_, Cursor.rest_advance_of hv⟩
    rw [ht]
    exact hlist.blanks (blanks_trim t)
  complete := by
    intro c rest items h
    -- the brackets aside, the turns have to read the items
    suffices hitems : c.rest.head? = some '[' ∧ ∃ v, takeTurns (itemTurn item) (fail .endOfText)
        c.advance.pastBlanks.rest [] c.advance.pastBlanks = .ok items v ∧ v.rest = ']' :: rest by
      obtain ⟨hopen, v, hread, hv⟩ := hitems
      exact ⟨v.advance, list_eq_ok_iff.2 ⟨hopen, v, hread, rfl⟩, Cursor.rest_advance_of hv⟩
    have hstart : c.advance.pastBlanks.rest = trim c.rest.tail := by
      rw [Cursor.rest_pastBlanks, Cursor.rest_advance, trim_dropFeeds]
    generalize c.advance.pastBlanks = u at hstart ⊢
    generalize c.rest = text at h hstart ⊢
    refine ⟨by cases h <;> rfl, ?_⟩
    cases h with
    | empty hclose =>
      rw [List.tail_cons, hclose.trim_eq, trim_solid (by decide) (by decide)] at hstart
      have hturn : itemTurn item [] u = .ok (.done []) u :=
        itemTurn_eq_ok_iff.2 (.inl ⟨by rw [hstart]; rfl, rfl, rfl⟩)
      exact ⟨u, takeTurns_of_done hturn, hstart⟩
    | @items text t₁ t₂ rest a others hnext hfirst hothers =>
      rw [List.tail_cons, hnext.trim_eq, hsolid hfirst] at hstart
      have hlength := hproper.length_lt hfirst
      obtain ⟨v, hread, hv⟩ := hitem.complete (hstart ▸ hfirst)
      have hch : ∃ ch, u.rest.head? = some ch ∧ ch ≠ ']' := by
        obtain ⟨ch, t, ht, hch⟩ := hhead hfirst
        exact ⟨ch, by rw [hstart, ht]; rfl, hch.ne (.inl rfl)⟩
      obtain ⟨ch, hch, hne⟩ := hch
      have hturn : itemTurn item [] u = .ok (.again [a]) v.pastBlanks :=
        itemTurn_eq_ok_iff.2 (.inr ⟨ch, hch, hne, by simp, a, v, by rwa [if_pos rfl], rfl, rfl⟩)
      have hfewer : t₂.length ≤ u.rest.tail.length := by rw [List.length_tail, hstart]; omega
      obtain ⟨c', hrest, hc'⟩ := items_complete hitem hsolid hproper hothers (List.cons_ne_nil a [])
        (Cursor.rest_pastBlanks_of hv) hfewer
      exact ⟨c', takeTurns_of_again hturn (by rw [hstart]; omega) hrest, hc'⟩

end Lists

/-! ## 4. Values -/

theorem stringList_reads : Reads (Literal.list Literal.string) (ListText StringText) :=
  list_reads string_reads stringText_solid stringText_proper StringText.head

theorem integerList_reads : Reads (Literal.list Literal.integer) (ListText IntegerText) :=
  list_reads integer_reads integerText_solid integerText_proper IntegerText.head

theorem floatList_reads : Reads (Literal.list Literal.float) (ListText FloatText) :=
  list_reads float_reads floatText_solid floatText_proper FloatText.head

/-- Literals of every kind are read as the grammar describes them. -/
theorem value_reads (kind : ValueKind) : Reads (Literal.value kind) (LiteralText kind) := by
  cases kind with
  | string =>
    refine string_reads.convert map_eq_ok_iff ⟨fun h => ?_, fun ⟨_, h, heq⟩ => heq ▸ .string h⟩
    cases h with
    | string h => exact ⟨_, h, rfl⟩
  | integer =>
    refine integer_reads.convert map_eq_ok_iff ⟨fun h => ?_, fun ⟨_, h, heq⟩ => heq ▸ .integer h⟩
    cases h with
    | integer h => exact ⟨_, h, rfl⟩
  | float =>
    refine float_reads.convert map_eq_ok_iff ⟨fun h => ?_, fun ⟨_, h, heq⟩ => heq ▸ .float h⟩
    cases h with
    | float h => exact ⟨_, h, rfl⟩
  | stringList =>
    refine stringList_reads.convert map_eq_ok_iff
      ⟨fun h => ?_, fun ⟨_, h, heq⟩ => heq ▸ .stringList h⟩
    cases h with
    | stringList h => exact ⟨_, h, rfl⟩
  | integerList =>
    refine integerList_reads.convert map_eq_ok_iff
      ⟨fun h => ?_, fun ⟨_, h, heq⟩ => heq ▸ .integerList h⟩
    cases h with
    | integerList h => exact ⟨_, h, rfl⟩
  | floatList =>
    refine floatList_reads.convert map_eq_ok_iff
      ⟨fun h => ?_, fun ⟨_, h, heq⟩ => heq ▸ .floatList h⟩
    cases h with
    | floatList h => exact ⟨_, h, rfl⟩

end Scan

end ControlScript
