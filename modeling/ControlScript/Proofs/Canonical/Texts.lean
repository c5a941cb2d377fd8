import ControlScript.Proofs.Canonical.Entry

/-!
# Texts of canonical lines

A line is written for a call, for a binding or for a closing brace.  Whatever was read has a name in
front and no line feed anywhere: names are runs of characters of names, and a string literal stands
on one line.  An opening brace is at the end of a line only where a block is opened.
-/

namespace ControlScript

open Grammar

namespace Canonical

/-! ## 1. Texts on one line -/

/-- A text on one line that begins with a name. -/
structure OnLine (text : String) : Prop where
  unbroken : '\n' ∉ text.toList
  named : ∃ c ∈ text.toList.head?, Scan.isNameChar c = true

theorem not_mem_append {c : Char} {front behind : String} (hfront : c ∉ front.toList)
    (hbehind : c ∉ behind.toList) : c ∉ (front ++ behind).toList := by
  rw [String.toList_append, List.mem_append]
  exact not_or.2 ⟨hfront, hbehind⟩

/-- What is in no item and not in the separator is not in the items with separators between them. -/
theorem not_mem_intercalate {c : Char} {separator : String} {items : List String}
    (hseparator : c ∉ separator.toList) (hitems : ∀ s ∈ items, c ∉ s.toList) :
    c ∉ (separator.intercalate items).toList := by
  induction items with
  | nil =>
    rw [String.intercalate_nil]
    exact List.not_mem_nil
  | cons s others ih =>
    obtain ⟨hs, hothers⟩ := List.forall_mem_cons.1 hitems
    cases others with
    | nil => rwa [String.intercalate_singleton]
    | cons t others =>
      rw [String.intercalate_cons_cons]
      exact not_mem_append (not_mem_append hs hseparator) (ih hothers)

section OnLine

variable {text : String}

theorem OnLine.append (h : OnLine text) {more : String} (hmore : '\n' ∉ more.toList) :
    OnLine (text ++ more) := by
  obtain ⟨c, hc, hname⟩ := h.named
  refine ⟨not_mem_append h.unbroken hmore, c, ?_, hname⟩
  rw [String.toList_append, Option.mem_def, List.head?_append, Option.mem_def.1 hc]
  rfl

/-- A name in front is no blank and no brace. -/
theorem OnLine.head?_ne (h : OnLine text) {d : Char} (hd : Scan.isNameChar d = false) :
    text.toList.head? ≠ some d := by
  obtain ⟨c, hc, hname⟩ := h.named
  intro heq
  obtain rfl := Option.some.inj (heq.symm.trans hc)
  rw [hd] at hname
  cases hname

theorem OnLine.ne_empty (h : OnLine text) : text ≠ "" := by
  obtain ⟨c, hc, -⟩ := h.named
  rintro rfl
  cases hc

/-- A name has only characters of names in it. -/
theorem not_mem_name (hname : ∀ c ∈ text.toList, Scan.isNameChar c = true) {d : Char}
    (hd : Scan.isNameChar d = false) : d ∉ text.toList := by
  intro hmem
  rw [hname d hmem] at hd
  cases hd

theorem onLine_of_name (hne : text ≠ "") (hname : ∀ c ∈ text.toList, Scan.isNameChar c = true) :
    OnLine text := by
  obtain ⟨c, chars, hchars⟩ := List.exists_cons_of_ne_nil
    (show text.toList ≠ [] by simpa using hne)
  refine ⟨not_mem_name hname (by decide), c, by rw [hchars]; rfl, hname c ?_⟩
  rw [hchars]
  exact List.mem_cons_self

end OnLine

/-- The end of a text is the end of what is put behind it. -/
theorem getLast?_append_ne {front behind : String} {c d : Char}
    (hbehind : behind.toList.getLast? = some c) (hne : c ≠ d) :
    (front ++ behind).toList.getLast? ≠ some d := by
  rw [String.toList_append, List.getLast?_append, hbehind, Option.some_or]
  exact fun heq => hne (Option.some.inj heq)

/-! ## 2. Calls -/

section Calls

variable {w : Workspace} {base : MethodId} {text rest : List Char} {call : Call}

theorem nameChars_of_arguments {ids : List VariableId} (h : ArgumentsText w base text rest ids) :
    ∀ id ∈ ids, ∀ c ∈ (w.vars.get id).name.toList, Scan.isNameChar c = true := by
  have hvariable : ∀ {text rest id}, VariableText w.vars text rest id →
      ∀ c ∈ (w.vars.get id).name.toList, Scan.isNameChar c = true := by
    rintro text rest id ⟨name, hname, hfind⟩
    rw [VariableRegistry.name_of_find? hfind]
    exact hname.run.all
  cases h with
  | none _ => exact List.forall_mem_nil _
  | empty _ _ => exact List.forall_mem_nil _
  | bound _ _ hfirst hothers =>
    rw [List.forall_mem_cons]
    exact ⟨hvariable hfirst, hothers.forall_mem
      (p := fun id => ∀ c ∈ (w.vars.get id).name.toList, Scan.isNameChar c = true) hvariable⟩

/-- A call is written on one line, without braces. -/
theorem onLine_head (h : CallText w base text rest call) :
    OnLine (head w call) ∧ '\x7b' ∉ (head w call).toList := by
  cases h with
  | @mk _ t₁ t₂ _ name ids method hname _ hfind _ hargs hres =>
    have hvars : ∀ {d}, Scan.isNameChar d = false →
        ∀ s ∈ ids.map fun id => (w.vars.get id).name, d ∉ s.toList := fun hd =>
      List.forall_mem_map.2 fun id hid => not_mem_name (nameChars_of_arguments hargs id hid) hd
    have hline := onLine_of_name hname.nonempty hname.run.all
    have hbrace : '\x7b' ∉ name.toList := not_mem_name hname.run.all (by decide)
    simp only [head, List.take_append_drop, calledAs_of_resolves hfind hres]
    split
    · exact ⟨hline, hbrace⟩
    · have hunbroken := not_mem_intercalate (by decide : '\n' ∉ ", ".toList) (hvars (by decide))
      have hbraceless := not_mem_intercalate (by decide : '\x7b' ∉ ", ".toList) (hvars (by decide))
      exact ⟨((hline.append (by decide)).append hunbroken).append (by decide),
        not_mem_append (not_mem_append (not_mem_append hbrace (by decide)) hbraceless) (by decide)⟩

end Calls

/-! ## 3. Bindings -/

theorem wordChars_integerText (n : Int64) :
    ∀ c ∈ (Value.integerText n).toList, isWordChar c = true := by
  unfold Value.integerText
  rw [String.toList_ofList]
  exact wordChars_of_whole (WholeNumeral.wellFormed_ofInt _)

theorem wordChars_floatText {x : Binary64} (h : x.isFinite = true) :
    ∀ c ∈ (Value.floatText x).toList, isWordChar c = true := by
  obtain ⟨n, hchars, hformed, -⟩ := Binary64.exists_numeral Value.floatStyle h
  unfold Value.floatText
  rw [String.toList_ofList, ← hchars]
  exact wordChars_of_decimal hformed

/-- The text of a value is on one line and does not end with an opening brace. -/
theorem unbroken_text {v : Value} (h : v.Literate) :
    '\n' ∉ v.text.toList ∧ v.text.toList.getLast? ≠ some '\x7b' := by
  have hword : ∀ {text : String}, (∀ c ∈ text.toList, isWordChar c = true) →
      '\n' ∉ text.toList ∧ text.toList.getLast? ≠ some '\x7b' := by
    intro text htext
    constructor
    · exact fun hmem => absurd (htext _ hmem) (by decide)
    · exact fun hlast => absurd (htext _ (List.mem_of_getLast? hlast)) (by decide)
  have hquoted : ∀ {s : String}, Quotable s → '\n' ∉ (Value.quoted s).toList := fun hs =>
    not_mem_append (not_mem_append (by decide) fun hmem => (hs _ hmem).2 rfl) (by decide)
  have hbracketed : ∀ {items : List String}, (∀ s ∈ items, '\n' ∉ s.toList) →
      '\n' ∉ (Value.bracketed items).toList ∧
        (Value.bracketed items).toList.getLast? ≠ some '\x7b' := fun hitems =>
    ⟨not_mem_append (not_mem_append (by decide) (not_mem_intercalate (by decide) hitems))
      (by decide), getLast?_append_ne rfl (by decide)⟩
  cases v with
  | string s => exact ⟨hquoted h, getLast?_append_ne rfl (by decide)⟩
  | integer n => exact hword (wordChars_integerText n)
  | float x => exact hword (wordChars_floatText h)
  | stringList items =>
    exact hbracketed (List.forall_mem_map.2 fun s hs => hquoted (h s hs))
  | integerList items =>
    exact hbracketed (List.forall_mem_map.2 fun n _ => (hword (wordChars_integerText n)).1)
  | floatList items =>
    exact hbracketed (List.forall_mem_map.2 fun x hx => (hword (wordChars_floatText (h x hx))).1)

theorem exists_of_mem_bindings {keywords : List Keyword} {values : List Value} {text : String}
    (h : text ∈ List.zipWith binding keywords values) :
    ∃ keyword ∈ keywords, ∃ value ∈ values, text = binding keyword value := by
  rw [← List.map_uncurry_zip_eq_zipWith] at h
  obtain ⟨⟨keyword, value⟩, hmem, rfl⟩ := List.mem_map.1 h
  obtain ⟨hkeyword, hvalue⟩ := List.of_mem_zip hmem
  exact ⟨keyword, hkeyword, value, hvalue, rfl⟩

/-- A binding is written on one line, and does not end like one that opens a block. -/
theorem onLine_binding {keyword : Keyword} {value : Value} (hne : keyword.name ≠ "")
    (hname : ∀ c ∈ keyword.name.toList, Scan.isNameChar c = true) (hvalue : value.Literate) :
    OnLine (binding keyword value) ∧ (binding keyword value).toList.getLast? ≠ some '\x7b' := by
  obtain ⟨hunbroken, hlast⟩ := unbroken_text hvalue
  unfold binding
  constructor
  · exact ((onLine_of_name hne hname).append (by decide)).append hunbroken
  · rw [String.toList_append, List.getLast?_append]
    cases hend : value.text.toList.getLast? with
    | some c => rwa [hend] at hlast
    | none => simp

end Canonical

/-! ## 4. Statements -/

/-- A statement whose lines are lines: its call is written on one, without braces, and every keyword
    has a value that has a literal. -/
structure Statement.Plain (w : Workspace) (s : Statement) : Prop where
  line : Canonical.OnLine (Canonical.head w s.call)
  braceless : '\x7b' ∉ (Canonical.head w s.call).toList
  literate : ∀ v ∈ s.values, v.Literate
  valued : ∀ call values, s = .keywords call values →
    (w.methods.get call.method).keywords.length = values.length

section Plain

variable {w : Workspace}

theorem Statement.plain_keywords {call : Call} {values : List Value}
    (h : (Statement.keywords call values).unplaced.Writable w) :
    (Statement.keywords call values).Plain w := by
  obtain ⟨⟨base, hstands⟩, -, hvalues⟩ := h
  obtain ⟨hline, hbraceless⟩ := Canonical.onLine_head (@hstands [] (by simp [WordEnds]))
  refine ⟨hline, hbraceless, fun v hv => ?_, ?_⟩
  · obtain ⟨i, hi, rfl⟩ := List.mem_iff_getElem.1 hv
    exact (hvalues.get (hvalues.length_eq ▸ hi) hi).2
  · rintro _ _ ⟨⟩
    exact hvalues.length_eq

theorem Statement.plain_agenda {call : Call} {body : Agenda}
    (h : (Statement.agenda call body).unplaced.Writable w) :
    (Statement.agenda call body).Plain w := by
  obtain ⟨⟨base, hstands⟩, -, -⟩ := h
  obtain ⟨hline, hbraceless⟩ := Canonical.onLine_head (@hstands [] (by simp [WordEnds]))
  exact ⟨hline, hbraceless, List.forall_mem_nil _, fun _ _ h => by cases h⟩

mutual

theorem Statement.plain_of_writable (s : Statement) (h : s.unplaced.Writable w) :
    ∀ t ∈ s.preorder, t.Plain w := by
  match s with
  | .keywords call values => exact List.forall_mem_singleton.2 (Statement.plain_keywords h)
  | .agenda call body =>
    exact List.forall_mem_cons.2 ⟨Statement.plain_agenda h, Agenda.plain_of_writable body h.2.2⟩

/-- What can be written has plain statements on all levels. -/
theorem Agenda.plain_of_writable (a : List Statement) (h : Agenda.Writable w (Agenda.unplaced a)) :
    ∀ t ∈ Agenda.preorder a, t.Plain w := by
  match a with
  | [] => exact List.forall_mem_nil _
  | s :: a =>
    exact List.forall_mem_append.2 ⟨Statement.plain_of_writable s h.1,
      Agenda.plain_of_writable a h.2⟩

end

end Plain

end ControlScript
