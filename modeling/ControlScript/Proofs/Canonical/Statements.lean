import ControlScript.Canonical
import ControlScript.Proofs.Binding
import ControlScript.Proofs.Canonical.Values

/-!
# Statements read back from their lines

The lines of a statement are the statement again, however the keywords are laid out, and so are the
lines of an agenda.  Everything that a script may leave out is written: every agenda has braces, so
it takes a level, and a text that was included leaves no directive behind.
-/

namespace ControlScript

open Grammar Canonical

/-! ## 1. Calls -/

section Calls

variable {w : Workspace} {base : MethodId} {text rest : List Char}

theorem variableText_stands {vars : VariableRegistry} {id : VariableId}
    (h : VariableText vars text rest id) :
    (VariableText vars).Stands (vars.get id).name.toList id := by
  obtain ⟨name, hname, hfind⟩ := h
  rw [VariableRegistry.name_of_find? hfind]
  intro rest' hrest
  exact ⟨name, nameText_stands hname.nonempty hname.run.all hrest, hfind⟩

/-- A call is written with the name that it was found under, also when it means a specialization. -/
theorem calledAs_of_resolves {name : String} {ids : List VariableId} {method : MethodId}
    (hfind : w.methods.find? name = some base) (hres : Resolves w base ids method) :
    (w.methods.calledAs method).name = name := by
  apply MethodRegistry.calledAs_of_find? hfind
  cases hgeneric : (w.methods.get base).isGeneric with
  | false => exact .inl (hres.ordinary hgeneric)
  | true =>
    obtain ⟨id, -, hresolve⟩ := hres.specialized hgeneric
    exact .inr ⟨_, hresolve⟩

theorem callText_stands {call : Call} (h : CallText w base text rest call) :
    (CallText w base).Stands (Canonical.head w call).toList call := by
  intro rest' hrest
  cases h with
  | @mk _ t₁ t₂ _ name ids method hname hdirective hfind _ hargs hres =>
    have hstands := nameText_stands hname.nonempty hname.run.all
    have hhead : Canonical.head w ⟨method, .nowhere, ids.take (w.methods.get method).outputs.length,
        ids.drop (w.methods.get method).outputs.length⟩
        = if (ids.map fun id => (w.vars.get id).name).isEmpty then name
          else name ++ "(" ++ ", ".intercalate (ids.map fun id => (w.vars.get id).name) ++ ")" := by
      simp only [Canonical.head, List.take_append_drop, calledAs_of_resolves hfind hres]
    rw [hhead]
    cases hargs with
    -- empty parentheses are not written
    | none hcount => exact .mk (hstands hrest) hdirective hfind .none (.none hcount) hres
    | empty hcount _ => exact .mk (hstands hrest) hdirective hfind .none (.none hcount) hres
    | @bound _ _ _ _ first others hcount _ hfirst hothers =>
      have hstand : ∀ id ∈ first :: others,
          (VariableText w.vars).Stands (w.vars.get id).name.toList id := by
        rw [List.forall_mem_cons]
        exact ⟨variableText_stands hfirst, hothers.forall_mem
          (p := fun id => (VariableText w.vars).Stands (w.vars.get id).name.toList id)
          variableText_stands⟩
      have hclose : isWordChar ')' = false := by decide
      obtain ⟨t, hfirst', hothers'⟩ := items_stand hclose first others hstand rest'
      generalize hnames : (first :: others).map (fun id => (w.vars.get id).name) = names
        at hfirst' ⊢
      have hsome : names.isEmpty = false := by rw [← hnames, List.map_cons, List.isEmpty_cons]
      have htext : (name ++ "(" ++ ", ".intercalate names ++ ")").toList ++ rest'
          = name.toList ++ '(' :: ((", ".intercalate names).toList ++ ')' :: rest') := by simp
      rw [hsome, if_neg Bool.false_ne_true, htext]
      exact .mk (hstands (wordEnds_cons (by decide) _)) hdirective hfind .none
        (.bound hcount .none hfirst' hothers') hres

end Calls

/-! ## 2. Keywords -/

/-- The names of the keywords of a method can be written and read: they are words, and the name of
    an only keyword begins with a letter. -/
def Method.KeywordsNamed (m : Method) : Prop :=
  ∀ keyword ∈ m.keywords, keyword.name ≠ "" ∧ keyword.name.toList.all Scan.isNameChar = true ∧
    (m.keywords.length = 1 → keyword.name.toList.head?.any Char.isAlpha = true)

instance (m : Method) : Decidable m.KeywordsNamed :=
  inferInstanceAs (Decidable (∀ keyword ∈ m.keywords, _))

theorem keywordsNamed_get {r : MethodRegistry} (h : ∀ e ∈ r.entries, e.method.KeywordsNamed)
    (id : MethodId) : (r.get id).KeywordsNamed :=
  MethodRegistry.forall_get (p := Method.KeywordsNamed) (List.forall_mem_nil _) h id

section Keywords

variable {m : Method}

/-- A keyword and its value, as they are written. -/
def renderBinding (b : Keyword × Value) : String := binding b.1 b.2

theorem keywordText_stands (hnamed : m.KeywordsNamed) (hnodup : (m.keywords.map (·.name)).Nodup)
    {b : Keyword × Value} (hmem : b.1 ∈ m.keywords) (hvalue : b.2.kind = b.1.kind ∧ b.2.Literate) :
    (KeywordText m).Stands (renderBinding b).toList b := by
  obtain ⟨keyword, value⟩ := b
  obtain ⟨hkind, hliterate⟩ := hvalue
  obtain ⟨hne, hall, honly⟩ := hnamed keyword hmem
  have hname : keyword.name.toList ≠ [] := by simpa using hne
  intro rest hrest
  have htext : (renderBinding (keyword, value)).toList ++ rest
      = keyword.name.toList ++ ' ' :: '=' :: ' ' :: (value.text.toList ++ rest) := by
    simp [renderBinding, binding]
  have hliteral : LiteralText keyword.kind (value.text.toList ++ rest) rest value :=
    hkind ▸ literalText_stands hliterate hrest
  have hfirst : keyword.name.toList.head? = some (keyword.name.toList.head hname) :=
    List.head?_eq_some_head hname
  rw [htext]
  apply KeywordText.named ?name ?only (find?_keyword hnodup hmem)
    (blanks_space ('=' :: ' ' :: (value.text.toList ++ rest))) (blanks_space _) hliteral
  case name => exact nameText_stands hne (List.all_eq_true.1 hall) (wordEnds_cons (by decide) _)
  case only =>
    -- an only keyword is named because its name begins with a letter
    intro hlength
    have hletter := honly hlength
    rw [hfirst, Option.any_some] at hletter
    refine ⟨_, ?_, hletter⟩
    rw [List.head?_append_of_ne_nil _ hname, hfirst]
    rfl

/-- Keywords with commas between them are keywords, whatever character closes them. -/
theorem keywordsText_of_items {close : Char} {text rest t : List Char} {b : Keyword × Value}
    {others : List (Keyword × Value)} (hfirst : KeywordText m t text b)
    (h : ItemsText close (KeywordText m) text rest others) :
    KeywordsText m t (close :: rest) (b :: others) := by
  induction h generalizing t b with
  | last hblanks => exact .cons .none hfirst hblanks .none (.nil .none)
  | more hbehind hnext hitem _ ih =>
    exact .cons .none hfirst hbehind .comma ((ih hitem).blanks hnext)

end Keywords

/-! ## 3. Lines -/

section Lines

variable {layout : Layout} {rest : List Char}

/-- Lines as they are written. -/
def written (layout : Layout) (lines : List Line) : List Char :=
  lines.flatMap fun line => (layout.render line).toList

theorem written_append (layout : Layout) (lines others : List Line) :
    written layout (lines ++ others) = written layout lines ++ written layout others :=
  List.flatMap_append

theorem toList_text (w : Workspace) (layout : Layout) (entry : String) (a : Agenda) :
    (Canonical.text w layout entry a).toList = written layout (Canonical.lines w layout entry a) := by
  rw [Canonical.text, String.toList_join, written, List.flatMap_map]

theorem blanks_indentation (width : Nat) (text : List Char) :
    Blanks (List.replicate width ' ' ++ text) text := by
  induction width with
  | zero => exact .none
  | succ width ih => exact (blanks_space _).trans ih

/-- In front of the text of a line there is only its indentation. -/
theorem blanks_line (level : Nat) (text : String) (lines : List Line) (rest : List Char) :
    Blanks (written layout (⟨level, text⟩ :: lines) ++ rest)
      (text.toList ++ '\n' :: (written layout lines ++ rest)) := by
  have htext : written layout (⟨level, text⟩ :: lines) ++ rest
      = List.replicate (level * layout.indentWidth) ' '
        ++ (text.toList ++ '\n' :: (written layout lines ++ rest)) := by
    simp [written, Layout.render]
  rw [htext]
  apply blanks_indentation

/-- A block is its head, the lines inside between braces, and blanks. -/
theorem blanks_block (level : Nat) (head : String) (inside : List Line) (rest : List Char) :
    ∃ close, Blanks close ('\x7d' :: '\n' :: rest) ∧
      Blanks (written layout (block level head inside) ++ rest)
        (head.toList ++ ' ' :: '\x7b' :: '\n' :: (written layout inside ++ close)) := by
  refine ⟨written layout [⟨level, "\x7d"⟩] ++ rest, blanks_line level _ [] rest, ?_⟩
  have hopen := @blanks_line layout level (head ++ " \x7b") (inside ++ [⟨level, "\x7d"⟩]) rest
  have htext : (head ++ " \x7b").toList
      ++ '\n' :: (written layout (inside ++ [⟨level, "\x7d"⟩]) ++ rest)
      = head.toList ++ ' ' :: '\x7b' :: '\n' ::
        (written layout inside ++ (written layout [⟨level, "\x7d"⟩] ++ rest)) := by
    simp [written_append]
  rwa [htext] at hopen

/-- The block of an agenda is its head and the lines inside between braces, also when there are
    none. -/
theorem blanks_agendaBlock (level : Nat) (head : String) (inside : List Line) (rest : List Char) :
    ∃ text close, Blanks close ('\x7d' :: '\n' :: rest) ∧
      Blanks text (written layout inside ++ close) ∧
      Blanks (written layout (agendaBlock level head inside) ++ rest)
        (head.toList ++ ' ' :: '\x7b' :: text) := by
  cases inside with
  | nil =>
    -- nothing inside, so the braces are on the line of the head
    have htext : (head ++ " \x7b\x7d").toList ++ '\n' :: (written layout [] ++ rest)
        = head.toList ++ ' ' :: '\x7b' :: '\x7d' :: '\n' :: rest := by
      simp [written]
    exact ⟨'\x7d' :: '\n' :: rest, '\x7d' :: '\n' :: rest, .none, .none,
      htext ▸ blanks_line level _ [] rest⟩
  | cons line inside =>
    obtain ⟨close, hclose, hlines⟩ := @blanks_block layout level head (line :: inside) rest
    exact ⟨_, close, hclose, blanks_feed _, hlines⟩

/-- Keywords are written each on a line of its own. -/
theorem keywordsText_of_lines {m : Method} {level : Nat} {bound : List (Keyword × Value)}
    (hbound : ∀ b ∈ bound, (KeywordText m).Stands (renderBinding b).toList b) :
    KeywordsText m (written layout ((bound.map renderBinding).map (Line.mk level)) ++ rest) rest
      bound := by
  induction bound with
  | nil => exact .nil .none
  | cons b bound ih =>
    obtain ⟨hfirst, hothers⟩ := List.forall_mem_cons.1 hbound
    have hends : ∀ t, WordEnds ('\n' :: t) := fun t => wordEnds_cons (by decide) t
    -- no commas: the line feeds separate the keywords
    exact .cons (blanks_line level _ _ rest) (hfirst (hends _)) (blanks_feed _) .none (ih hothers)

/-- Bindings are on the line of their call or each on a line of its own, whichever the layout is. -/
theorem keywordLines_eq (layout : Layout) (level : Nat) (head binding : String)
    (others : List String) :
    keywordLines layout level head (binding :: others)
        = [⟨level, head ++ " \x7b " ++ ", ".intercalate (binding :: others) ++ " \x7d"⟩] ∨
      keywordLines layout level head (binding :: others)
        = block level head ((binding :: others).map (Line.mk (level + 1))) := by
  rw [keywordLines, List.isEmpty_cons, if_neg Bool.false_ne_true]
  exact ite_eq_or_eq _ _ _

/-- Bound keywords are read from the braces of a call, on whichever lines they are. -/
theorem keywordLines_reread {m : Method} (layout : Layout) (level : Nat) (head : String)
    (first : Keyword × Value) (others : List (Keyword × Value)) (rest : List Char)
    (hbound : ∀ b ∈ first :: others, (KeywordText m).Stands (renderBinding b).toList b) :
    ∃ text, Blanks
        (written layout (keywordLines layout level head ((first :: others).map renderBinding)) ++ rest)
        (head.toList ++ ' ' :: '\x7b' :: text) ∧
      KeywordsText m text ('\x7d' :: '\n' :: rest) (first :: others) := by
  rw [List.map_cons]
  rcases keywordLines_eq layout level head (renderBinding first) (others.map renderBinding) with
    hline | hblock
  · -- a space closes the items in front of the brace
    have hclose : isWordChar ' ' = false := by decide
    obtain ⟨t, hfirst, hothers⟩ := items_stand hclose first others hbound ('\x7d' :: '\n' :: rest)
    have htext : (head ++ " \x7b " ++ ", ".intercalate ((first :: others).map renderBinding)
        ++ " \x7d").toList ++ '\n' :: (written layout [] ++ rest)
        = head.toList ++ ' ' :: '\x7b' :: ' ' ::
          ((", ".intercalate ((first :: others).map renderBinding)).toList
            ++ ' ' :: '\x7d' :: '\n' :: rest) := by
      simp [written]
    rw [hline]
    refine ⟨_, htext ▸ blanks_line level _ [] rest, .blanks (blanks_space _) ?_⟩
    exact (keywordsText_of_items hfirst hothers).ends (blanks_space _)
  · obtain ⟨close, hclose, hlines⟩ := @blanks_block layout level head
      (((first :: others).map renderBinding).map (Line.mk (level + 1))) rest
    rw [hblock]
    refine ⟨_, hlines, .blanks (blanks_feed _) ?_⟩
    exact (keywordsText_of_lines hbound).ends hclose

end Lines

/-! ## 4. Statements -/

section Statements

variable {w : Workspace} {texts : TextSource} {base : MethodId} {call : Call}
  {nested : Phrase Agenda} {rest : List Char}

/-- With all its keywords written in braces, a method has the body that the values are. -/
theorem bodyText_of_bound {m : Method} (hnodup : (m.keywords.map (·.name)).Nodup)
    (hagenda : m.takesAgenda = false) {values : List Value}
    (hlength : m.keywords.length = values.length) {text : List Char}
    (h : KeywordsText m text ('\x7d' :: rest) (m.keywords.zip values)) :
    BodyText m nested call ('\x7b' :: text) rest (.keywords call values) := by
  refine .keywords hagenda h ?_ ?_
  · rw [List.map_fst_zip (Nat.le_of_eq hlength)]
    exact hnodup.of_map _
  · exact List.forall₂_iff_zip.2 ⟨hlength, fun hmem => .inl hmem⟩

theorem keywords_reread (layout : Layout) (level : Nat)
    (hcall : (CallText w base).Stands (Canonical.head w call).toList call)
    (hnamed : (w.methods.get call.method).KeywordsNamed)
    (hnodup : ((w.methods.get call.method).keywords.map (·.name)).Nodup)
    (hagenda : (w.methods.get call.method).takesAgenda = false) {values : List Value}
    (hvalues : List.Forall₂ (fun keyword value => value.kind = keyword.kind ∧ value.Literate)
      (w.methods.get call.method).keywords values) :
    ∃ t, Blanks (written layout (statementLines w layout level (.keywords call values)) ++ rest) t ∧
      StatementText w nested t ('\n' :: rest) (.keywords call values) := by
  have hlength := hvalues.length_eq
  have hbody : ∀ {text}, KeywordsText (w.methods.get call.method) text ('\x7d' :: '\n' :: rest) _ →
      BodyText (w.methods.get call.method) nested call ('\x7b' :: text) ('\n' :: rest)
        (.keywords call values) :=
    fun h => bodyText_of_bound hnodup hagenda hlength h
  have hstand : ∀ b ∈ (w.methods.get call.method).keywords.zip values,
      (KeywordText (w.methods.get call.method)).Stands (renderBinding b).toList b := by
    intro b hb
    have hmem : b.1 ∈ (w.methods.get call.method).keywords := (List.of_mem_zip hb).1
    exact keywordText_stands hnamed hnodup hmem ((List.forall₂_iff_zip.1 hvalues).2 hb)
  have hlines : statementLines w layout level (.keywords call values)
      = keywordLines layout level (Canonical.head w call)
        (((w.methods.get call.method).keywords.zip values).map renderBinding) := by
    rw [statementLines, ← List.map_uncurry_zip_eq_zipWith]
    rfl
  rw [hlines]
  cases hbound : (w.methods.get call.method).keywords.zip values with
  | nil =>
    -- a method without keywords is written without braces
    obtain ⟨hkeywords, rfl⟩ : (w.methods.get call.method).keywords = [] ∧ values = [] := by
      rw [← List.length_eq_zero_iff, ← List.length_eq_zero_iff, ← hlength, and_self]
      rcases List.zip_eq_nil_iff.1 hbound with hnil | hnil
      · rw [hnil, List.length_nil]
      · rw [hlength, hnil, List.length_nil]
    have hdefaulted : (w.methods.get call.method).allDefaulted = true := by
      rw [Method.allDefaulted, hkeywords, List.all_nil]
    have hcomplete : Completes (w.methods.get call.method) [] [] := by
      rw [Completes, hkeywords]
      exact .nil
    refine ⟨_, blanks_line level _ [] rest, .mk (hcall (wordEnds_cons (by decide) _)) .none ?_⟩
    exact .bareKeywords hagenda hdefaulted (by simp) hcomplete
  | cons b others =>
    rw [hbound] at hstand hbody
    obtain ⟨text, hblanks, hinside⟩ :=
      keywordLines_reread layout level (Canonical.head w call) b others rest hstand
    refine ⟨_, hblanks, .mk (hcall (wordEnds_cons (by decide) _)) ?_ (hbody hinside)⟩
    apply blanks_space

theorem block_reread (layout : Layout) (level : Nat) {levels : Nat} {files : List String}
    {body : Agenda}
    (hcall : (CallText w base).Stands (Canonical.head w call).toList call)
    (hagenda : (w.methods.get call.method).takesAgenda = true)
    (hbody : ∀ rest, AgendaText w texts (levels + 1) files
      (written layout (agendaLines w layout (level + 1) body) ++ rest) rest body) :
    ∃ t, Blanks (written layout (statementLines w layout level (.agenda call body)) ++ rest) t ∧
      StatementText w (AgendaText w texts (levels + 1) files) t ('\n' :: rest)
        (.agenda call body) := by
  obtain ⟨text, close, hclose, hopen, hlines⟩ := @blanks_agendaBlock layout level
    (Canonical.head w call) (agendaLines w layout (level + 1) body) rest
  have hinside : SequenceText (StatementText w (AgendaText w texts levels files)) _ _ close body :=
    hbody close
  rw [statementLines]
  refine ⟨_, hlines, .mk (hcall (wordEnds_cons (by decide) _)) (blanks_space _) ?_⟩
  apply BodyText.agenda hagenda
  exact (hinside.ends hclose).blanks hopen

end Statements

/-! ## 5. What can be written -/

mutual

/-- The names of the method and of the variables of a statement can be written, and so can its
    values, and the statements inside it. -/
def Statement.Writable (w : Workspace) : Statement → Prop
  | .keywords call values => (∃ base, (CallText w base).Stands (Canonical.head w call).toList call) ∧
      (w.methods.get call.method).takesAgenda = false ∧
      List.Forall₂ (fun keyword value => value.kind = keyword.kind ∧ value.Literate)
        (w.methods.get call.method).keywords values
  | .agenda call body => (∃ base, (CallText w base).Stands (Canonical.head w call).toList call) ∧
      (w.methods.get call.method).takesAgenda = true ∧ Agenda.Writable w body

/-- All statements of an agenda can be written. -/
def Agenda.Writable (w : Workspace) : List Statement → Prop
  | [] => True
  | s :: rest => s.Writable w ∧ Agenda.Writable w rest

end

section Writable

variable {w : Workspace} {texts : TextSource} {text rest : List Char}

theorem Agenda.Writable.append {a b : Agenda} (ha : Agenda.Writable w a) (hb : Agenda.Writable w b) :
    Agenda.Writable w (a ++ b) := by
  induction a with
  | nil => exact hb
  | cons s a ih => exact ⟨ha.1, ih ha.2⟩

/-- A statement in a text can be written, and the agendas in it are in braces, up to those that say
    nothing. -/
theorem writable_of_statementText {nested : Phrase Agenda} {levels : Nat}
    (hnested : ∀ {text rest body}, nested text rest body →
      Agenda.Writable w body ∧ Agenda.depth body ≤ levels) {s : Statement}
    (h : StatementText w nested text rest s) : s.Writable w ∧ s.depth ≤ levels + 1 := by
  cases h with
  | @mk _ t₁ t₂ _ base call _ hcall _ hbody =>
    have hstands : ∃ base, (CallText w base).Stands (Canonical.head w call).toList call :=
      ⟨base, callText_stands hcall⟩
    cases hbody with
    | bareKeywords hagenda _ _ hcomplete =>
      exact ⟨⟨hstands, hagenda, hcomplete.literate (by simp)⟩, Nat.zero_le _⟩
    | keywords hagenda hkeywords _ hcomplete =>
      exact ⟨⟨hstands, hagenda, hcomplete.literate hkeywords.literate⟩, Nat.zero_le _⟩
    | bareAgenda hagenda _ _ => exact ⟨⟨hstands, hagenda, trivial⟩, Nat.succ_le_succ (Nat.zero_le _)⟩
    | agenda hagenda hinside =>
      obtain ⟨hwritable, hdepth⟩ := hnested hinside
      exact ⟨⟨hstands, hagenda, hwritable⟩, Nat.succ_le_succ hdepth⟩

/-- An agenda in a text can be written; only an innermost one is not in braces, so there were levels
    for all others. -/
theorem writable_of_agendaText {levels : Nat} {files : List String}
    {a : Agenda} (h : AgendaText w texts levels files text rest a) :
    Agenda.Writable w a ∧ Agenda.depth a ≤ levels := by
  -- on the levels of the grammar, and within a level on the sequence
  induction levels generalizing files text rest a with
  | zero => exact h.elim
  | succ levels ih =>
    have h' : SequenceText (StatementText w (AgendaText w texts levels files)) _ text rest a := h
    clear h
    induction h' with
    | nil _ => exact ⟨trivial, Nat.zero_le _⟩
    | statement _ hfirst _ ihothers =>
      obtain ⟨hwritable, hdepth⟩ := writable_of_statementText ih hfirst
      exact ⟨⟨hwritable, ihothers.1⟩, Nat.max_le.2 ⟨hdepth, ihothers.2⟩⟩
    | directive _ _ hfound _ ihothers =>
      obtain ⟨_, -, -, hinside⟩ := hfound
      obtain ⟨hwritable, hdepth⟩ := ih hinside
      rw [Agenda.depth_append]
      exact ⟨hwritable.append ihothers.1, Nat.max_le.2 ⟨Nat.le_succ_of_le hdepth, ihothers.2⟩⟩

end Writable

/-! ## 6. Agendas -/

section Agendas

variable {w : Workspace} {texts : TextSource} {files : List String} {layout : Layout}

mutual

/-- The lines of a statement are the statement again, with a level for every agenda. -/
theorem statement_reread (hr : w.methods.Sound)
    (hnamed : ∀ e ∈ w.methods.entries, e.method.KeywordsNamed) (s : Statement) (h : s.Writable w)
    {levels : Nat} (hlevels : s.depth ≤ levels) (level : Nat) (rest : List Char) :
    ∃ t, Blanks (written layout (statementLines w layout level s) ++ rest) t ∧
      StatementText w (AgendaText w texts levels files) t ('\n' :: rest) s := by
  match s with
  | .keywords call values =>
    obtain ⟨⟨base, hcall⟩, hagenda, hvalues⟩ := h
    exact keywords_reread layout level hcall (keywordsNamed_get hnamed call.method)
      (hr.nodup_keywords call.method) hagenda hvalues
  | .agenda call body =>
    obtain ⟨⟨base, hcall⟩, hagenda, hbody⟩ := h
    cases levels with
    | zero => exact absurd hlevels (Nat.not_succ_le_zero _)
    | succ levels =>
      exact block_reread layout level hcall hagenda fun rest =>
        agenda_reread hr hnamed body hbody (Nat.le_of_succ_le_succ hlevels) (level + 1) rest

/-- The lines of an agenda are the agenda again. -/
theorem agenda_reread (hr : w.methods.Sound)
    (hnamed : ∀ e ∈ w.methods.entries, e.method.KeywordsNamed) (a : List Statement)
    (h : Agenda.Writable w a) {levels : Nat} (hlevels : Agenda.depth a ≤ levels) (level : Nat)
    (rest : List Char) :
    AgendaText w texts (levels + 1) files (written layout (agendaLines w layout level a) ++ rest)
      rest a := by
  match a with
  | [] => exact .nil .none
  | s :: others =>
    obtain ⟨hfirst, hothers⟩ := Nat.max_le.1 hlevels
    obtain ⟨t, hblanks, hstatement⟩ := statement_reread hr hnamed s h.1 hfirst level
      (written layout (agendaLines w layout level others) ++ rest)
    rw [agendaLines, written_append, List.append_assoc]
    exact .statement hblanks hstatement
      (SequenceText.blanks (blanks_feed _) (agenda_reread hr hnamed others h.2 hothers level rest))

end

/-- Lines begin with nothing that could be taken for a part of what is in front of them. -/
theorem agendaLines_nothingOpens (hr : w.methods.Sound)
    (hnamed : ∀ e ∈ w.methods.entries, e.method.KeywordsNamed) {a : Agenda}
    (h : Agenda.Writable w a) (level : Nat) {rest : List Char} (hrest : NothingOpens rest) :
    NothingOpens (written layout (agendaLines w layout level a) ++ rest) := by
  have hlines : AgendaText w (.ofList []) (Agenda.depth a + 1) []
      (written layout (agendaLines w layout level a) ++ rest) rest a :=
    agenda_reread hr hnamed a h (Nat.le_refl _) level rest
  exact SequenceText.nothingOpens StatementText.head hlines hrest

end Agendas

end ControlScript
