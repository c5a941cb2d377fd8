import ControlScript.Proofs.Canonical.Writer

/-!
# Blocks of canonical lines

A line of canonical text that ends with an opening brace opens a block, and a line with nothing but
a closing brace closes one.  The level of a line is the number of blocks that are open there, the
block that it closes not counted, and no block but the outermost one is closed by the last line.
Between the braces stand the statements one after the other, those of inner agendas behind the
statement that they belong to.
-/

namespace ControlScript

open Grammar

namespace Canonical

/-! ## 1. Lines that open and close blocks -/

/-- Whether a line opens a block: it ends with an opening brace. -/
def Line.opens (line : Line) : Bool := line.text.toList.getLast? = some '\x7b'

/-- Whether a line closes a block: there is a closing brace on it and nothing else. -/
def Line.closes (line : Line) : Bool := line.text = "\x7d"

theorem OnLine.not_closes {text : String} (h : OnLine text) (level : Nat) :
    Line.closes ⟨level, text⟩ = false := by
  refine decide_eq_false fun htext => h.head?_ne (d := '\x7d') (by decide) ?_
  rw [show text = "\x7d" from htext]
  rfl

/-- What a line on its level does to the number of open blocks. -/
inductive Line.Leads : Line → Nat → Nat → Prop where
  | within {level : Nat} {text : String} :
      OnLine text → text.toList.getLast? ≠ some '\x7b' → Line.Leads ⟨level, text⟩ level level
  | opening {level : Nat} {text : String} :
      OnLine text → text.toList.getLast? = some '\x7b' → Line.Leads ⟨level, text⟩ level (level + 1)
  | closing {level : Nat} : Line.Leads ⟨level, "\x7d"⟩ (level + 1) level

/-- A line is on the level of the blocks that are open in front of it, without the one that it
    closes. -/
theorem Line.Leads.level_eq {line : Line} {n m : Nat} (h : line.Leads n m) :
    line.level + [line].countP Line.closes = n ∧
      n + [line].countP Line.opens = m + [line].countP Line.closes := by
  cases h with
  | within hline hend =>
    have hopens : Line.opens ⟨n, _⟩ = false := decide_eq_false hend
    simp [hline.not_closes, hopens]
  | opening hline hend =>
    have hopens : Line.opens ⟨n, _⟩ = true := decide_eq_true hend
    simp [hline.not_closes, hopens]
  | closing => simp [Line.opens, Line.closes]

theorem Line.Leads.text {line : Line} {n m : Nat} (h : line.Leads n m) :
    line.text = "\x7d" ∨ OnLine line.text := by
  cases h with
  | within hline _ => exact .inr hline
  | opening hline _ => exact .inr hline
  | closing => exact .inl rfl

/-! ## 2. Nested blocks -/

/-- Lines on their levels lead from a number of open blocks to another one, and never leave fewer
    open than `floor`. -/
inductive Nested (floor : Nat) : List Line → Nat → Nat → Prop where
  | nil {n : Nat} : floor ≤ n → Nested floor [] n n
  | cons {line : Line} {lines : List Line} {n k m : Nat} :
      floor ≤ n → line.Leads n k → Nested floor lines k m → Nested floor (line :: lines) n m

section Nested

variable {floor n k m : Nat} {line : Line} {lines others : List Line}

theorem Nested.floor_le (h : Nested floor lines n m) : floor ≤ m := by
  induction h with
  | nil hfloor => exact hfloor
  | cons _ _ _ ih => exact ih

theorem Nested.mono {floor' : Nat} (h : Nested floor lines n m) (hfloor : floor' ≤ floor) :
    Nested floor' lines n m := by
  induction h with
  | nil hn => exact .nil (hfloor.trans hn)
  | cons hn hline _ ih => exact .cons (hfloor.trans hn) hline ih

theorem Nested.append (h : Nested floor lines n k) (hothers : Nested floor others k m) :
    Nested floor (lines ++ others) n m := by
  induction h with
  | nil _ => exact hothers
  | cons hn hline _ ih => exact .cons hn hline (ih hothers)

/-- Nested lines can be cut anywhere. -/
theorem Nested.cut (h : Nested floor (lines ++ others) n m) :
    ∃ k, Nested floor lines n k ∧ Nested floor others k m := by
  induction lines generalizing n with
  | nil =>
    have hn : floor ≤ n := by
      cases h with
      | nil hn => exact hn
      | cons hn _ _ => exact hn
    exact ⟨n, .nil hn, h⟩
  | cons line lines ih =>
    cases h with
    | cons hn hline hrest =>
      obtain ⟨k, hlines, hothers⟩ := ih hrest
      exact ⟨k, .cons hn hline hlines, hothers⟩

/-- How many blocks are open is known from the lines that open and close blocks. -/
theorem Nested.count (h : Nested floor lines n m) :
    n + lines.countP Line.opens = m + lines.countP Line.closes := by
  induction h with
  | nil _ => rfl
  | cons _ hline _ ih =>
    have hcount := hline.level_eq.2
    rw [← List.singleton_append, List.countP_append, List.countP_append]
    omega

theorem Nested.forall_text (h : Nested floor lines n m) :
    ∀ line ∈ lines, line.text = "\x7d" ∨ OnLine line.text := by
  induction h with
  | nil _ => exact List.forall_mem_nil _
  | cons _ hline _ ih => exact List.forall_mem_cons.2 ⟨hline.text, ih⟩

theorem nested_within {text : String} (level : Nat) (h : OnLine text)
    (hend : text.toList.getLast? ≠ some '\x7b') : Nested level [⟨level, text⟩] level level :=
  .cons (Nat.le_refl _) (.within h hend) (.nil (Nat.le_refl _))

/-- A block leaves as many blocks open as there were. -/
theorem Nested.block {level : Nat} (h : Nested (level + 1) lines (level + 1) (level + 1))
    {head : String} (hhead : OnLine head) : Nested level (block level head lines) level level := by
  have hline : OnLine (head ++ " \x7b") := hhead.append (by decide)
  have hend : (head ++ " \x7b").toList.getLast? = some '\x7b' := by simp
  have hclose : Nested level [⟨level, "\x7d"⟩] (level + 1) level :=
    .cons (Nat.le_succ _) .closing (.nil (Nat.le_refl _))
  exact .cons (Nat.le_refl _) (.opening hline hend) ((h.mono (Nat.le_succ _)).append hclose)

/-- The block structure of a text: every line is on the level of the blocks that are open there, the
    one that it closes not counted, and the blocks are closed by the last line and not before. -/
structure Balanced (lines : List Line) : Prop where
  level_eq : ∀ before line after, lines = before ++ line :: after →
    line.level + (before ++ [line]).countP Line.closes = before.countP Line.opens
  stays_open : ∀ before after, lines = before ++ after → before ≠ [] → after ≠ [] →
    before.countP Line.closes < before.countP Line.opens
  closed : lines.countP Line.closes = lines.countP Line.opens

theorem Nested.level_eq (h : Nested floor lines 0 m) {before after : List Line}
    (hlines : lines = before ++ line :: after) :
    line.level + (before ++ [line]).countP Line.closes = before.countP Line.opens := by
  subst hlines
  obtain ⟨k, hbefore, hafter⟩ := h.cut
  have hcount := hbefore.count
  cases hafter with
  | cons _ hline _ =>
    have hlevel := hline.level_eq.1
    rw [List.countP_append]
    omega

/-- What is inside the outermost block never closes it. -/
theorem balanced_block {head : String} (hhead : OnLine head) (h : Nested 1 lines 1 1) :
    Balanced (block 0 head lines) where
  level_eq _ _ _ hlines := (h.block hhead).level_eq hlines
  stays_open := by
    intro before after hlines hbefore hafter
    obtain ⟨line, before, rfl⟩ := List.exists_cons_of_ne_nil hbefore
    obtain ⟨after, last, rfl⟩ := (List.eq_nil_or_concat' after).resolve_left hafter
    rw [Canonical.block, List.cons_append, List.cons_append, ← List.append_assoc] at hlines
    obtain ⟨rfl, hinside⟩ := List.cons.inj hlines
    obtain ⟨rfl, -⟩ := List.append_inj' hinside rfl
    obtain ⟨k, hcut, -⟩ := h.cut
    have hopen := hcut.floor_le
    have hcount := hcut.count
    have hfirst : [(⟨0, head ++ " \x7b"⟩ : Line)].countP Line.opens = 1 := by simp [Line.opens]
    have hnot : [(⟨0, head ++ " \x7b"⟩ : Line)].countP Line.closes = 0 := by
      have hline : OnLine (head ++ " \x7b") := hhead.append (by decide)
      simp [hline.not_closes]
    rw [← List.singleton_append, List.countP_append, List.countP_append, hfirst, hnot]
    omega
  closed := by
    have hcount := (h.block hhead).count
    omega

theorem balanced_line {text : String} (h : OnLine text)
    (hend : text.toList.getLast? ≠ some '\x7b') : Balanced [⟨0, text⟩] where
  level_eq _ _ _ hlines := (nested_within 0 h hend).level_eq hlines
  stays_open := by
    intro before after hlines hbefore hafter
    have hlength := congrArg List.length hlines
    rw [List.length_append, List.length_singleton] at hlength
    have hone := List.length_pos_of_ne_nil hbefore
    have htwo := List.length_pos_of_ne_nil hafter
    omega
  closed := by
    have hcount := (nested_within 0 h hend).count
    omega

end Nested

/-! ## 3. Statements -/

section Statements

variable {w : Workspace} {layout : Layout}

theorem keywordLines_nested (level : Nat) {head : String} (hhead : OnLine head)
    (hbraceless : '\x7b' ∉ head.toList) {bindings : List String}
    (hbindings : ∀ s ∈ bindings, OnLine s ∧ s.toList.getLast? ≠ some '\x7b') :
    Nested level (keywordLines layout level head bindings) level level := by
  have hinside : Nested (level + 1) (bindings.map (Line.mk (level + 1))) (level + 1)
      (level + 1) := by
    induction bindings with
    | nil => exact .nil (Nat.le_refl _)
    | cons s others ih =>
      obtain ⟨⟨hline, hend⟩, hothers⟩ := List.forall_mem_cons.1 hbindings
      exact (nested_within _ hline hend).append (ih hothers)
  have hunbroken := not_mem_intercalate (by decide : '\n' ∉ ", ".toList)
    fun s hs => (hbindings s hs).1.unbroken
  rw [keywordLines]
  split
  · exact nested_within level hhead fun hlast => hbraceless (List.mem_of_getLast? hlast)
  · dsimp only
    split
    · exact nested_within level (((hhead.append (by decide)).append hunbroken).append (by decide))
        (getLast?_append_ne rfl (by decide))
    · exact hinside.block hhead

theorem agendaBlock_nested {level : Nat} {head : String} (hhead : OnLine head) {lines : List Line}
    (h : Nested (level + 1) lines (level + 1) (level + 1)) :
    Nested level (agendaBlock level head lines) level level := by
  rw [agendaBlock]
  split
  · exact nested_within level (hhead.append (by decide)) (getLast?_append_ne rfl (by decide))
  · exact h.block hhead

/-- The names of all registered keywords are names. -/
def KeywordNames (w : Workspace) : Prop :=
  ∀ e ∈ w.methods.entries, ∀ keyword ∈ e.method.keywords,
    keyword.name ≠ "" ∧ ∀ c ∈ keyword.name.toList, Scan.isNameChar c = true

theorem KeywordNames.get (h : KeywordNames w) (id : MethodId) :
    ∀ keyword ∈ (w.methods.get id).keywords,
      keyword.name ≠ "" ∧ ∀ c ∈ keyword.name.toList, Scan.isNameChar c = true :=
  MethodRegistry.forall_get (p := fun m => ∀ keyword ∈ m.keywords,
    keyword.name ≠ "" ∧ ∀ c ∈ keyword.name.toList, Scan.isNameChar c = true)
    (List.forall_mem_nil _) h id

theorem onLine_bindings (hnames : KeywordNames w) {call : Call} {values : List Value}
    (hliterate : ∀ v ∈ values, v.Literate) :
    ∀ s ∈ List.zipWith binding (w.methods.get call.method).keywords values,
      OnLine s ∧ s.toList.getLast? ≠ some '\x7b' := by
  intro s hs
  obtain ⟨keyword, hkeyword, value, hvalue, rfl⟩ := exists_of_mem_bindings hs
  obtain ⟨hne, hname⟩ := hnames.get _ keyword hkeyword
  exact onLine_binding hne hname (hliterate value hvalue)

mutual

theorem statementLines_nested (hnames : KeywordNames w) (level : Nat) (s : Statement)
    (hplain : ∀ t ∈ s.preorder, t.Plain w) :
    Nested level (statementLines w layout level s) level level := by
  match s with
  | .keywords call values =>
    have hs := List.forall_mem_singleton.1 hplain
    exact keywordLines_nested level hs.line hs.braceless (onLine_bindings hnames hs.literate)
  | .agenda call body =>
    obtain ⟨hs, hbody⟩ := List.forall_mem_cons.1 hplain
    exact agendaBlock_nested hs.line (agendaLines_nested hnames (level + 1) body hbody)

/-- The lines of an agenda are nested on their levels. -/
theorem agendaLines_nested (hnames : KeywordNames w) (level : Nat) (a : List Statement)
    (hplain : ∀ t ∈ Agenda.preorder a, t.Plain w) :
    Nested level (agendaLines w layout level a) level level := by
  match a with
  | [] => exact .nil (Nat.le_refl _)
  | s :: others =>
    obtain ⟨hs, hothers⟩ := List.forall_mem_append.1 hplain
    exact (statementLines_nested hnames level s hs).append
      (agendaLines_nested hnames level others hothers)

end

end Statements

/-! ## 4. What stands between the braces -/

/-- A line without its line feed. -/
def Layout.row (layout : Layout) (line : Line) : String :=
  .ofList (List.replicate (line.level * layout.indentWidth) ' ') ++ line.text

/-- Whether the keywords of a statement belong on a given line, the one of its call: in automatic
    layout if the whole line is not too long. -/
def Layout.fits (layout : Layout) (line : Line) : Bool :=
  match layout.keywords with
  | .auto => (layout.row line).length ≤ layout.lineLength
  | .inline => true
  | .multiline => false

theorem inLine_eq_fits (layout : Layout) (line : Line) : layout.inLine line = layout.fits line := by
  have hlength : (layout.row line).length = layout.lineWidth line := by
    simp [Layout.row, Layout.lineWidth]
  cases hkeywords : layout.keywords with
  | auto => simp only [Layout.inLine, Layout.fits, hkeywords, hlength]
  | inline => simp only [Layout.inLine, Layout.fits, hkeywords]
  | multiline => simp only [Layout.inLine, Layout.fits, hkeywords]

/-- The lines of a call with its bindings: one line or, if they do not belong on it, a line for the
    call and one for each binding. -/
def shownKeywords (layout : Layout) (level : Nat) (head : String) (bindings : List String) :
    List Line :=
  let line : Line := ⟨level, head ++ " \x7b " ++ ", ".intercalate bindings ++ " \x7d"⟩
  if bindings = [] then [⟨level, head⟩]
  else if layout.fits line then [line]
  else ⟨level, head ++ " \x7b"⟩ :: bindings.map (Line.mk (level + 1))

/-- What is written for a statement on a level, without the statements inside of it. -/
def shown (w : Workspace) (layout : Layout) : Nat × Statement → List Line
  | (level, .keywords call values) =>
      shownKeywords layout level (head w call)
        (List.zipWith binding (w.methods.get call.method).keywords values)
  | (level, .agenda call body) =>
      [⟨level, head w call ++ if body = [] then " \x7b\x7d" else " \x7b"⟩]

mutual

/-- A statement and the statements inside it in preorder, each with the level that it is on. -/
def leveledStatement (level : Nat) : Statement → List (Nat × Statement)
  | .keywords call values => [(level, .keywords call values)]
  | .agenda call body => (level, .agenda call body) :: leveledAgenda (level + 1) body

/-- The statements of an agenda on all levels in preorder, each with the level that it is on. -/
def leveledAgenda (level : Nat) : List Statement → List (Nat × Statement)
  | [] => []
  | s :: rest => leveledStatement level s ++ leveledAgenda level rest

end

mutual

theorem map_snd_leveledStatement (level : Nat) (s : Statement) :
    (leveledStatement level s).map Prod.snd = s.preorder := by
  match s with
  | .keywords call values => rfl
  | .agenda call body =>
    rw [leveledStatement, List.map_cons, map_snd_leveledAgenda (level + 1) body, Statement.preorder]

theorem map_snd_leveledAgenda (level : Nat) (a : List Statement) :
    (leveledAgenda level a).map Prod.snd = Agenda.preorder a := by
  match a with
  | [] => rfl
  | s :: others =>
    rw [leveledAgenda, List.map_append, map_snd_leveledStatement level s,
      map_snd_leveledAgenda level others, Agenda.preorder]

end

/-- The lines that close no block. -/
def unclosing (lines : List Line) : List Line := lines.filter (!·.closes)

theorem unclosing_append (lines others : List Line) :
    unclosing (lines ++ others) = unclosing lines ++ unclosing others := List.filter_append _ _

section Shown

variable {w : Workspace} {layout : Layout} {level : Nat} {head text : String} {lines : List Line}

theorem OnLine.unclosing (h : OnLine text) (level : Nat) (lines : List Line) :
    unclosing (⟨level, text⟩ :: lines) = ⟨level, text⟩ :: unclosing lines :=
  List.filter_cons_of_pos (by rw [h.not_closes]; rfl)

theorem unclosing_block (hhead : OnLine head) :
    unclosing (block level head lines) = ⟨level, head ++ " \x7b"⟩ :: unclosing lines := by
  have hline : OnLine (head ++ " \x7b") := hhead.append (by decide)
  have hlast : unclosing [⟨level, "\x7d"⟩] = [] := by simp [unclosing, Line.closes]
  rw [block, List.cons_append, hline.unclosing, unclosing_append, hlast, List.append_nil]

theorem unclosing_agendaBlock (hhead : OnLine head) {body : Agenda}
    (hlines : lines = [] ↔ body = []) :
    unclosing (agendaBlock level head lines)
      = ⟨level, head ++ if body = [] then " \x7b\x7d" else " \x7b"⟩ :: unclosing lines := by
  have hline : OnLine (head ++ " \x7b\x7d") := hhead.append (by decide)
  simp only [agendaBlock, List.isEmpty_iff]
  by_cases hnone : lines = []
  · rw [if_pos hnone, if_pos (hlines.1 hnone), hline.unclosing, hnone]
  · rw [if_neg hnone, if_neg (mt hlines.2 hnone), unclosing_block hhead]

/-- Lines that begin with a name close nothing. -/
theorem unclosing_lines {texts : List String} (h : ∀ s ∈ texts, OnLine s) :
    unclosing (texts.map (Line.mk level)) = texts.map (Line.mk level) := by
  refine List.filter_eq_self.2 fun line hline => ?_
  obtain ⟨s, hs, rfl⟩ := List.mem_map.1 hline
  rw [(h s hs).not_closes]
  rfl

theorem unclosing_keywordLines (hhead : OnLine head) {bindings : List String}
    (hbindings : ∀ s ∈ bindings, OnLine s) :
    unclosing (keywordLines layout level head bindings)
      = shownKeywords layout level head bindings := by
  have hunbroken := not_mem_intercalate (by decide : '\n' ∉ ", ".toList)
    fun s hs => (hbindings s hs).unbroken
  have hline : OnLine (head ++ " \x7b " ++ ", ".intercalate bindings ++ " \x7d") :=
    ((hhead.append (by decide)).append hunbroken).append (by decide)
  simp only [keywordLines, shownKeywords, List.isEmpty_iff, inLine_eq_fits]
  split
  · exact hhead.unclosing level []
  · split
    · exact hline.unclosing level []
    · rw [unclosing_block hhead, unclosing_lines hbindings]

mutual

theorem unclosing_statementLines (hnames : KeywordNames w) (level : Nat) (s : Statement)
    (hplain : ∀ t ∈ s.preorder, t.Plain w) :
    unclosing (statementLines w layout level s)
      = (leveledStatement level s).flatMap (shown w layout) := by
  match s with
  | .keywords call values =>
    have hs := List.forall_mem_singleton.1 hplain
    have hline : OnLine (head w call) := hs.line
    have hbindings := @onLine_bindings w hnames call values hs.literate
    rw [statementLines, unclosing_keywordLines hline fun s hs => (hbindings s hs).1,
      leveledStatement, List.flatMap_singleton, shown]
  | .agenda call body =>
    obtain ⟨hs, hbody⟩ := List.forall_mem_cons.1 hplain
    have hline : OnLine (head w call) := hs.line
    rw [statementLines, unclosing_agendaBlock hline agendaLines_eq_nil_iff,
      unclosing_agendaLines hnames (level + 1) body hbody, leveledStatement, List.flatMap_cons,
      shown, List.singleton_append]

/-- Without the closing braces, the lines of an agenda are those of its statements in preorder. -/
theorem unclosing_agendaLines (hnames : KeywordNames w) (level : Nat) (a : List Statement)
    (hplain : ∀ t ∈ Agenda.preorder a, t.Plain w) :
    unclosing (agendaLines w layout level a)
      = (leveledAgenda level a).flatMap (shown w layout) := by
  match a with
  | [] => rfl
  | s :: others =>
    obtain ⟨hs, hothers⟩ := List.forall_mem_append.1 hplain
    rw [agendaLines, unclosing_append, unclosing_statementLines hnames level s hs,
      unclosing_agendaLines hnames level others hothers, leveledAgenda, List.flatMap_append]

end

end Shown

/-! ## 5. Texts -/

/-- The layout of an agenda as the body of `entry`.  No line has a line feed in it, and each begins
    with something else than a blank; it is on the level of the blocks that are open there.  Apart
    from closing braces there are the call of `entry` and then the statements in preorder. -/
structure LaidOut (w : Workspace) (layout : Layout) (entry : String) (a : Agenda)
    (lines : List Line) : Prop where
  unbroken : ∀ line ∈ lines, '\n' ∉ line.text.toList
  begun : ∀ line ∈ lines, ∃ c ∈ line.text.toList.head?, c ≠ ' '
  balanced : Balanced lines
  shown : ∃ placed : List (Nat × Statement), placed.map Prod.snd = Agenda.preorder a ∧
    unclosing lines = ⟨0, entry ++ if a = [] then " \x7b\x7d" else " \x7b"⟩
      :: placed.flatMap (Canonical.shown w layout)

theorem laidOut_lines {w : Workspace} {entry : String} {a : Agenda} (hnames : KeywordNames w)
    (hplain : ∀ s ∈ Agenda.preorder a, s.Plain w) (hentry : OnLine entry) (layout : Layout) :
    LaidOut w layout entry a (lines w layout entry a) := by
  have hinside : Nested 1 (agendaLines w layout 1 a) 1 1 := agendaLines_nested hnames 1 a hplain
  have htext := (agendaBlock_nested hentry hinside).forall_text
  refine ⟨fun line hline => ?_, fun line hline => ?_, ?_, leveledAgenda 1 a,
    map_snd_leveledAgenda 1 a, ?_⟩
  · rcases htext line hline with hclose | hnamed
    · rw [hclose]
      decide
    · exact hnamed.unbroken
  · rcases htext line hline with hclose | hnamed
    · rw [hclose]
      exact ⟨'\x7d', rfl, by decide⟩
    · obtain ⟨c, hc, hname⟩ := hnamed.named
      refine ⟨c, hc, ?_⟩
      rintro rfl
      exact absurd hname (by decide)
  · rw [lines, agendaBlock]
    split
    · exact balanced_line (hentry.append (by decide)) (getLast?_append_ne rfl (by decide))
    · exact balanced_block hentry hinside
  · rw [lines, unclosing_agendaBlock hentry agendaLines_eq_nil_iff,
      unclosing_agendaLines hnames 1 a hplain]

end Canonical

namespace Reading

open Canonical

/-- The canonical text of an agenda that was read, as a writer writes it, is laid out in lines each
    of which ends with a line feed. -/
theorem canonical_text_laid_out {ctx : Context} {file source : String} {a : Agenda}
    (hmethods : ctx.workspace.methods.Built) (hnames : KeywordNames ctx.workspace)
    (h : parse ctx file source = .ok a) {entry : String} (hne : entry ≠ "")
    (hentry : ∀ c ∈ entry.toList, Scan.isNameChar c = true) (layout : Layout) :
    Canonical.text ctx.workspace layout entry a = print ctx.workspace layout entry a ∧
      ∃ lines : List Line,
        print ctx.workspace layout entry a
          = String.join (lines.map fun line => layout.row line ++ "\n") ∧
        LaidOut ctx.workspace layout entry a lines := by
  have hplain : ∀ s ∈ Agenda.preorder a, s.Plain ctx.workspace :=
    Agenda.plain_of_writable a (writable_of_parse hmethods.sound h).1
  have hprint := print_eq_text hplain layout entry
  exact ⟨hprint.symm, Canonical.lines ctx.workspace layout entry a, hprint,
    laidOut_lines hnames hplain (onLine_of_name hne hentry) layout⟩

/-- A script with an agenda inside of another one, in which the keyword of a statement is on a line
    of its own since the line of the statement would be too long. -/
theorem canonical_text_laid_out_wait : Workspace.small.methods.Built ∧
    KeywordNames Workspace.small ∧
    ∃ a, parse .small "main" "Arts \x7b Copy(x, y) Arts \x7b Wait \x7d \x7d" = .ok a ∧
      ∃ lines, LaidOut .small { lineLength := 20 } "Arts" a lines ∧
        String.join (lines.map fun line => Layout.row { lineLength := 20 } line ++ "\n")
          = "Arts \x7b\n  Copy(x, y)\n  Arts \x7b\n    Wait \x7b\n      time = 1.5\n    \x7d\n" ++
            "  \x7d\n\x7d\n" := by
  have hnamed : ∀ e ∈ Workspace.small.methods.entries, e.method.KeywordsNamed := by decide
  have hnames : KeywordNames Workspace.small := fun e he keyword hkeyword =>
    ⟨(hnamed e he keyword hkeyword).1, List.all_eq_true.1 (hnamed e he keyword hkeyword).2.1⟩
  have hread : acceptsWith .small "main" "Arts \x7b Copy(x, y) Arts \x7b Wait \x7d \x7d"
      (fun a => Canonical.text .small { lineLength := 20 } "Arts" a
        = "Arts \x7b\n  Copy(x, y)\n  Arts \x7b\n    Wait \x7b\n      time = 1.5\n    \x7d\n" ++
          "  \x7d\n\x7d\n") = true := by
    decide +kernel
  obtain ⟨a, ha, htext⟩ := acceptsWith_iff.1 hread
  obtain ⟨hprint, lines, hlines, hlaid⟩ := @canonical_text_laid_out .small _ _ _
    Workspace.small_methods_built hnames ha "Arts" (by decide) (List.all_eq_true.1 (by decide))
    { lineLength := 20 }
  exact ⟨Workspace.small_methods_built, hnames, a, ha, lines, hlaid,
    (hprint.trans hlines).symm.trans (of_decide_eq_true htext)⟩

end Reading

end ControlScript
