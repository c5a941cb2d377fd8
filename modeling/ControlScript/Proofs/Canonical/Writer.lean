import ControlScript.Canonical.Writer
import ControlScript.Proofs.Canonical.Texts

/-!
# What a writer writes

At the start of a line, a writer on some level writes a statement as its lines on that level, and is
at the start of a line on the same level again.  So the level of a line is the one that the writer
is on, whether bindings fit is decided on the length of the whole line, and the text is the lines
one after the other.
-/

namespace ControlScript.Canonical

variable {w : Workspace} {level : Nat}

namespace Writer

variable {out : Writer}

/-! ## 1. Lines -/

/-- A writer that is at the start of a line. -/
structure AtStart (out : Writer) (level : Nat) : Prop where
  level_eq : out.level = level
  atLineStart : out.atLineStart = true
  lineLength : out.lineLength = 0

/-- The writer behind some lines. -/
def put (out : Writer) (lines : List Line) : Writer :=
  { out with output := out.output ++ String.join (lines.map out.layout.render) }

theorem AtStart.put (h : out.AtStart level) (lines : List Line) : (out.put lines).AtStart level :=
  ⟨h.level_eq, h.atLineStart, h.lineLength⟩

theorem AtStart.indent (h : out.AtStart level) : out.indent.AtStart (level + 1) :=
  ⟨congrArg (· + 1) h.level_eq, h.atLineStart, h.lineLength⟩

theorem put_nil (out : Writer) : out.put [] = out := by
  simp [Writer.put]

theorem put_append (out : Writer) (lines others : List Line) :
    out.put (lines ++ others) = (out.put lines).put others := by
  simp [Writer.put, String.append_assoc]

/-- Going up leads back to the level that the writer has come down from. -/
theorem dedent_put_indent (out : Writer) (lines : List Line) :
    (out.indent.put lines).dedent = out.put lines := rfl

theorem AtStart.writeln (h : out.AtStart level) {text : String} (hne : text ≠ "") :
    out.writeln text = out.put [⟨level, text⟩] := by
  obtain ⟨rfl, hstart, hlength⟩ := h
  have htext : text.isEmpty = false := by simpa using hne
  simp [Writer.writeln, write, writeIndent, newline, Writer.put, Layout.render, htext, hstart,
    hlength, String.append_assoc]

/-- At the start of a line, a text that exceeds the line is one whose line is too long. -/
theorem AtStart.wouldExceed (h : out.AtStart level) (text : String) :
    (!out.wouldExceed text.length)
      = decide (out.layout.lineWidth ⟨level, text⟩ ≤ out.layout.lineLength) := by
  rw [Writer.wouldExceed, if_pos h.atLineStart, h.level_eq, Layout.lineWidth, ← decide_not]
  exact decide_eq_decide.2 Nat.not_lt

/-! ## 2. Blocks -/

theorem AtStart.block (h : out.AtStart level) (head : String) {inside : Writer → Writer}
    {lines : List Line} (hinside : ∀ {o : Writer}, o.AtStart (level + 1) → o.layout = out.layout →
      inside o = o.put lines) :
    out.block head inside = out.put (Canonical.block level head lines) := by
  have hopen : out.writeln (head ++ " \x7b") = out.put [⟨level, head ++ " \x7b"⟩] :=
    h.writeln (by simp)
  have hbody := hinside (h.put [⟨level, head ++ " \x7b"⟩]).indent rfl
  have hclose := ((h.put [⟨level, head ++ " \x7b"⟩]).put lines).writeln (by decide : "\x7d" ≠ "")
  rw [Writer.block, hopen, hbody, dedent_put_indent, hclose, ← put_append, ← put_append]
  rfl

theorem AtStart.agendaBlock (h : out.AtStart level) (head : String) {body : Agenda}
    {inside : Writer → Writer} {lines : List Line} (hlines : lines = [] ↔ body = [])
    (hinside : ∀ {o : Writer}, o.AtStart (level + 1) → o.layout = out.layout →
      inside o = o.put lines) :
    out.agendaBlock head body inside = out.put (Canonical.agendaBlock level head lines) := by
  rw [Writer.agendaBlock, Canonical.agendaBlock]
  simp only [List.isEmpty_iff, hlines]
  split
  · exact h.writeln (by simp)
  · exact h.block head hinside

theorem AtStart.bindings (h : out.AtStart level) {bindings : List String}
    (hne : ∀ s ∈ bindings, s ≠ "") :
    bindings.foldl Writer.writeln out = out.put (bindings.map (Line.mk level)) := by
  induction bindings generalizing out with
  | nil => exact (put_nil out).symm
  | cons s others ih =>
    obtain ⟨hs, hothers⟩ := List.forall_mem_cons.1 hne
    rw [List.foldl_cons, h.writeln hs, ih (h.put _) hothers, ← put_append]
    rfl

/-- The bindings of a statement are on one line or in a block as the lines of the statement have
    them. -/
theorem AtStart.keywords (h : out.AtStart level) {head : String} {values : List Value}
    {bindings : List String} (hhead : head ≠ "") (hvalues : bindings = [] ↔ values = [])
    (hne : ∀ s ∈ bindings, s ≠ "") :
    out.keywords head values bindings
      = out.put (keywordLines out.layout level head bindings) := by
  rw [Writer.keywords, keywordLines]
  simp only [List.isEmpty_iff, hvalues, h.wouldExceed]
  by_cases hnone : values = []
  · rw [if_pos hnone, if_pos hnone]
    exact h.writeln hhead
  rw [if_neg hnone, if_neg hnone]
  have hline := h.writeln (by simp : head ++ " \x7b " ++ ", ".intercalate bindings ++ " \x7d" ≠ "")
  have hblock : out.block head (fun o => bindings.foldl Writer.writeln o)
      = out.put (Canonical.block level head (bindings.map (Line.mk (level + 1)))) :=
    h.block head fun ho _ => ho.bindings hne
  rw [hline, hblock, Layout.inLine]
  cases out.layout.keywords with
  | auto => exact (apply_ite _ _ _ _).symm
  | inline => rfl
  | multiline => rfl

end Writer

/-! ## 3. Statements -/

theorem block_ne_nil (level : Nat) (head : String) (inside : List Line) :
    block level head inside ≠ [] := List.cons_ne_nil _ _

theorem statementLines_ne_nil (w : Workspace) (layout : Layout) (level : Nat) (s : Statement) :
    statementLines w layout level s ≠ [] := by
  cases s with
  | keywords call values =>
    rw [statementLines, keywordLines]
    split
    · exact List.cons_ne_nil _ _
    · dsimp only
      split
      · exact List.cons_ne_nil _ _
      · exact block_ne_nil _ _ _
  | agenda call body =>
    rw [statementLines, agendaBlock]
    split
    · exact List.cons_ne_nil _ _
    · exact block_ne_nil _ _ _

theorem agendaLines_eq_nil_iff {layout : Layout} {a : List Statement} :
    agendaLines w layout level a = [] ↔ a = [] := by
  cases a with
  | nil => exact ⟨fun _ => rfl, fun _ => rfl⟩
  | cons s a =>
    rw [agendaLines, List.append_eq_nil_iff]
    exact ⟨fun h => absurd h.1 (statementLines_ne_nil w layout level s), fun h => by cases h⟩

namespace Writer

mutual

/-- At the start of a line, a statement is written as its lines. -/
theorem AtStart.statement {out : Writer} {level : Nat} (h : out.AtStart level) (s : Statement)
    (hplain : ∀ t ∈ s.preorder, t.Plain w) :
    Writer.statement w s out = out.put (statementLines w out.layout level s) := by
  match s with
  | .keywords call values =>
    have hs := List.forall_mem_singleton.1 hplain
    rw [Writer.statement, statementLines]
    refine h.keywords hs.line.ne_empty ?_ fun s hs => ?_
    · rw [← List.length_eq_zero_iff, ← List.length_eq_zero_iff, List.length_zipWith,
        hs.valued call values rfl, Nat.min_self]
    · obtain ⟨_, _, _, _, rfl⟩ := exists_of_mem_bindings hs
      simp [binding]
  | .agenda call body =>
    have hbody := (List.forall_mem_cons.1 hplain).2
    rw [Writer.statement, statementLines]
    refine h.agendaBlock _ agendaLines_eq_nil_iff fun ho hlayout => ?_
    rw [ho.statements body hbody, hlayout]

/-- The statements of an agenda are written as the lines of the agenda. -/
theorem AtStart.statements {out : Writer} {level : Nat} (h : out.AtStart level)
    (a : List Statement) (hplain : ∀ t ∈ Agenda.preorder a, t.Plain w) :
    Writer.statements w a out = out.put (agendaLines w out.layout level a) := by
  match a with
  | [] => exact (put_nil out).symm
  | s :: others =>
    obtain ⟨hs, hothers⟩ := List.forall_mem_append.1 hplain
    rw [Writer.statements, h.statement s hs, (h.put _).statements others hothers, ← put_append]
    rfl

end

end Writer

/-! ## 4. Scripts -/

/-- A writer that begins on the outermost level writes the canonical text. -/
theorem print_eq_text {a : Agenda} (hplain : ∀ s ∈ Agenda.preorder a, s.Plain w) (layout : Layout)
    (entry : String) : print w layout entry a = text w layout entry a := by
  let out : Writer := { layout }
  have hstart : out.AtStart 0 := ⟨rfl, rfl, rfl⟩
  have hlines : agendaLines w layout 1 a = [] ↔ a = [] := agendaLines_eq_nil_iff
  have hwritten : out.agendaBlock entry a (Writer.statements w a)
      = out.put (lines w layout entry a) := by
    refine hstart.agendaBlock entry hlines fun ho hlayout => ?_
    rw [ho.statements a hplain, hlayout]
  rw [print, hwritten, text]
  exact String.empty_append

end ControlScript.Canonical
