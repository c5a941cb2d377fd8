import ControlScript.Proofs.Reading.Keywords
import ControlScript.Proofs.Reading.Variables

/-!
# How far statements go

Where the phrases of statements and agendas begin and end.  A statement begins with a name and takes
text, so a sequence of statements is never longer than its text; and what follows a statement in a
sequence is never taken for a part of the statement.
-/

namespace ControlScript.Grammar

variable {w : Workspace} {texts : TextSource}

/-! ## 1. Calls and directives -/

theorem ArgumentsText.suffix {base : MethodId} {text rest : List Char} {ids : List VariableId}
    (h : ArgumentsText w base text rest ids) : rest <:+ text := by
  cases h with
  | none _ => exact List.suffix_rfl
  | empty _ hclose =>
    exact ((List.suffix_cons _ _).trans hclose.suffix).trans (List.suffix_cons _ _)
  | bound _ hblanks hfirst hitems =>
    obtain ⟨taken, rfl⟩ := hitems.suffix Reading.variableText_proper
    have hsuffix := (List.suffix_cons ')' _).trans (List.suffix_append taken (')' :: rest))
    exact (hsuffix.trans ((Reading.variableText_proper.suffix hfirst).trans hblanks.suffix)).trans
      (List.suffix_cons _ _)

theorem callText_solid {base : MethodId} : Phrase.Solid (CallText w base) := by
  intro text rest call h
  cases h with
  | mk hname _ _ _ _ _ => exact nameText_solid hname

/-- A call begins with a name. -/
theorem CallText.head {base : MethodId} {text rest : List Char} {call : Call}
    (h : CallText w base text rest call) :
    ∃ c t, text = c :: t ∧ Scan.isNameChar c = true := by
  cases h with
  | mk hname _ _ _ _ _ => exact hname.head

/-- The grammar says nothing about where a call is. -/
theorem CallText.unplaced_eq {base : MethodId} {text rest : List Char} {call : Call}
    (h : CallText w base text rest call) : call.unplaced = call := by
  cases h
  rfl

theorem callText_proper {base : MethodId} : Phrase.Proper (CallText w base) := by
  intro text rest call h
  cases h with
  | mk hname _ _ hblanks hargs _ =>
    obtain ⟨s, rfl⟩ := hargs.suffix.trans hblanks.suffix
    obtain ⟨c, t, rfl⟩ := nameText_proper hname
    exact ⟨c, t ++ s, by rw [List.append_assoc]⟩

theorem directiveText_solid : Phrase.Solid DirectiveText := by
  intro text rest path h
  cases h with
  | mk hname _ _ => exact nameText_solid hname

theorem directiveText_proper : Phrase.Proper DirectiveText := by
  intro text rest path h
  cases h with
  | mk hname hblanks hpath =>
    obtain ⟨s, rfl⟩ := (stringText_proper.suffix hpath).trans hblanks.suffix
    obtain ⟨c, t, rfl⟩ := nameText_proper hname
    exact ⟨c, t ++ s, by rw [List.append_assoc]⟩

/-! ## 2. Statements -/

/-- A kind of phrase that ends within its text. -/
def Phrase.Bounded {α : Type} (p : Phrase α) : Prop := ∀ ⦃text rest a⦄, p text rest a → rest <:+ text

theorem BodyText.suffix {m : Method} {nested : Phrase Agenda} (hnested : nested.Bounded)
    {call : Call} {text rest : List Char} {s : Statement} (h : BodyText m nested call text rest s) :
    rest <:+ text := by
  cases h with
  | bareKeywords _ _ _ _ => exact List.suffix_rfl
  | bareAgenda _ _ _ => exact List.suffix_rfl
  | keywords _ hkeywords _ _ =>
    exact ((List.suffix_cons _ _).trans hkeywords.suffix).trans (List.suffix_cons _ _)
  | agenda _ hbody =>
    exact ((List.suffix_cons _ _).trans (hnested hbody)).trans (List.suffix_cons _ _)

theorem statementText_solid {nested : Phrase Agenda} : Phrase.Solid (StatementText w nested) := by
  intro text rest s h
  cases h with
  | mk hcall _ _ => exact callText_solid hcall

theorem statementText_proper {nested : Phrase Agenda} (hnested : nested.Bounded) :
    Phrase.Proper (StatementText w nested) := by
  intro text rest s h
  cases h with
  | mk hcall hblanks hbody =>
    obtain ⟨s, rfl⟩ := (hbody.suffix hnested).trans hblanks.suffix
    obtain ⟨c, t, rfl⟩ := callText_proper hcall
    exact ⟨c, t ++ s, by rw [List.append_assoc]⟩

/-- Agendas inside a text are all that matters for the statements of the text. -/
theorem StatementText.mono {source : List Char} {p q : Phrase Agenda}
    (h : ∀ {text rest a}, text <:+ source → p text rest a → q text rest a)
    {text rest : List Char} {s : Statement} (htext : text <:+ source)
    (hs : StatementText w p text rest s) : StatementText w q text rest s := by
  cases hs with
  | mk hcall hblanks hbody =>
    refine .mk hcall hblanks ?_
    cases hbody with
    | bareKeywords hagenda hdefaulted hbrace hcomplete =>
      exact .bareKeywords hagenda hdefaulted hbrace hcomplete
    | bareAgenda hagenda hdefaulted hbrace => exact .bareAgenda hagenda hdefaulted hbrace
    | keywords hagenda hkeywords hnodup hcomplete =>
      exact .keywords hagenda hkeywords hnodup hcomplete
    | agenda hagenda hnested =>
      refine .agenda hagenda (h (((List.suffix_cons _ _).trans hblanks.suffix).trans ?_) hnested)
      exact (callText_proper.suffix hcall).trans htext

/-- A statement begins with a name. -/
theorem StatementText.head {nested : Phrase Agenda} {text rest : List Char} {s : Statement}
    (h : StatementText w nested text rest s) :
    ∃ c t, text = c :: t ∧ Scan.isNameChar c = true := by
  cases h with
  | mk hcall _ _ => exact hcall.head

theorem DirectiveText.head {text rest : List Char} {path : String}
    (h : DirectiveText text rest path) : ∃ c t, text = c :: t ∧ Scan.isNameChar c = true := by
  cases h with
  | mk hname _ _ => exact hname.head

/-! ## 3. Sequences -/

section Sequences

variable {statement : Phrase Statement} {included : String → Agenda → Prop}

/-- A part of a sequence: a statement, or a directive, which means what it includes. -/
inductive PartText (statement : Phrase Statement) (included : String → Agenda → Prop) :
    Phrase Agenda where
  | statement {text rest : List Char} {s : Statement} :
      statement text rest s → PartText statement included text rest [s]
  | directive {text rest : List Char} {path : String} {found : Agenda} :
      DirectiveText text rest path → included path found →
        PartText statement included text rest found

theorem SequenceText.part {text t₁ t₂ rest : List Char} {found others : Agenda}
    (hblanks : Blanks text t₁) (hpart : PartText statement included t₁ t₂ found)
    (hothers : SequenceText statement included t₂ rest others) :
    SequenceText statement included text rest (found ++ others) := by
  cases hpart with
  | statement hfirst => exact .statement hblanks hfirst hothers
  | directive hfirst hfound => exact .directive hblanks hfirst hfound hothers

/-- Induction on the parts of a sequence. -/
theorem SequenceText.part_induction {rest : List Char} {motive : List Char → Agenda → Prop}
    (hnil : ∀ {text}, Blanks text rest → motive text [])
    (hpart : ∀ {text t₁ t₂ found others}, Blanks text t₁ → PartText statement included t₁ t₂ found →
      SequenceText statement included t₂ rest others → motive t₂ others →
        motive text (found ++ others))
    {text : List Char} {a : Agenda} (h : SequenceText statement included text rest a) :
    motive text a := by
  induction h with
  | nil hlast => exact hnil hlast
  | statement hnext hfirst hothers ih => exact hpart hnext (.statement hfirst) hothers (ih hnil hpart)
  | directive hnext hfirst hfound hothers ih =>
    exact hpart hnext (.directive hfirst hfound) hothers (ih hnil hpart)

theorem partText_solid (hsolid : statement.Solid) : Phrase.Solid (PartText statement included) := by
  intro text rest a h
  cases h with
  | statement hfirst => exact hsolid hfirst
  | directive hfirst _ => exact directiveText_solid hfirst

theorem partText_proper (hproper : statement.Proper) :
    Phrase.Proper (PartText statement included) := by
  intro text rest a h
  cases h with
  | statement hfirst => exact hproper hfirst
  | directive hfirst _ => exact directiveText_proper hfirst

theorem SequenceText.blanks {text t rest : List Char} {a : Agenda} (hblanks : Blanks text t)
    (h : SequenceText statement included t rest a) :
    SequenceText statement included text rest a := by
  cases h with
  | nil hlast => exact .nil (hblanks.trans hlast)
  | statement hnext hfirst hothers => exact .statement (hblanks.trans hnext) hfirst hothers
  | directive hnext hfirst hfound hothers =>
    exact .directive (hblanks.trans hnext) hfirst hfound hothers

/-- One sequence behind another is a sequence. -/
theorem SequenceText.append {text t rest : List Char} {a b : Agenda}
    (h : SequenceText statement included text t a) (h' : SequenceText statement included t rest b) :
    SequenceText statement included text rest (a ++ b) := by
  induction h with
  | nil hlast => exact h'.blanks hlast
  | statement hnext hfirst _ ih => exact .statement hnext hfirst (ih h')
  | directive hnext hfirst hfound _ ih =>
    rw [List.append_assoc]
    exact .directive hnext hfirst hfound (ih h')

/-- A sequence may begin in front of or behind the blanks at its beginning. -/
theorem SequenceText.of_trim (hsolid : statement.Solid) {text text' rest : List Char} {a : Agenda}
    (h : SequenceText statement included text rest a) (hrest : trim rest = rest)
    (htrim : trim text' = trim text) : SequenceText statement included text' rest a := by
  refine SequenceText.blanks (htrim ▸ blanks_trim text') ?_
  cases h with
  | nil hlast =>
    rw [hlast.trim_eq, hrest]
    exact .nil .none
  | statement hnext hfirst hothers =>
    rw [hnext.trim_eq, hsolid hfirst]
    exact .statement .none hfirst hothers
  | directive hnext hfirst hfound hothers =>
    rw [hnext.trim_eq, directiveText_solid hfirst]
    exact .directive .none hfirst hfound hothers

theorem sequenceText_bounded (hproper : statement.Proper) :
    Phrase.Bounded (SequenceText statement included) := by
  intro text rest a h
  induction h with
  | nil hlast => exact hlast.suffix
  | statement hnext hfirst _ ih => exact ih.trans ((hproper.suffix hfirst).trans hnext.suffix)
  | directive hnext hfirst _ _ ih =>
    exact ih.trans ((directiveText_proper.suffix hfirst).trans hnext.suffix)

/-- Neither a parenthesis nor a brace is opened behind the blanks at the beginning. -/
def NothingOpens (text : List Char) : Prop :=
  (trim text).head? ≠ some '(' ∧ (trim text).head? ≠ some '\x7b'

theorem nothingOpens_of_name {text t : List Char} {c : Char} (ht : trim text = c :: t)
    (hc : Scan.isNameChar c = true) : NothingOpens text := by
  rw [NothingOpens, ht, List.head?_cons]
  constructor
  · rintro ⟨⟩
    exact absurd hc (by decide)
  · rintro ⟨⟩
    exact absurd hc (by decide)

/-- What a sequence begins with does not open anything, unless what is left of it does. -/
theorem SequenceText.nothingOpens
    (hhead : ∀ {text rest s}, statement text rest s →
      ∃ c t, text = c :: t ∧ Scan.isNameChar c = true)
    {text rest : List Char} {a : Agenda} (h : SequenceText statement included text rest a)
    (hrest : NothingOpens rest) : NothingOpens text := by
  cases h with
  | nil hlast => rwa [NothingOpens, hlast.trim_eq]
  | statement hnext hfirst _ =>
    obtain ⟨c, t, rfl, hc⟩ := hhead hfirst
    exact nothingOpens_of_name (by rw [hnext.trim_eq, trim_solid (isBlank_of_isNameChar hc).1
      (isBlank_of_isNameChar hc).2]) hc
  | directive hnext hfirst _ _ =>
    obtain ⟨c, t, rfl, hc⟩ := hfirst.head
    exact nothingOpens_of_name (by rw [hnext.trim_eq, trim_solid (isBlank_of_isNameChar hc).1
      (isBlank_of_isNameChar hc).2]) hc

end Sequences

/-- Between the head of a statement and its body there is no parenthesis. -/
theorem BodyText.head_ne {m : Method} {nested : Phrase Agenda} {call : Call}
    {text rest : List Char} {s : Statement} (h : BodyText m nested call text rest s)
    (hrest : NothingOpens rest) : (trim text).head? ≠ some '(' := by
  cases h with
  | bareKeywords _ _ _ _ => exact hrest.1
  | bareAgenda _ _ _ => exact hrest.1
  | keywords _ _ _ _ =>
    rw [trim_solid (by decide) (by decide)]
    simp
  | agenda _ _ =>
    rw [trim_solid (by decide) (by decide)]
    simp

/-! ## 4. Agendas -/

theorem AgendaText.blanks {levels : Nat} {files : List String} {text t rest : List Char} {a : Agenda}
    (hblanks : Blanks text t) (h : AgendaText w texts levels files t rest a) :
    AgendaText w texts levels files text rest a := by
  cases levels with
  | zero => exact h.elim
  | succ levels => exact SequenceText.blanks hblanks h

theorem agendaText_bounded (levels : Nat) (files : List String) :
    Phrase.Bounded (AgendaText w texts levels files) := by
  induction levels generalizing files with
  | zero => exact fun _ _ _ h => h.elim
  | succ levels ih => exact sequenceText_bounded (statementText_proper (ih files))

/-- With more levels left and fewer files open, there are only more agendas. -/
theorem AgendaText.mono {levels levels' : Nat} (hlevels : levels ≤ levels')
    {files files' : List String}
    (hfiles : ∀ file ∈ files', file ∈ files) {text rest : List Char} {a : Agenda}
    (h : AgendaText w texts levels files text rest a) :
    AgendaText w texts levels' files' text rest a := by
  induction levels generalizing levels' files files' text rest a with
  | zero => exact h.elim
  | succ levels ih =>
    obtain ⟨more, rfl⟩ : ∃ more, levels' = more + 1 := ⟨levels' - 1, by omega⟩
    have hmore : levels ≤ more := by omega
    have h' : SequenceText (StatementText w (AgendaText w texts levels files)) _ text rest a := h
    show SequenceText (StatementText w (AgendaText w texts more files')) _ text rest a
    clear h
    induction h' with
    | nil hlast => exact .nil hlast
    | statement hnext hfirst _ ihothers =>
      refine .statement hnext (hfirst.mono ?_ List.suffix_rfl) ihothers
      exact fun _ h => ih hmore hfiles h
    | directive hnext hfirst hfound _ ihothers =>
      obtain ⟨found, htext, hclosed, hinside⟩ := hfound
      refine .directive hnext hfirst ⟨found, htext, ?_, ih hmore ?_ hinside⟩ ihothers
      · exact fun hopen => hclosed (hfiles _ hopen)
      · intro file hfile
        rw [List.mem_append] at hfile ⊢
        exact hfile.imp_left (hfiles file)

end ControlScript.Grammar
