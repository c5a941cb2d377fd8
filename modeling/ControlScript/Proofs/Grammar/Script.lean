import ControlScript.Proofs.Agenda
import ControlScript.Proofs.Grammar.Token
import ControlScript.Reading.Statement
import Mathlib.Data.List.Forall2

/-!
# The grammar of control scripts

What calls, bodies, agendas and scripts look like.  The grammar says nothing about positions, so the
statements that it derives are nowhere.  How deep braces and included texts may be nested is the
number of levels that a phrase may enter.
-/

namespace ControlScript.Grammar

/-! ## 1. Calls -/

/-- The name of a registered variable. -/
def VariableText (vars : VariableRegistry) : Phrase VariableId := fun text rest id =>
  ∃ name, NameText text rest name ∧ vars.find? name = some id

/-- The variables behind the name of a method: a method without slots needs no parentheses. -/
inductive ArgumentsText (w : Workspace) (base : MethodId) : Phrase (List VariableId) where
  | none {text : List Char} :
      (w.methods.get base).slotCount = 0 → ArgumentsText w base text text []
  | empty {text rest : List Char} :
      (w.methods.get base).slotCount = 0 → Blanks text (')' :: rest) →
        ArgumentsText w base ('(' :: text) rest []
  | bound {text t₁ t₂ rest : List Char} {id : VariableId} {ids : List VariableId} :
      (w.methods.get base).slotCount ≠ 0 → Blanks text t₁ → VariableText w.vars t₁ t₂ id →
        ItemsText ')' (VariableText w.vars) t₂ rest ids →
        ArgumentsText w base ('(' :: text) rest (id :: ids)

/-- The method that is meant when `base` is called with some variables: `base` itself or, when it
    is generic, its specialization for the group of the first variable.  There is a variable of
    the right group for every slot. -/
structure Resolves (w : Workspace) (base : MethodId) (ids : List VariableId) (method : MethodId) :
    Prop where
  count : ids.length = (w.methods.get base).slotCount
  ordinary : (w.methods.get base).isGeneric = false → method = base
  specialized : (w.methods.get base).isGeneric = true →
    ∃ id ∈ ids.head?, w.methods.resolve? base (w.vars.get id).group = some method
  groups : List.Forall₂ (fun slot id => slot = .only (w.vars.get id).group)
    (w.methods.get method).slots ids

/-- A call that begins with the name of `base`, up to its body. -/
inductive CallText (w : Workspace) (base : MethodId) : Phrase Call where
  | mk {text t₁ t₂ rest : List Char} {name : String} {ids : List VariableId} {method : MethodId} :
      NameText text t₁ name → name ≠ includeDirective → w.methods.find? name = some base →
        Blanks t₁ t₂ → ArgumentsText w base t₂ rest ids → Resolves w base ids method →
        CallText w base text rest
          ⟨method, .nowhere, ids.take (w.methods.get method).outputs.length,
            ids.drop (w.methods.get method).outputs.length⟩

/-! ## 2. Keywords -/

/-- A keyword with its literal.  The name of an only keyword is left out exactly when the text does
    not begin with a letter. -/
inductive KeywordText (m : Method) : Phrase (Keyword × Value) where
  | named {text t₁ t₂ t₃ rest : List Char} {name : String} {keyword : Keyword} {value : Value} :
      NameText text t₁ name → (m.keywords.length = 1 → ∃ c ∈ text.head?, c.isAlpha = true) →
        m.keywords.find? (·.name = name) = some keyword → Blanks t₁ ('=' :: t₂) →
        Blanks t₂ t₃ → LiteralText keyword.kind t₃ rest value →
        KeywordText m text rest (keyword, value)
  | unnamed {text rest : List Char} {keyword : Keyword} {value : Value} :
      m.keywords = [keyword] → (∀ c ∈ text.head?, c.isAlpha = false) →
        LiteralText keyword.kind text rest value → KeywordText m text rest (keyword, value)

/-- A comma, which may be left out. -/
inductive CommaText : List Char → List Char → Prop where
  | comma {rest : List Char} : CommaText (',' :: rest) rest
  | none {text : List Char} : CommaText text text

/-- Keywords with their literals, each with a comma behind it or not. -/
inductive KeywordsText (m : Method) : Phrase (List (Keyword × Value)) where
  | nil {text rest : List Char} : Blanks text rest → KeywordsText m text rest []
  | cons {text t₁ t₂ t₃ t₄ rest : List Char} {binding : Keyword × Value}
      {others : List (Keyword × Value)} :
      Blanks text t₁ → KeywordText m t₁ t₂ binding → Blanks t₂ t₃ → CommaText t₃ t₄ →
        KeywordsText m t₄ rest others → KeywordsText m text rest (binding :: others)

/-- The default of a keyword: a literal with nothing but blanks behind it, and with nothing but
    line feeds in front of it. -/
def DefaultText (keyword : Keyword) (value : Value) : Prop :=
  ∃ literal rest, keyword.default = some literal ∧
    LiteralText keyword.kind (dropFeeds literal.toList) rest value ∧ Blanks rest []

/-- Every keyword of a method has the value that is bound to it, or its default. -/
def Completes (m : Method) (bound : List (Keyword × Value)) (values : List Value) : Prop :=
  List.Forall₂ (fun keyword value => (keyword, value) ∈ bound ∨
    (∀ w, (keyword, w) ∉ bound) ∧ DefaultText keyword value) m.keywords values

/-! ## 3. Statements -/

/-- The body of a call.  Braces are left out only when everything in them may be left out, and
    when there is no brace that could be taken for one of them. -/
inductive BodyText (m : Method) (nested : Phrase Agenda) (call : Call) : Phrase Statement where
  | bareKeywords {text : List Char} {values : List Value} :
      m.takesAgenda = false → m.allDefaulted = true → text.head? ≠ some '\x7b' →
        Completes m [] values → BodyText m nested call text text (.keywords call values)
  | bareAgenda {text : List Char} :
      m.takesAgenda = true → m.allDefaulted = true → text.head? ≠ some '\x7b' →
        BodyText m nested call text text (.agenda call [])
  | keywords {text rest : List Char} {bound : List (Keyword × Value)} {values : List Value} :
      m.takesAgenda = false → KeywordsText m text ('\x7d' :: rest) bound →
        (bound.map Prod.fst).Nodup → Completes m bound values →
        BodyText m nested call ('\x7b' :: text) rest (.keywords call values)
  | agenda {text rest : List Char} {body : Agenda} :
      m.takesAgenda = true → nested text ('\x7d' :: rest) body →
        BodyText m nested call ('\x7b' :: text) rest (.agenda call body)

/-- A statement: a call and its body. -/
inductive StatementText (w : Workspace) (nested : Phrase Agenda) : Phrase Statement where
  | mk {text t₁ t₂ rest : List Char} {base : MethodId} {call : Call} {s : Statement} :
      CallText w base text t₁ call → Blanks t₁ t₂ →
        BodyText (w.methods.get call.method) nested call t₂ rest s →
        StatementText w nested text rest s

/-- An include directive, which means its path. -/
inductive DirectiveText : Phrase String where
  | mk {text t₁ t₂ rest : List Char} {path : String} :
      NameText text t₁ includeDirective → Blanks t₁ t₂ → StringText t₂ rest path →
        DirectiveText text rest path

/-! ## 4. Agendas and scripts -/

/-- Statements and included agendas, one behind the other. -/
inductive SequenceText (statement : Phrase Statement) (included : String → Agenda → Prop) :
    Phrase Agenda where
  | nil {text rest : List Char} : Blanks text rest → SequenceText statement included text rest []
  | statement {text t₁ t₂ rest : List Char} {s : Statement} {others : Agenda} :
      Blanks text t₁ → statement t₁ t₂ s → SequenceText statement included t₂ rest others →
        SequenceText statement included text rest (s :: others)
  | directive {text t₁ t₂ rest : List Char} {path : String} {found others : Agenda} :
      Blanks text t₁ → DirectiveText t₁ t₂ path → included path found →
        SequenceText statement included t₂ rest others →
        SequenceText statement included text rest (found ++ others)

/-- The agendas that may be entered when `levels` levels are left and some files are open: one
    level is used up by the agenda itself. -/
def AgendaText (w : Workspace) (texts : TextSource) :
    (levels : Nat) → (files : List String) → Phrase Agenda
  | 0, _ => fun _ _ _ => False
  | levels + 1, files =>
      SequenceText (StatementText w (AgendaText w texts levels files)) fun path found =>
        ∃ text, texts path = .ok text ∧ text.name ∉ files ∧
          AgendaText w texts levels (files ++ [text.name]) text.text.toList [] found

/-- A control script: one statement of the entry method, with an agenda, and blanks around it. -/
inductive ScriptText (w : Workspace) (nested : Phrase Agenda) (entry : String)
    (source : List Char) (agenda : Agenda) : Prop where
  | mk {t₁ t₂ : List Char} {call : Call} :
      Blanks source t₁ → StatementText w nested t₁ t₂ (.agenda call agenda) → Blanks t₂ [] →
        (w.methods.get call.method).name = entry → ScriptText w nested entry source agenda

end ControlScript.Grammar
