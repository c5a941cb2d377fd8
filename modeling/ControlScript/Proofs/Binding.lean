import ControlScript.Proofs.Movement
import ControlScript.Proofs.Reading

/-!
# Statements that are read are well bound

What every statement of an agenda looks like that was read from a control script, on all levels and
in all included texts: its method is concrete and was found under the name that is written at the
position of the statement, every slot has a variable of its group, and every keyword has a value of
its kind.
-/

namespace ControlScript

open Grammar

/-! ## 1. Values of literals -/

namespace Grammar

theorem ItemsText.forall_mem {α : Type} {close : Char} {item : Phrase α} {p : α → Prop}
    (hitem : ∀ {text rest a}, item text rest a → p a) {text rest : List Char} {items : List α}
    (h : ItemsText close item text rest items) : ∀ a ∈ items, p a := by
  induction h with
  | last _ => simp
  | more _ _ hfirst _ ih => exact List.forall_mem_cons.2 ⟨hitem hfirst, ih⟩

theorem ListText.forall_mem {α : Type} {item : Phrase α} {p : α → Prop}
    (hitem : ∀ {text rest a}, item text rest a → p a) {text rest : List Char} {items : List α}
    (h : ListText item text rest items) : ∀ a ∈ items, p a := by
  cases h with
  | empty _ => simp
  | items _ hfirst hothers =>
    exact List.forall_mem_cons.2 ⟨hitem hfirst, hothers.forall_mem (p := p) hitem⟩

theorem FloatText.isFinite {text rest : List Char} {x : Binary64} (h : FloatText text rest x) :
    x.isFinite = true := by
  obtain ⟨numeral, -, hvalue⟩ := h
  rw [DecimalNumeral.value?] at hvalue
  split at hvalue
  · rename_i hfinite
    rwa [Option.some.inj hvalue] at hfinite
  · cases hvalue

/-- A literal of a kind means a value of that kind, which has a literal. -/
theorem LiteralText.literate {kind : ValueKind} {text rest : List Char} {value : Value}
    (h : LiteralText kind text rest value) : value.kind = kind ∧ value.Literate := by
  cases h with
  | string hstring => exact ⟨rfl, hstring.plain⟩
  | integer _ => exact ⟨rfl, trivial⟩
  | float hfloat => exact ⟨rfl, FloatText.isFinite hfloat⟩
  | stringList hlist => exact ⟨rfl, hlist.forall_mem (p := Quotable) StringText.plain⟩
  | integerList _ => exact ⟨rfl, trivial⟩
  | @floatList _ _ items hlist =>
    have hfinite : ∀ x ∈ items, x.isFinite = true :=
      hlist.forall_mem (p := fun x => x.isFinite = true) FloatText.isFinite
    exact ⟨rfl, hfinite⟩

theorem KeywordText.literate {m : Method} {text rest : List Char} {binding : Keyword × Value}
    (h : KeywordText m text rest binding) :
    binding.2.kind = binding.1.kind ∧ binding.2.Literate := by
  cases h with
  | named _ _ _ _ _ hvalue => exact hvalue.literate
  | unnamed _ _ hvalue => exact hvalue.literate

theorem KeywordsText.literate {m : Method} {text rest : List Char}
    {bound : List (Keyword × Value)} (h : KeywordsText m text rest bound) :
    ∀ binding ∈ bound, binding.2.kind = binding.1.kind ∧ binding.2.Literate := by
  induction h with
  | nil _ => simp
  | cons _ hbinding _ _ _ ih => exact List.forall_mem_cons.2 ⟨hbinding.literate, ih⟩

/-- Values that complete bindings of literals are values of literals, those of defaults included. -/
theorem Completes.literate {m : Method} {bound : List (Keyword × Value)} {values : List Value}
    (h : Completes m bound values)
    (hbound : ∀ binding ∈ bound, binding.2.kind = binding.1.kind ∧ binding.2.Literate) :
    List.Forall₂ (fun keyword value => value.kind = keyword.kind ∧ value.Literate) m.keywords
      values := by
  refine List.Forall₂.imp (fun keyword value hvalue => ?_) h
  rcases hvalue with hmem | ⟨-, literal, rest, -, hliteral, -⟩
  · exact hbound _ hmem
  · exact hliteral.literate

/-! ## 2. Names and variables of calls -/

theorem VariableText.registered {vars : VariableRegistry} {text rest : List Char} {id : VariableId}
    (h : VariableText vars text rest id) : ∃ v, vars.get? id = some v := by
  obtain ⟨name, -, hfind⟩ := h
  obtain ⟨v, hv, -⟩ := VariableRegistry.get?_of_find? hfind
  exact ⟨v, hv⟩

/-- The variables in the parentheses of a call are registered. -/
theorem ArgumentsText.registered {w : Workspace} {base : MethodId} {text rest : List Char}
    {ids : List VariableId} (h : ArgumentsText w base text rest ids) :
    ∀ id ∈ ids, ∃ v, w.vars.get? id = some v := by
  cases h with
  | none _ => simp
  | empty _ _ => simp
  | bound _ _ hfirst hothers =>
    exact List.forall_mem_cons.2 ⟨VariableText.registered hfirst,
      hothers.forall_mem (p := fun id => ∃ v, w.vars.get? id = some v) VariableText.registered⟩

/-- A call begins with the name of the method that it calls. -/
theorem CallText.named {w : Workspace} {base : MethodId} {text rest : List Char} {call : Call}
    (h : CallText w base text rest call) :
    ∃ name rest', NameText text rest' name ∧ w.methods.find? name = some base := by
  cases h with
  | mk hname _ hfind _ _ _ => exact ⟨_, _, hname, hfind⟩

end Grammar

/-! ## 3. Well-bound statements -/

/-- A call is well bound to the method `m`, which is `base` or specializes it: one variable of the
    right group is bound to every slot. -/
structure Call.WellBound (w : Workspace) (base : MethodId) (m : Method) (call : Call) : Prop where
  registered : w.methods.get? call.method = some m
  bound : ∀ id ∈ call.outputs ++ call.inputs, ∃ v, w.vars.get? id = some v
  concrete : m.isGeneric = false
  outputs : List.Forall₂ (fun slot id => slot = .only (w.vars.get id).group) m.outputs call.outputs
  inputs : List.Forall₂ (fun slot id => slot = .only (w.vars.get id).group) m.inputs call.inputs
  origin : ∀ b, w.methods.baseOf? call.method = some b ↔
    b = base ∧ (w.methods.get base).isGeneric = true
  ordinary : (w.methods.get base).isGeneric = false → call.method = base
  specialized : (w.methods.get base).isGeneric = true →
    ∃ id ∈ (call.outputs ++ call.inputs).head?,
      w.methods.resolve? base (w.vars.get id).group = some call.method

/-- The body of a statement fits a method: it is an agenda if the method takes one, and otherwise
    there is a value of the right kind for every keyword. -/
def Statement.BodyFits (m : Method) : Statement → Prop
  | .agenda _ _ => m.takesAgenda = true
  | .keywords _ values => m.takesAgenda = false ∧
      List.Forall₂ (fun keyword value => value.kind = keyword.kind ∧ value.Literate) m.keywords
        values

namespace Reading

variable {ctx : Context} {file source : String}

/-- The method that a call resolves to is registered and concrete, and it has an origin exactly when
    it was found through a generic method. -/
theorem entry_of_resolves {w : Workspace} (hr : w.methods.Sound) {name : String}
    {base method : MethodId} {ids : List VariableId} (hfind : w.methods.find? name = some base)
    (hres : Resolves w base ids method) :
    ∃ e, w.methods.entries[method.index]? = some e ∧ e.method.isGeneric = false ∧
      ∀ b, e.origin.map (·.base) = some b ↔ b = base ∧ (w.methods.get base).isGeneric = true := by
  cases hgeneric : (w.methods.get base).isGeneric with
  | false =>
    obtain rfl := hres.ordinary hgeneric
    obtain ⟨m, he, -⟩ := MethodRegistry.entry_of_find? hfind
    refine ⟨_, he, ?_, by simp⟩
    rwa [MethodRegistry.get_of_entry he] at hgeneric
  | true =>
    obtain ⟨id, -, hresolve⟩ := hres.specialized hgeneric
    obtain ⟨m, he⟩ := MethodRegistry.entry_of_resolve? hresolve
    refine ⟨_, he, ?_, by simp [eq_comm]⟩
    have hconcrete := (hr.slots_of_resolve? hresolve).1
    rwa [MethodRegistry.get_of_entry he] at hconcrete

theorem wellBound_of_callText {w : Workspace} (hr : w.methods.Sound) {base : MethodId}
    {text rest : List Char} {call : Call} (h : CallText w base text rest call.unplaced) :
    call.WellBound w base (w.methods.get call.method) := by
  generalize hcall : call.unplaced = call' at h
  cases h with
  | @mk _ _ _ _ name ids method _ _ hfind _ hargs hres =>
    obtain ⟨method', here, outputs, inputs⟩ := call
    simp only [Call.unplaced, Call.mk.injEq, true_and] at hcall
    obtain ⟨rfl, rfl, rfl⟩ := hcall
    obtain ⟨e, he, hconcrete, horigin⟩ := entry_of_resolves hr hfind hres
    have hgroups : List.Forall₂ (fun slot id => slot = .only (w.vars.get id).group)
        ((w.methods.get method').outputs ++ (w.methods.get method').inputs) ids := hres.groups
    constructor
    case registered => rw [MethodRegistry.get_of_entry he, MethodRegistry.get?_of_entry he]
    case bound => rw [List.take_append_drop]; exact hargs.registered
    case concrete => rwa [MethodRegistry.get_of_entry he]
    case outputs => simpa using List.forall₂_take (w.methods.get method').outputs.length hgroups
    case inputs => simpa using List.forall₂_drop (w.methods.get method').outputs.length hgroups
    case origin => rwa [MethodRegistry.baseOf?_of_entry he]
    case ordinary => exact hres.ordinary
    case specialized => rw [List.take_append_drop]; exact hres.specialized

/-- Bodies are read so that they fit the methods of their calls. -/
theorem bodyFits_of_statement (hr : ctx.workspace.methods.Sound)
    {nested : Terminator → Read Agenda} {call : Call} {found : Statement} {s s' : Progress}
    (h : statement ctx nested call s = .ok found s') :
    found.BodyFits (ctx.workspace.methods.get call.method) := by
  have hkeywords := hr.nodup_keywords call.method
  obtain ⟨braced, u, _, h⟩ := statement_eq_ok_iff.1 h
  rcases h with ⟨hagenda, _, _, _, _, _, _, rfl, _⟩ | ⟨hagenda, _, rfl, _⟩ |
    ⟨hagenda, values, v, hbind, rfl, _⟩
  · exact hagenda
  · exact hagenda
  · refine ⟨hagenda, ?_⟩
    cases braced with
    | true =>
      obtain ⟨bound, rest, htext, -, hcomplete, -⟩ := bindKeywords_sound hkeywords hbind
      exact hcomplete.literate htext.literate
    | false =>
      obtain ⟨hcomplete, -⟩ := (bindKeywords_unbraced_iff hkeywords).1 hbind
      exact hcomplete.literate (by simp)

/-- The values of a statement with a fitting body have literals. -/
theorem literate_of_bodyFits {m : Method} {s : Statement} (h : s.BodyFits m) :
    ∀ v ∈ s.values, v.Literate := by
  cases s with
  | agenda _ _ => simp [Statement.values]
  | keywords call values =>
    obtain ⟨-, hvalues⟩ := h
    show ∀ v ∈ values, v.Literate
    generalize m.keywords = keywords at hvalues
    induction hvalues with
    | nil => simp
    | cons hvalue _ ih => exact List.forall_mem_cons.2 ⟨hvalue.2, ih⟩

/-! ## 4. Statements on all levels -/

/-- The texts that a script is read from: its own, and those that can be included. -/
inductive Served (ctx : Context) (file source : String) : IncludedText → Prop where
  | script : Served ctx file source ⟨file, source⟩
  | included {path : String} {text : IncludedText} :
      ctx.texts path = .ok text → Served ctx file source text

/-- The name of the method `base` is written at a position of one of the texts. -/
inductive NamedAt (ctx : Context) (file source : String) : Position → MethodId → Prop where
  | mk {text : IncludedText} {passed rest rest' : List Char} {name : String} {base : MethodId} :
      Served ctx file source text → text.text.toList = passed ++ rest →
        NameText rest rest' name → ctx.workspace.methods.find? name = some base →
        NamedAt ctx file source ⟨text.name, (Place.afterAll {} passed).line,
          (Place.afterAll {} passed).column⟩ base

/-- A cursor is in one of the texts. -/
def Inside (ctx : Context) (file source : String) (c : Cursor) : Prop :=
  ∃ text, Served ctx file source text ∧ c.Within text

theorem Inside.reaches {c c' : Cursor} (h : Inside ctx file source c) (h' : c.Reaches c') :
    Inside ctx file source c' := by
  obtain ⟨text, hserved, hwithin⟩ := h
  exact ⟨text, hserved, hwithin.trans h'⟩

/-- What a statement that is read inside the texts is like. -/
def ReadInside (ctx : Context) (file source : String) (s : Statement) : Prop :=
  ∃ base m, NamedAt ctx file source s.call.position base ∧
    s.call.WellBound ctx.workspace base m ∧ s.BodyFits m

theorem readInside_of_ok (hr : ctx.workspace.methods.Sound) {c u : Cursor}
    (hc : Inside ctx file source c) {call : Call} (hhead : head ctx.workspace c = .ok (.call call) u)
    {nested : Terminator → Read Agenda} {found : Statement} {s s' : Progress}
    (hread : statement ctx nested call s = .ok found s') : ReadInside ctx file source found := by
  obtain ⟨hposition, base, rest, hcall, -⟩ := callText_of_ok hr hhead
  obtain ⟨name, rest', hname, hfind⟩ := hcall.named
  have hbound := wellBound_of_callText hr hcall
  have hfits := bodyFits_of_statement hr hread
  rw [← call_of_statement hread] at hposition hbound hfits
  refine ⟨base, _, ?_, hbound, hfits⟩
  obtain ⟨text, hserved, hfile, run, hrest, hplace⟩ := hc
  rw [hposition, Cursor.position, hfile, hplace]
  exact .mk hserved hrest hname hfind

/-- What a reader of agendas reads inside the texts, it reads statement by statement, and it stays
    inside the texts. -/
structure ReadsInside (ctx : Context) (file source : String) (x : Terminator → Read Agenda) :
    Prop where
  reads : ∀ {terminator s a s'}, Inside ctx file source s.cursor → x terminator s = .ok a s' →
    Inside ctx file source s'.cursor ∧ ∀ u ∈ Agenda.preorder a, ReadInside ctx file source u

section Levels

variable {nested : Terminator → Read Agenda}

theorem ReadsInside.statement (hr : ctx.workspace.methods.Sound)
    (hnested : ReadsInside ctx file source nested) {c u : Cursor} {nesting : Nesting}
    {s' : Progress} {call : Call} {found : Statement} (hc : Inside ctx file source c)
    (hhead : head ctx.workspace c = .ok (.call call) u)
    (hread : statement ctx nested call ⟨u, nesting⟩ = .ok found s') :
    Inside ctx file source s'.cursor ∧ ∀ v ∈ found.preorder, ReadInside ctx file source v := by
  have hfound := readInside_of_ok hr hc hhead hread
  have hu := hc.reaches ((forward_head _).reaches hhead)
  obtain ⟨braced, v, hopen, h⟩ := statement_eq_ok_iff.1 hread
  have hv : Inside ctx file source v := hu.reaches ((forward_openBrace _).reaches hopen)
  rcases h with ⟨_, _, _, body, t, hbody, _, rfl, rfl⟩ | ⟨_, _, rfl, rfl⟩ |
    ⟨_, values, t, hbind, rfl, hend⟩
  · obtain ⟨ht, hbody⟩ := hnested.reads hv hbody
    exact ⟨ht.reaches t.cursor.reaches_advance, List.forall_mem_cons.2 ⟨hfound, hbody⟩⟩
  · exact ⟨hv, List.forall_mem_cons.2 ⟨hfound, by simp [Agenda.preorder]⟩⟩
  · have ht := hv.reaches (reaches_bindKeywords hbind)
    refine ⟨?_, List.forall_mem_cons.2 ⟨hfound, List.forall_mem_nil _⟩⟩
    rcases hend with ⟨_, _, rfl⟩ | ⟨_, rfl⟩
    · exact ht.reaches t.reaches_advance
    · exact ht

theorem ReadsInside.inclusion (hnested : ReadsInside ctx file source nested) {path : String}
    {here : Position} {s s' : Progress} {found : Agenda} (hs : Inside ctx file source s.cursor)
    (h : inclusion ctx nested path here s = .ok found s') :
    Inside ctx file source s'.cursor ∧
      ∀ u ∈ Agenda.preorder found, ReadInside ctx file source u := by
  obtain ⟨text, t, htexts, _, _, hread, rfl⟩ := inclusion_eq_ok_iff.1 h
  exact ⟨hs, (hnested.reads ⟨text, .included htexts, Cursor.within_start text⟩ hread).2⟩

/-- A reader that reads inside the texts gives one that does on the level above. -/
theorem ReadsInside.agendaBy (hr : ctx.workspace.methods.Sound)
    (hnested : ReadsInside ctx file source nested) :
    ReadsInside ctx file source (Reading.agendaBy ctx nested) := by
  refine ⟨fun {terminator s a s'} hs h => ?_⟩
  simp only [Reading.agendaBy, bind_eq_ok_iff, get_eq_ok_iff, and_assoc, exists_and_left,
    exists_eq_left] at h
  -- the statements that were found before have been read inside the texts already
  refine takeTurns_induction (motive := fun before s a s' => Inside ctx file source s.cursor →
    (∀ u ∈ Agenda.preorder before.reverse, ReadInside ctx file source u) →
      Inside ctx file source s'.cursor ∧ ∀ u ∈ Agenda.preorder a, ReadInside ctx file source u)
    (fun h => by simp at h) ?done ?again h hs (by simp [Agenda.preorder])
  case done =>
    intro before s a s' hturn hs hbefore
    rcases agendaTurn_eq_ok_iff.1 hturn with ⟨_, hdone, rfl⟩ |
      ⟨_, _, ⟨_, _, _, _, _, _, hagain⟩ | ⟨_, _, _, _, _, hagain⟩⟩
    · obtain rfl := Turn.done.inj hdone
      exact ⟨hs.reaches s.cursor.reaches_pastBlanks, hbefore⟩
    · exact absurd hagain (by simp)
    · exact absurd hagain (by simp)
  case again =>
    intro before s next v a s' hturn ih hs hbefore
    have hstart := hs.reaches s.cursor.reaches_pastBlanks
    rcases agendaTurn_eq_ok_iff.1 hturn with ⟨_, hdone, _⟩ |
      ⟨_, _, ⟨path, here, u, included, hhead, hread, hagain⟩ | ⟨call, u, first, hhead, hread, hagain⟩⟩
    · exact absurd hdone (by simp)
    · obtain rfl := Turn.again.inj hagain
      have hu := hstart.reaches ((forward_head _).reaches hhead)
      obtain ⟨hv, hincluded⟩ := hnested.inclusion (s := ⟨u, s.nesting⟩) hu hread
      refine ih hv fun w hw => ?_
      rw [List.reverse_append, List.reverse_reverse, Agenda.preorder_append, List.mem_append] at hw
      exact hw.elim (hbefore w) (hincluded w)
    · obtain rfl := Turn.again.inj hagain
      obtain ⟨hv, hfirst⟩ := hnested.statement hr hstart hhead hread
      refine ih hv fun w hw => ?_
      rw [List.reverse_cons, Agenda.preorder_append, List.mem_append, Agenda.preorder,
        Agenda.preorder, List.append_nil] at hw
      exact hw.elim (hbefore w) (hfirst w)

theorem readsInside_agenda (hr : ctx.workspace.methods.Sound) (levels : Nat) :
    ReadsInside ctx file source (agenda ctx levels) := by
  induction levels with
  | zero =>
    refine ReadsInside.agendaBy hr ⟨fun {terminator s a s'} _ h => ?_⟩
    simp at h
  | succ levels ih => exact ih.agendaBy hr

end Levels

/-! ## 5. Scripts -/

theorem readInside_of_parse (hr : ctx.workspace.methods.Sound) {found : Agenda}
    (h : parse ctx file source = .ok found) :
    ∀ s ∈ Agenda.preorder found, ReadInside ctx file source s := by
  obtain ⟨s', h⟩ := parse_eq_ok_iff.1 h
  obtain ⟨call, u, t, hhead, hread, -, -, -⟩ := script_eq_ok_iff.1 h
  have hstart : Inside ctx file source (Cursor.start file source.toList).pastBlanks :=
    ⟨⟨file, source⟩, .script, (Cursor.within_start ⟨file, source⟩).trans
      (Cursor.reaches_pastBlanks _)⟩
  have hstatements := ((readsInside_agenda hr _).statement hr hstart hhead hread).2
  exact fun s hs => hstatements s (List.mem_cons_of_mem _ hs)

/-- All values of an agenda that is read have literals. -/
theorem literate_of_parse (hr : ctx.workspace.methods.Sound) {found : Agenda}
    (h : parse ctx file source = .ok found) :
    ∀ s ∈ Agenda.preorder found, ∀ v ∈ s.values, v.Literate := by
  intro s hs
  obtain ⟨base, m, -, -, hfits⟩ := readInside_of_parse hr h s hs
  exact literate_of_bodyFits hfits

/-- Every statement of an agenda that is read is well bound, on all levels: its method is the one
    that is named at its position, or specializes that one. -/
theorem wellBound_of_parse (hmethods : ctx.workspace.methods.Built) {found : Agenda}
    (h : parse ctx file source = .ok found) :
    ∀ s ∈ Agenda.preorder found, ∃ base m, NamedAt ctx file source s.call.position base ∧
      s.call.WellBound ctx.workspace base m ∧ s.BodyFits m :=
  fun s hs => readInside_of_parse hmethods.sound h s hs

/-- In a script of the small workspace a generic method is called and a default is left out. -/
theorem wellBound_copy : Workspace.small.methods.Built ∧
    ∃ found, parse .small "main" "Arts { Copy(x, y) Wait }" = .ok found ∧
      Agenda.count found = 2 ∧ ∀ s ∈ Agenda.preorder found, ∃ base m,
        NamedAt .small "main" "Arts { Copy(x, y) Wait }" s.call.position base ∧
          s.call.WellBound .small base m ∧ s.BodyFits m := by
  have hread : acceptsWith .small "main" "Arts { Copy(x, y) Wait }"
      (fun a => Agenda.count a = 2) = true := by decide +kernel
  obtain ⟨found, hfound, hcount⟩ := acceptsWith_iff.1 hread
  exact ⟨Workspace.small_methods_built, found, hfound, of_decide_eq_true hcount,
    wellBound_of_parse Workspace.small_methods_built hfound⟩

end Reading

end ControlScript
