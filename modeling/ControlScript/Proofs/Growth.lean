import ControlScript.Agenda.Json
import ControlScript.Canonical
import ControlScript.Proofs.Binding
import ControlScript.Proofs.Nesting
import ControlScript.Proofs.Registration.Views

/-!
# Growing registries

Whatever is registered later, and whichever texts can be included later under new paths, a control
script that was accepted is accepted again with the same agenda, and that agenda is written and
shown in the same way.  Registration only adds entries behind the others: what was found is still
found, under the same id.
-/

namespace ControlScript

/-! ## 1. Entries behind the others -/

/-- A workspace whose registries begin with those of another one. -/
structure Workspace.Grows (w w' : Workspace) : Prop where
  methods : w.methods.entries <+: w'.methods.entries
  vars : w.vars.entries <+: w'.vars.entries

namespace Workspace.Grows

variable {w w' : Workspace}

theorem refl (w : Workspace) : w.Grows w := ⟨List.prefix_rfl, List.prefix_rfl⟩

theorem trans {w'' : Workspace} (h : w.Grows w') (h' : w'.Grows w'') : w.Grows w'' :=
  ⟨h.methods.trans h'.methods, h.vars.trans h'.vars⟩

theorem entry (h : w.Grows w') {i : Nat} {e : RegisteredMethod}
    (he : w.methods.entries[i]? = some e) : w'.methods.entries[i]? = some e := by
  obtain ⟨hlt, -⟩ := List.getElem?_eq_some_iff.1 he
  obtain ⟨added, hadded⟩ := h.methods
  rw [← hadded, List.getElem?_append_left hlt, he]

theorem findFirst? (h : w.Grows w') {p : RegisteredMethod → Bool} {id : MethodId}
    (hfind : w.methods.findFirst? p = some id) : w'.methods.findFirst? p = some id := by
  obtain ⟨i, hi, rfl⟩ := Option.map_eq_some_iff.1 hfind
  exact Option.map_eq_some_iff.2 ⟨i, h.methods.findIdx?_eq_some hi, rfl⟩

theorem find? (h : w.Grows w') {name : String} {id : MethodId}
    (hfind : w.methods.find? name = some id) : w'.methods.find? name = some id := h.findFirst? hfind

theorem resolve? (h : w.Grows w') {base id : MethodId} {group : Group}
    (hresolve : w.methods.resolve? base group = some id) :
    w'.methods.resolve? base group = some id := h.findFirst? hresolve

theorem findVariable? (h : w.Grows w') {name : String} {id : VariableId}
    (hfind : w.vars.find? name = some id) : w'.vars.find? name = some id := by
  obtain ⟨i, hi, rfl⟩ := Option.map_eq_some_iff.1 hfind
  exact Option.map_eq_some_iff.2 ⟨i, h.vars.findIdx?_eq_some hi, rfl⟩

theorem getVariable (h : w.Grows w') {id : VariableId} {v : Variable}
    (hv : w.vars.get? id = some v) : w'.vars.get id = w.vars.get id := by
  obtain ⟨hlt, -⟩ := List.getElem?_eq_some_iff.1 hv
  obtain ⟨added, hadded⟩ := h.vars
  rw [VariableRegistry.get, VariableRegistry.get, VariableRegistry.get?, VariableRegistry.get?,
    ← hadded, List.getElem?_append_left hlt]

end Workspace.Grows

/-! ## 2. Ids in use -/

/-- An id that some entry of the registry has. -/
def MethodRegistry.InUse (r : MethodRegistry) (id : MethodId) : Prop :=
  ∃ e, r.entries[id.index]? = some e

namespace MethodRegistry

variable {r : MethodRegistry}

theorem inUse_of_find? {name : String} {id : MethodId} (h : r.find? name = some id) : r.InUse id := by
  obtain ⟨m, he, -⟩ := entry_of_find? h
  exact ⟨_, he⟩

theorem inUse_of_resolve? {base id : MethodId} {group : Group}
    (h : r.resolve? base group = some id) : r.InUse id := by
  obtain ⟨m, he⟩ := entry_of_resolve? h
  exact ⟨_, he⟩

end MethodRegistry

namespace Workspace.Grows

variable {w w' : Workspace} {id : MethodId}

theorem method (h : w.Grows w') (hid : w.methods.InUse id) :
    w'.methods.get id = w.methods.get id := by
  obtain ⟨e, he⟩ := hid
  rw [MethodRegistry.get_of_entry he, MethodRegistry.get_of_entry (h.entry he)]

theorem baseOf? (h : w.Grows w') (hid : w.methods.InUse id) :
    w'.methods.baseOf? id = w.methods.baseOf? id := by
  obtain ⟨e, he⟩ := hid
  rw [MethodRegistry.baseOf?_of_entry he, MethodRegistry.baseOf?_of_entry (h.entry he)]

end Workspace.Grows

/-! ## 3. Declarations -/

/-- A call that registers a method or a variable. -/
inductive Declaration where
  | method (call : Registration)
  | var (v : Variable)

/-- The workspace behind a declaration; one that is refused leaves it as it was. -/
def Workspace.declare (w : Workspace) : Declaration → Workspace
  | .method call => { w with methods := w.methods.register call }
  | .var v =>
    match w.vars.insert v with
    | .ok (_, vars) => { w with vars := vars }
    | .error _ => w

theorem MethodRegistry.prefix_register (r : MethodRegistry) (call : Registration) :
    r.entries <+: (r.register call).entries := by
  cases hrun : call.run r with
  | error e =>
    have hsame : r.register call = r := register_of_error hrun
    exact hsame.symm ▸ List.prefix_rfl
  | ok answer =>
    obtain ⟨entry, -, -, hr⟩ := push_of_run hrun
    rw [register_of_ok hrun, hr]
    exact List.prefix_append _ _

namespace Workspace

variable {w : Workspace}

theorem grows_declare (w : Workspace) (declaration : Declaration) :
    w.Grows (w.declare declaration) := by
  cases declaration with
  | method call => exact ⟨w.methods.prefix_register call, List.prefix_rfl⟩
  | var v =>
    -- a name that is taken refuses the variable, and any other one adds it behind the others
    rw [declare, VariableRegistry.insert]
    split
    · rename_i found vars hinsert
      split at hinsert
      · cases hinsert
      · cases hinsert
        exact ⟨List.prefix_rfl, List.prefix_append _ _⟩
    · exact .refl w

theorem grows_foldl (w : Workspace) (declarations : List Declaration) :
    w.Grows (declarations.foldl declare w) := by
  induction declarations generalizing w with
  | nil => exact .refl w
  | cons declaration declarations ih => exact (w.grows_declare declaration).trans (ih _)

end Workspace

namespace Reading

/-! ## 4. Readers -/

/-- What one reader reads, a second one reads in the same state, and both end in the same state. -/
def Retained {ε σ α : Type} (x y : EStateM ε σ α) : Prop :=
  ∀ s a t, x s = .ok a t → y s = .ok a t

section Heads

variable {w w' : Workspace} {base : MethodId} {c c' : Cursor}

theorem registeredVariable_grown (h : w.Grows w') :
    Retained (registeredVariable w.vars) (registeredVariable w'.vars) := by
  intro s id t hread
  obtain ⟨name, hname, hfind⟩ := registeredVariable_eq_ok_iff.1 hread
  exact registeredVariable_eq_ok_iff.2 ⟨name, hname, h.findVariable? hfind⟩

/-- The slots are bound in the same way, to a method that is in use. -/
theorem bindSlots_grown (h : w.Grows w') (hbase : w.methods.InUse base) {index : Nat}
    {slots : List Slot} {known : Option MethodId} {method : MethodId} {ids : List VariableId}
    (hknown : ∀ m, known = some m → w.methods.InUse m)
    (hread : bindSlots w base index slots known c = .ok (method, ids) c') :
    w.methods.InUse method ∧ bindSlots w' base index slots known c = .ok (method, ids) c' := by
  induction slots generalizing index known c ids with
  | nil =>
    refine ⟨?_, hread⟩
    rw [bindSlots, pure_eq_ok_iff, Prod.mk.injEq] at hread
    obtain ⟨⟨rfl, -⟩, -⟩ := hread
    cases known with
    | none => exact hbase
    | some m => exact hknown m rfl
  | cons slot slots ih =>
    obtain ⟨hcomma, id, u, m, others, hvar, hm, haccepts, hothers, rfl⟩ := bindSlots_cons_iff.1 hread
    obtain ⟨name, hname, hfind⟩ := registeredVariable_eq_ok_iff.1 hvar
    obtain ⟨v, hv, -⟩ := VariableRegistry.get?_of_find? hfind
    -- the method of the other slots was known before, or was found by the group of the variable
    have huse : w.methods.InUse m := by
      rcases hm with hm | ⟨-, hm⟩
      · exact hknown m hm
      · exact MethodRegistry.inUse_of_resolve? hm
    have hsome : ∀ m', some m = some m' → w.methods.InUse m' := by
      rintro m' ⟨⟩
      exact huse
    obtain ⟨hmethod, hothers'⟩ := ih hsome hothers
    refine ⟨hmethod, bindSlots_cons_iff.2 ⟨hcomma, id, u, m, others, ?_, ?_, ?_, hothers', rfl⟩⟩
    · exact registeredVariable_grown h _ _ _ hvar
    · rw [h.getVariable hv]
      exact hm.imp_right (And.imp_right h.resolve?)
    · rw [h.getVariable hv, h.method huse]
      exact haccepts

theorem bindVariables_grown (h : w.Grows w') (hbase : w.methods.InUse base) {b : Binding}
    (hread : bindVariables w base c = .ok b c') :
    w.methods.InUse b.method ∧ bindVariables w' base c = .ok b c' := by
  have hget := h.method hbase
  by_cases hcount : (w.methods.get base).slotCount = 0
  · have hcount' : (w'.methods.get base).slotCount = 0 := by rwa [hget]
    obtain ⟨rfl, hend⟩ := (bindVariables_slotless_iff hcount).1 hread
    exact ⟨hbase, (bindVariables_slotless_iff hcount').2 ⟨rfl, hend⟩⟩
  · have hcount' : (w'.methods.get base).slotCount ≠ 0 := by rwa [hget]
    obtain ⟨hopen, method, ids, u, hslots, hclose, rfl, rfl⟩ :=
      (bindVariables_slots_iff hcount).1 hread
    have hknown : ∀ m, knownMethod? w base = some m → w.methods.InUse m := by
      intro m hm
      rw [knownMethod?] at hm
      split at hm
      · cases hm
      · cases hm
        exact hbase
    obtain ⟨hmethod, hslots'⟩ := bindSlots_grown h hbase hknown hslots
    refine ⟨hmethod, (bindVariables_slots_iff hcount').2 ⟨hopen, method, ids, u, ?_, hclose, rfl, ?_⟩⟩
    · rw [knownMethod?, hget]
      exact hslots'
    · rw [bindingOf, bindingOf, h.method hmethod]

theorem head_grown (h : w.Grows w') : Retained (head w) (head w') := by
  intro s found t hread
  rw [head_eq_ok_iff] at hread ⊢
  rcases hread with hdirective | ⟨name, u, base, b, hinclude, hname, hfind, hbind, rfl⟩
  · exact .inl hdirective
  · have hbase := MethodRegistry.inUse_of_find? hfind
    exact .inr ⟨name, u, base, b, hinclude, hname, h.find? hfind,
      (bindVariables_grown h hbase hbind).2, rfl⟩

theorem inUse_of_head {call : Call} (hread : head w c = .ok (.call call) c') :
    w.methods.InUse call.method := by
  rcases head_eq_ok_iff.1 hread with ⟨_, _, _, _, heq⟩ | ⟨name, u, base, b, -, -, hfind, hbind, heq⟩
  · exact absurd heq (by simp)
  · obtain rfl := Head.call.inj heq
    exact (bindVariables_grown (.refl w) (MethodRegistry.inUse_of_find? hfind) hbind).1

end Heads

/-- A context with a grown workspace, in which every text is found that was found before. -/
structure Context.Grows (ctx ctx' : Context) : Prop where
  workspace : ctx.workspace.Grows ctx'.workspace
  texts : ∀ {path text}, ctx.texts path = .ok text → ctx'.texts path = .ok text
  settings : ctx'.settings = ctx.settings

section Levels

variable {ctx ctx' : Context} {nested nested' : Terminator → Read Agenda}

theorem statement_grown (h : ctx.Grows ctx')
    (hnested : ∀ terminator, Retained (nested terminator) (nested' terminator)) {call : Call}
    (hcall : ctx.workspace.methods.InUse call.method) :
    Retained (statement ctx nested call) (statement ctx' nested' call) := by
  intro s found t hread
  rw [statement_eq_ok_iff] at hread ⊢
  rw [h.workspace.method hcall, h.settings]
  obtain ⟨braced, u, hopen, hbody⟩ := hread
  refine ⟨braced, u, hopen, ?_⟩
  rcases hbody with ⟨hagenda, hbraced, hlevel, body, v, hread, hclose, rfl, rfl⟩ | hbare | hkeywords
  · exact .inl ⟨hagenda, hbraced, hlevel, body, v, hnested _ _ _ _ hread, hclose, rfl, rfl⟩
  · exact .inr (.inl hbare)
  · exact .inr (.inr hkeywords)

theorem inclusion_grown (h : ctx.Grows ctx')
    (hnested : ∀ terminator, Retained (nested terminator) (nested' terminator)) (path : String)
    (here : Position) :
    Retained (inclusion ctx nested path here) (inclusion ctx' nested' path here) := by
  intro s found t hread
  rw [inclusion_eq_ok_iff] at hread ⊢
  obtain ⟨text, v, htext, hnew, hlevel, hread, rfl⟩ := hread
  rw [h.settings]
  exact ⟨text, v, h.texts htext, hnew, hlevel, hnested _ _ _ _ hread, rfl⟩

theorem agendaTurn_grown (h : ctx.Grows ctx')
    (hnested : ∀ terminator, Retained (nested terminator) (nested' terminator))
    (terminator : Terminator) (before : Agenda) :
    Retained (agendaTurn ctx nested terminator before)
      (agendaTurn ctx' nested' terminator before) := by
  intro s turn t hread
  rw [agendaTurn_eq_ok_iff] at hread ⊢
  rcases hread with hdone | ⟨hend, hrest, ⟨path, here, u, found, hhead, hread, rfl⟩ |
    ⟨call, u, found, hhead, hread, rfl⟩⟩
  · exact .inl hdone
  · refine .inr ⟨hend, hrest, .inl ⟨path, here, u, found, ?_, ?_, rfl⟩⟩
    · exact head_grown h.workspace _ _ _ hhead
    · exact inclusion_grown h hnested path here _ _ _ hread
  · refine .inr ⟨hend, hrest, .inr ⟨call, u, found, ?_, ?_, rfl⟩⟩
    · exact head_grown h.workspace _ _ _ hhead
    · exact statement_grown h hnested (inUse_of_head hhead) _ _ _ hread

theorem agendaBy_grown (h : ctx.Grows ctx')
    (hnested : ∀ terminator, Retained (nested terminator) (nested' terminator))
    (terminator : Terminator) :
    Retained (agendaBy ctx nested terminator) (agendaBy ctx' nested' terminator) := by
  intro s found t hread
  simp only [agendaBy, bind_eq_ok_iff, get_eq_ok_iff, and_assoc, exists_and_left,
    exists_eq_left] at hread ⊢
  -- both runs are in the same state before every turn
  obtain ⟨t', rfl, hread'⟩ := takeTurns_related (r := Eq) (fun hstuck => by simp at hstuck)
    (fun {before s s' turn u} hs hturn => ⟨u, rfl, hs ▸ agendaTurn_grown h hnested terminator before
      s turn u hturn⟩) (rfl : s = s) hread
  exact hread'

theorem agenda_grown (h : ctx.Grows ctx') (levels : Nat) (terminator : Terminator) :
    Retained (agenda ctx levels terminator) (agenda ctx' levels terminator) := by
  induction levels generalizing terminator with
  | zero =>
    apply agendaBy_grown h
    intro _ s a t hread
    simp at hread
  | succ levels ih => exact agendaBy_grown h ih terminator

theorem parse_of_grows (h : ctx.Grows ctx') {file source : String} {a : Agenda}
    (hread : parse ctx file source = .ok a) : parse ctx' file source = .ok a := by
  obtain ⟨_, hread⟩ := parse_eq_ok_iff.1 hread
  obtain ⟨call, u, t, hhead, hread, hname, hend, -⟩ := script_eq_ok_iff.1 hread
  have hcall := inUse_of_head hhead
  refine parse_eq_ok_iff.2 ⟨_, script_eq_ok_iff.2 ⟨call, u, t, ?_, ?_, ?_, hend, rfl⟩⟩
  · exact head_grown h.workspace _ _ _ hhead
  · rw [h.settings]
    exact statement_grown h (agenda_grown h _) hcall _ _ _ hread
  · rw [h.workspace.method hcall, h.settings]
    exact hname

end Levels

end Reading

/-! ## 5. Views of agendas -/

/-- A call all of whose ids are in use, and that of the generic method that it specializes. -/
structure Call.Known (w : Workspace) (call : Call) : Prop where
  method : w.methods.InUse call.method
  base : ∀ b, w.methods.baseOf? call.method = some b → w.methods.InUse b
  vars : ∀ id ∈ call.outputs ++ call.inputs, ∃ v, w.vars.get? id = some v

theorem Call.WellBound.known {w : Workspace} {base : MethodId} {m : Method} {call : Call}
    (h : call.WellBound w base m) : call.Known w where
  method := by
    obtain ⟨e, he, -⟩ := Option.map_eq_some_iff.1 h.registered
    exact ⟨e, he⟩
  base := by
    intro b hb
    obtain ⟨rfl, hgeneric⟩ := (h.origin b).1 hb
    obtain ⟨e, he, -⟩ := MethodRegistry.entry_of_isGeneric hgeneric
    exact ⟨e, he⟩
  vars := h.bound

section Views

variable {w w' : Workspace} {call : Call}

/-- The names of variables in use. -/
theorem Workspace.Grows.variables (h : w.Grows w') {ids : List VariableId} {α : Type}
    (f : Variable → α) (hids : ∀ id ∈ ids, ∃ v, w.vars.get? id = some v) :
    ids.map (fun id => f (w'.vars.get id)) = ids.map (fun id => f (w.vars.get id)) := by
  apply List.map_congr_left
  intro id hid
  obtain ⟨v, hv⟩ := hids id hid
  rw [h.getVariable hv]

theorem Call.Known.base_eq (hcall : call.Known w) (h : w.Grows w') :
    (w'.methods.baseOf? call.method).map w'.methods.get =
      (w.methods.baseOf? call.method).map w.methods.get := by
  rw [h.baseOf? hcall.method]
  cases hbase : w.methods.baseOf? call.method with
  | none => rfl
  | some b => exact congrArg some (h.method (hcall.base b hbase))

theorem Call.Known.head_eq (hcall : call.Known w) (h : w.Grows w') :
    Canonical.head w' call = Canonical.head w call := by
  have hcalled : w'.methods.calledAs call.method = w.methods.calledAs call.method := by
    rw [MethodRegistry.calledAs, MethodRegistry.calledAs, ← Option.getD_map w'.methods.get,
      ← Option.getD_map w.methods.get, hcall.base_eq h, h.method hcall.method]
  rw [Canonical.head, Canonical.head, hcalled, h.variables (·.name) hcall.vars]

theorem Call.Known.fields_eq (hcall : call.Known w) (h : w.Grows w') :
    call.fields w' = call.fields w := by
  have hvars : ∀ ids, ids ⊆ call.outputs ++ call.inputs →
      w'.vars.namesToJson ids = w.vars.namesToJson ids := by
    intro ids hids
    apply congrArg Json.array
    exact h.variables (fun v => Json.string v.name) fun id hid => hcall.vars id (hids hid)
  have hgeneric := congrArg (Option.map (·.name)) (hcall.base_eq h)
  rw [Option.map_map, Option.map_map] at hgeneric
  rw [Call.fields, Call.fields, h.method hcall.method, hvars _ (List.subset_append_left _ _),
    hvars _ (List.subset_append_right _ _)]
  exact congrArg (fun generic => [_, ("generic", Json.ofString? generic), _, _, _]) hgeneric

mutual

theorem Canonical.statementLines_grown (h : w.Grows w') (layout : Layout) (level : Nat)
    (s : Statement) (hs : ∀ t ∈ s.preorder, t.call.Known w) :
    statementLines w' layout level s = statementLines w layout level s := by
  match s with
  | .keywords call values =>
    have hcall : call.Known w := hs _ List.mem_cons_self
    rw [statementLines, statementLines, hcall.head_eq h, h.method hcall.method]
  | .agenda call body =>
    have hcall : call.Known w := hs _ List.mem_cons_self
    rw [statementLines, statementLines, hcall.head_eq h,
      Canonical.agendaLines_grown h layout (level + 1) body fun t ht =>
        hs t (List.mem_cons_of_mem _ ht)]

theorem Canonical.agendaLines_grown (h : w.Grows w') (layout : Layout) (level : Nat)
    (a : List Statement) (ha : ∀ t ∈ Agenda.preorder a, t.call.Known w) :
    agendaLines w' layout level a = agendaLines w layout level a := by
  match a with
  | [] => rfl
  | s :: rest =>
    rw [agendaLines, agendaLines,
      Canonical.statementLines_grown h layout level s fun t ht => ha t (List.mem_append_left _ ht),
      Canonical.agendaLines_grown h layout level rest fun t ht => ha t (List.mem_append_right _ ht)]

end

mutual

theorem Statement.toJson_grown (h : w.Grows w') (s : Statement)
    (hs : ∀ t ∈ s.preorder, t.call.Known w) : s.toJson w' = s.toJson w := by
  match s with
  | .keywords call values =>
    have hcall : call.Known w := hs _ List.mem_cons_self
    rw [Statement.toJson, Statement.toJson, hcall.fields_eq h, h.method hcall.method]
  | .agenda call body =>
    have hcall : call.Known w := hs _ List.mem_cons_self
    rw [Statement.toJson, Statement.toJson, hcall.fields_eq h,
      Agenda.toJsonItems_grown h body fun t ht => hs t (List.mem_cons_of_mem _ ht)]

theorem Agenda.toJsonItems_grown (h : w.Grows w') (a : List Statement)
    (ha : ∀ t ∈ Agenda.preorder a, t.call.Known w) :
    Agenda.toJsonItems w' a = Agenda.toJsonItems w a := by
  match a with
  | [] => rfl
  | s :: rest =>
    rw [Agenda.toJsonItems, Agenda.toJsonItems,
      Statement.toJson_grown h s fun t ht => ha t (List.mem_append_left _ ht),
      Agenda.toJsonItems_grown h rest fun t ht => ha t (List.mem_append_right _ ht)]

end

end Views

/-! ## 6. Control scripts -/

namespace Reading

/-- Texts that are added under new paths leave the others where they were. -/
theorem ofList_append {texts more : List (String × String)}
    (hnew : ∀ t ∈ more, List.lookup t.1 texts = none) {path : String} {text : IncludedText}
    (h : TextSource.ofList texts path = .ok text) :
    TextSource.ofList (more ++ texts) path = .ok text := by
  rw [TextSource.ofList] at h ⊢
  have hmore : List.lookup path more = none := by
    rw [List.lookup_eq_none_iff]
    intro t ht
    apply bne_iff_ne.2
    rintro rfl
    rw [hnew t ht] at h
    cases h
  rw [List.lookup_append, hmore, Option.none_or]
  exact h

/-- Declarations that come later, refused or not, and texts under new paths change nothing about a
    script that was accepted. -/
theorem parse_declared {w : Workspace} (hmethods : w.methods.Built)
    (declarations : List Declaration) {texts more : List (String × String)}
    (hnew : ∀ t ∈ more, List.lookup t.1 texts = none) (settings : Settings)
    {file source : String} {a : Agenda}
    (h : parse ⟨w, .ofList texts, settings⟩ file source = .ok a) :
    parse ⟨declarations.foldl Workspace.declare w, .ofList (more ++ texts), settings⟩ file source
        = .ok a ∧
      (∀ layout entry, Canonical.text (declarations.foldl Workspace.declare w) layout entry a
        = Canonical.text w layout entry a) ∧
      Agenda.toJson (declarations.foldl Workspace.declare w) a = Agenda.toJson w a := by
  have hgrows := w.grows_foldl declarations
  have hcontext : Context.Grows ⟨w, .ofList texts, settings⟩
      ⟨declarations.foldl Workspace.declare w, .ofList (more ++ texts), settings⟩ :=
    ⟨hgrows, ofList_append hnew, rfl⟩
  have hknown : ∀ s ∈ Agenda.preorder a, s.call.Known w := by
    intro s hs
    obtain ⟨base, m, -, hbound, -⟩ := readInside_of_parse hmethods.sound h s hs
    exact hbound.known
  refine ⟨parse_of_grows hcontext h, ?_, ?_⟩
  · intro layout entry
    rw [Canonical.text, Canonical.lines, Canonical.agendaLines_grown hgrows layout 1 a hknown]
    rfl
  · exact congrArg Json.array (Agenda.toJsonItems_grown hgrows a hknown)

/-- Declarations for the small workspace, of which the first and the third are refused. -/
def additions : List Declaration :=
  [.method (.ordinary Workspace.wait), .method (.ordinary { name := "Note" }),
    .var ⟨"x", ⟨"flag"⟩⟩, .var ⟨"z", Workspace.real⟩,
    .method (.specialization ⟨2⟩ ⟨"flag"⟩
      { name := "CopyFlag", outputs := [.only ⟨"flag"⟩], inputs := [.only ⟨"flag"⟩] })]

theorem parse_additions : Workspace.small.methods.Built ∧
    (∀ t ∈ [("more", "Note")], List.lookup t.1 [("extra", "Wait")] = none) ∧
    ∃ a, parse ⟨.small, .ofList [("extra", "Wait")], {}⟩ "main"
        "Arts \x7b INCLUDE \"extra\" Copy(x, y) \x7d" = .ok a ∧ Agenda.count a = 2 ∧
      parse ⟨additions.foldl Workspace.declare .small,
          .ofList ([("more", "Note")] ++ [("extra", "Wait")]), {}⟩ "main"
        "Arts \x7b INCLUDE \"extra\" Copy(x, y) \x7d" = .ok a ∧
      (∀ layout entry, Canonical.text (additions.foldl Workspace.declare .small) layout entry a
        = Canonical.text .small layout entry a) ∧
      Agenda.toJson (additions.foldl Workspace.declare .small) a = Agenda.toJson .small a := by
  have hnew : ∀ t ∈ [("more", "Note")], List.lookup t.1 [("extra", "Wait")] = none := by decide
  have hread : acceptsWith ⟨.small, .ofList [("extra", "Wait")], {}⟩ "main"
      "Arts \x7b INCLUDE \"extra\" Copy(x, y) \x7d" (fun a => Agenda.count a = 2) = true := by
    decide +kernel
  obtain ⟨a, ha, hcount⟩ := acceptsWith_iff.1 hread
  exact ⟨Workspace.small_methods_built, hnew, a, ha, of_decide_eq_true hcount,
    parse_declared Workspace.small_methods_built additions hnew {} ha⟩

end Reading

end ControlScript
