import ControlScript.Proofs.Registration.Faults

/-!
# Building without faults

A manifest is built exactly when its lists have no fault.  Methods, specializations and variables
are registered in one way: an entry is refused for what it is, or because its key is taken.
-/

namespace ControlScript

namespace Manifest

/-! ## 1. Registration one after the other -/

/-- A step that refuses an item for what it is or for a key that is taken, and that takes the key of
    every item that it does not refuse. -/
structure Registers {α β κ ε : Type} (f : β → α → Except ε β) (next : β → α → β) (good : α → Prop)
    (key : α → κ) (taken : β → κ → Prop) (inv : β → Prop) : Prop where
  step : ∀ b a b', inv b → (f b a = .ok b' ↔ good a ∧ ¬taken b (key a) ∧ b' = next b a)
  inv : ∀ b a, inv b → inv (next b a)
  taken : ∀ b a k, taken (next b a) k ↔ taken b k ∨ k = key a

/-- A list is registered when no item is refused for what it is, no two have one key, and no key is
    taken at the start. -/
theorem Registers.foldlM_eq_ok_iff {α β κ ε : Type} {f : β → α → Except ε β} {next : β → α → β}
    {good : α → Prop} {key : α → κ} {taken : β → κ → Prop} {inv : β → Prop}
    (h : Registers f next good key taken inv) {items : List α} {b b' : β} (hb : inv b) :
    items.foldlM f b = .ok b' ↔
      (∀ a ∈ items, good a) ∧ (items.map key).Nodup ∧ (∀ a ∈ items, ¬taken b (key a)) ∧
        b' = items.foldl next b := by
  induction items generalizing b with
  | nil => simp [pure, Except.pure, eq_comm]
  | cons a items ih =>
    have hfirst : (a :: items).foldlM f b = .ok b' ↔
        good a ∧ ¬taken b (key a) ∧ items.foldlM f (next b a) = .ok b' := by
      rw [List.foldlM_cons, except_bind_eq_ok_iff]
      simp only [h.step b a _ hb]
      exact ⟨fun ⟨_, ⟨hgood, hfree, hc⟩, h⟩ => ⟨hgood, hfree, hc ▸ h⟩,
        fun ⟨hgood, hfree, h⟩ => ⟨_, ⟨hgood, hfree, rfl⟩, h⟩⟩
    rw [hfirst, ih (h.inv b a hb), List.map_cons, List.nodup_cons, List.foldl_cons,
      List.forall_mem_cons, List.forall_mem_cons]
    simp only [h.taken, not_or]
    constructor
    · rintro ⟨hgood, hfree, hgoods, hnodup, hrest, hb'⟩
      refine ⟨⟨hgood, hgoods⟩, ⟨fun hmem => ?_, hnodup⟩, ⟨hfree, fun c hc => (hrest c hc).1⟩, hb'⟩
      obtain ⟨c, hc, hkey⟩ := List.mem_map.1 hmem
      exact (hrest c hc).2 hkey
    · rintro ⟨⟨hgood, hgoods⟩, ⟨hnew, hnodup⟩, ⟨hfree, hrest⟩, hb'⟩
      exact ⟨hgood, hfree, hgoods, hnodup,
        fun c hc => ⟨hrest c hc, fun hkey => hnew (hkey ▸ List.mem_map_of_mem hc)⟩, hb'⟩

/-- The entries of a method and of its specializations. -/
def MethodEntry.block (entry : MethodEntry) (base : MethodId) : List RegisteredMethod :=
  ⟨entry.toMethod, none⟩ ::
    entry.specializations.map fun own => ⟨own.toMethod entry, some ⟨base, ⟨own.group⟩⟩⟩

theorem foldl_concat {α : Type} (g : α → Variable) (items : List α) (r : VariableRegistry) :
    items.foldl (fun r a => ⟨r.entries ++ [g a]⟩) r =
      (⟨r.entries ++ items.map g⟩ : VariableRegistry) := by
  induction items generalizing r with
  | nil => simp
  | cons a items ih =>
    rw [List.foldl_cons, ih]
    simp

theorem foldl_push {α : Type} (g : α → RegisteredMethod) (items : List α)
    (r : MethodRegistry) :
    items.foldl (fun r a => (r.push (g a)).2) r = ⟨r.entries ++ items.map g⟩ := by
  induction items generalizing r with
  | nil => simp
  | cons a items ih =>
    rw [List.foldl_cons, ih]
    simp [MethodRegistry.push]

section Steps

variable {declared : List String}

theorem addVariable_eq_ok_iff {r r' : VariableRegistry} {entry : VariableEntry} :
    addVariable declared r entry = .ok r' ↔
      entry.group ∈ declared ∧ ¬(∃ v ∈ r.entries, v.name = entry.name) ∧
        r' = ⟨r.entries ++ [entry.toVariable]⟩ := by
  simp only [addVariable, except_bind_eq_ok_iff, group_eq_ok_iff, registered_eq_ok_iff,
    Prod.exists, VariableRegistry.insert_eq_ok_iff]
  constructor
  · rintro ⟨group, ⟨hgroup, rfl⟩, id, added, ⟨hnew, -, rfl⟩, heq⟩
    exact ⟨hgroup, fun ⟨v, hv, hname⟩ => hnew v hv hname, (Except.ok.inj heq).symm⟩
  · rintro ⟨hgroup, hnew, rfl⟩
    exact ⟨_, ⟨hgroup, rfl⟩, _, _, ⟨fun v hv hname => hnew ⟨v, hv, hname⟩, rfl, rfl⟩, rfl⟩

variable {entry : MethodEntry} {r r' : MethodRegistry} {base : MethodId}

theorem MethodEntry.isGeneric_iff (entry : MethodEntry) :
    entry.toMethod.isGeneric = true ↔ anyGroup ∈ entry.outputs ++ entry.inputs := by
  rw [Method.isGeneric, List.contains_iff_mem, Method.slots, toMethod, ← List.map_append,
    mem_map_slotNamed_iff]

theorem SpecializationEntry.isGeneric_iff (own : SpecializationEntry) (entry : MethodEntry) :
    (own.toMethod entry).isGeneric = true ↔ anyGroup ∈ own.outputs ++ own.inputs := by
  rw [Method.isGeneric, List.contains_iff_mem, Method.slots, toMethod, ← List.map_append,
    mem_map_slotNamed_iff]

/-- The check of a method is about the keywords that its entry lists. -/
theorem check_eq_ok_iff_of_listed {m : Method} {agenda : Bool} {entries : List KeywordEntry}
    (hagenda : m.takesAgenda = agenda) (h : m.keywords = entries.map (·.toKeyword)) :
    (m.check = .ok () ∧ ∀ keyword ∈ entries, ¬keyword.Unknown) ↔ KeywordsFit agenda entries := by
  rw [Method.check_eq_ok_iff, hagenda, h, map_keyword_name, List.map_eq_nil_iff]
  exact ⟨fun ⟨⟨hagenda, hnames⟩, hkinds⟩ => ⟨hkinds, hnames, hagenda⟩,
    fun hfit => ⟨⟨hfit.agenda, hfit.names⟩, hfit.kinds⟩⟩

/-- Inherited keywords have been checked with the method that they come from. -/
theorem SpecializationEntry.check_iff {own : SpecializationEntry}
    (hentry : KeywordsFit entry.agenda entry.keywords) :
    ((own.toMethod entry).check = .ok () ∧
        ∀ entries, own.keywords = some entries → ∀ keyword ∈ entries, ¬keyword.Unknown) ↔
      ∀ entries, own.keywords = some entries → KeywordsFit entry.agenda entries := by
  have hlisted : _ ↔ KeywordsFit entry.agenda (own.keywords.getD entry.keywords) :=
    check_eq_ok_iff_of_listed (m := own.toMethod entry) rfl rfl
  cases hown : own.keywords with
  | some entries =>
    rw [hown, Option.getD_some] at hlisted
    simpa using hlisted
  | none =>
    rw [hown, Option.getD_none] at hlisted
    simpa using (hlisted.2 hentry).1

theorem addSpecialization_eq_ok_iff_insert {own : SpecializationEntry} :
    addSpecialization declared entry (entry.keywords.map (·.toKeyword)) base r own = .ok r' ↔
      own.group ∈ declared ∧ (∀ name ∈ own.outputs ++ own.inputs, ¬Undeclared declared name) ∧
        (∀ entries, own.keywords = some entries → ∀ keyword ∈ entries, ¬keyword.Unknown) ∧
        ∃ id, r.insertSpecialization base ⟨own.group⟩ (own.toMethod entry) = .ok (id, r') := by
  simp only [addSpecialization, except_bind_eq_ok_iff, group_eq_ok_iff, slots_eq_ok_iff,
    List.forall_mem_append, SpecializationEntry.toMethod]
  cases hown : own.keywords with
  | some entries =>
    simp [except_bind_eq_ok_iff, registered_eq_ok_iff, keywords_eq_ok_iff, pure, Except.pure,
      and_assoc]
  | none =>
    simp [except_bind_eq_ok_iff, registered_eq_ok_iff, pure, Except.pure, and_assoc]

theorem addSpecialization_eq_ok_iff {own : SpecializationEntry}
    (hbase : r.get base = entry.toMethod) (hentry : KeywordsFit entry.agenda entry.keywords) :
    addSpecialization declared entry (entry.keywords.map (·.toKeyword)) base r own = .ok r' ↔
      ¬own.Faulty declared entry ∧ ¬(∃ e ∈ r.entries, e.origin = some ⟨base, ⟨own.group⟩⟩) ∧
        r' = (r.push ⟨own.toMethod entry, some ⟨base, ⟨own.group⟩⟩⟩).2 := by
  have hconcrete : (own.toMethod entry).isGeneric = false ↔
      anyGroup ∉ own.outputs ++ own.inputs := by
    rw [← own.isGeneric_iff entry, Bool.not_eq_true]
  have hnew : r.resolve? base ⟨own.group⟩ = none ↔
      ¬∃ e ∈ r.entries, e.origin = some ⟨base, ⟨own.group⟩⟩ := by
    rw [MethodRegistry.resolve?_eq_none_iff]
    exact ⟨fun h ⟨e, he, horigin⟩ => h e he horigin, fun h e he horigin => h ⟨e, he, horigin⟩⟩
  have houtputs : (own.toMethod entry).outputs.length = entry.toMethod.outputs.length ↔
      own.outputs.length = entry.outputs.length := by
    simp [SpecializationEntry.toMethod, MethodEntry.toMethod]
  have hinputs : (own.toMethod entry).inputs.length = entry.toMethod.inputs.length ↔
      own.inputs.length = entry.inputs.length := by
    simp [SpecializationEntry.toMethod, MethodEntry.toMethod]
  rw [addSpecialization_eq_ok_iff_insert, SpecializationEntry.not_faulty_iff,
    ← SpecializationEntry.check_iff hentry]
  simp only [MethodRegistry.insertSpecialization_eq_ok_iff, hbase, entry.isGeneric_iff, hconcrete,
    hnew, houtputs, hinputs]
  constructor
  · rintro ⟨hgroup, hslots, hkinds, id, hcheck, hgeneric, hown, hcount, hfree, hpush⟩
    exact ⟨⟨hgroup, hslots, ⟨hcheck, hkinds⟩, hgeneric, hown, hcount⟩, hfree,
      congrArg Prod.snd hpush⟩
  · rintro ⟨⟨hgroup, hslots, ⟨hcheck, hkinds⟩, hgeneric, hown, hcount⟩, hfree, hr'⟩
    exact ⟨hgroup, hslots, hkinds, _, hcheck, hgeneric, hown, hcount, hfree,
      Prod.ext rfl hr'⟩

/-- Registering the specializations of a method puts them behind what is registered already. -/
theorem specializations_eq_ok_iff (hbase : r.entries[base.index]? = some ⟨entry.toMethod, none⟩)
    (hentry : KeywordsFit entry.agenda entry.keywords) :
    entry.specializations.foldlM
        (addSpecialization declared entry (entry.keywords.map (·.toKeyword)) base) r = .ok r' ↔
      (∀ own ∈ entry.specializations, ¬own.Faulty declared entry) ∧
        (entry.specializations.map (·.group)).Nodup ∧
        (∀ own ∈ entry.specializations, ¬∃ e ∈ r.entries, e.origin = some ⟨base, ⟨own.group⟩⟩) ∧
        r' = ⟨r.entries ++ entry.specializations.map fun own =>
          ⟨own.toMethod entry, some ⟨base, ⟨own.group⟩⟩⟩⟩ := by
  have hstep : Registers
      (addSpecialization declared entry (entry.keywords.map (·.toKeyword)) base)
      (fun r own => (r.push ⟨own.toMethod entry, some ⟨base, ⟨own.group⟩⟩⟩).2)
      (fun own => ¬own.Faulty declared entry) (·.group)
      (fun r group => ∃ e ∈ r.entries, e.origin = some ⟨base, ⟨group⟩⟩)
      (fun r => r.entries[base.index]? = some ⟨entry.toMethod, none⟩) := by
    constructor
    case step =>
      intro r own r' hr
      exact addSpecialization_eq_ok_iff (MethodRegistry.get_of_entry hr) hentry
    case inv =>
      intro r own hr
      exact MethodRegistry.entry_push hr _
    case taken =>
      intro r own group
      simp [MethodRegistry.push, or_and_right, exists_or, eq_comm]
  rw [hstep.foldlM_eq_ok_iff hbase, foldl_push]

theorem addMethod_eq_ok_iff_insert :
    addMethod declared r entry = .ok r' ↔
      (∀ name ∈ entry.outputs ++ entry.inputs, ¬Undeclared declared name) ∧
        (∀ keyword ∈ entry.keywords, ¬keyword.Unknown) ∧
        ∃ base added, r.insert entry.toMethod = .ok (base, added) ∧
          entry.specializations.foldlM
            (addSpecialization declared entry (entry.keywords.map (·.toKeyword)) base) added =
              .ok r' := by
  simp only [addMethod, except_bind_eq_ok_iff, slots_eq_ok_iff, keywords_eq_ok_iff,
    registered_eq_ok_iff, List.forall_mem_append, Prod.exists]
  constructor
  · rintro ⟨_, ⟨hkinds, rfl⟩, _, ⟨houtputs, rfl⟩, _, ⟨hinputs, rfl⟩, base, added, h⟩
    exact ⟨⟨houtputs, hinputs⟩, hkinds, base, added, h⟩
  · rintro ⟨⟨houtputs, hinputs⟩, hkinds, base, added, h⟩
    exact ⟨_, ⟨hkinds, rfl⟩, _, ⟨houtputs, rfl⟩, _, ⟨hinputs, rfl⟩, base, added, h⟩

theorem addMethod_eq_ok_iff (hr : r.BasesExist) :
    addMethod declared r entry = .ok r' ↔
      ¬entry.Faulty declared ∧ ¬(∃ e ∈ r.entries, e.origin = none ∧ e.method.name = entry.name) ∧
        r' = ⟨r.entries ++ entry.block ⟨r.size⟩⟩ := by
  have hnew : r.find? entry.toMethod.name = none ↔
      ¬∃ e ∈ r.entries, e.origin = none ∧ e.method.name = entry.name := by
    rw [MethodRegistry.find?_eq_none_iff]
    exact ⟨fun h ⟨e, he, horigin, hname⟩ => h e he horigin hname,
      fun h e he horigin hname => h ⟨e, he, horigin, hname⟩⟩
  have hcheck : _ ↔ KeywordsFit entry.agenda entry.keywords :=
    check_eq_ok_iff_of_listed (m := entry.toMethod) rfl rfl
  -- nothing registered so far specializes the new method
  have hfree : ∀ group, ¬∃ e ∈ (r.push ⟨entry.toMethod, none⟩).2.entries,
      e.origin = some ⟨⟨r.size⟩, group⟩ := by
    rintro group ⟨e, he, horigin⟩
    rcases List.mem_append.1 he with he | he
    · exact absurd (hr e he _ horigin) (Nat.lt_irrefl _)
    · obtain rfl := List.mem_singleton.1 he
      cases horigin
  have hself : (r.push ⟨entry.toMethod, none⟩).2.entries[(MethodId.mk r.size).index]? =
      some ⟨entry.toMethod, none⟩ := List.getElem?_concat_length
  have hblock : (⟨r.entries ++ entry.block ⟨r.size⟩⟩ : MethodRegistry) =
      ⟨(r.push ⟨entry.toMethod, none⟩).2.entries ++ entry.specializations.map fun own =>
        ⟨own.toMethod entry, some ⟨⟨r.size⟩, ⟨own.group⟩⟩⟩⟩ := by
    simp [MethodRegistry.push, MethodEntry.block]
  rw [addMethod_eq_ok_iff_insert, MethodEntry.not_faulty_iff, hblock]
  simp only [MethodRegistry.insert_eq_ok_iff, hnew]
  constructor
  · rintro ⟨hslots, hkinds, base, added, ⟨hfine, hname, hpush⟩, hfold⟩
    have hfit := hcheck.1 ⟨hfine, hkinds⟩
    obtain ⟨rfl, rfl⟩ := Prod.mk.inj hpush
    obtain ⟨hgood, hgroups, -, rfl⟩ := (specializations_eq_ok_iff hself hfit).1 hfold
    exact ⟨⟨hslots, hfit, hgood, hgroups⟩, hname, rfl⟩
  · rintro ⟨⟨hslots, hfit, hgood, hgroups⟩, hname, rfl⟩
    obtain ⟨hfine, hkinds⟩ := hcheck.2 hfit
    refine ⟨hslots, hkinds, _, _, ⟨hfine, hname, rfl⟩, ?_⟩
    exact (specializations_eq_ok_iff hself hfit).2 ⟨hgood, hgroups, fun own _ => hfree _, rfl⟩

end Steps

/-! ## 2. The workspace of a manifest -/

/-- The entries of methods and their specializations, when the first of them has a given id. -/
def blocks (start : Nat) : List MethodEntry → List RegisteredMethod
  | [] => []
  | entry :: rest =>
      entry.block ⟨start⟩ ++ blocks (start + entry.specializations.length + 1) rest

/-- What a manifest without faults builds. -/
def workspace (m : Manifest) : Workspace where
  methods := ⟨blocks 0 m.methods⟩
  vars := ⟨m.vars.map (·.toVariable)⟩

theorem length_block (entry : MethodEntry) (base : MethodId) :
    (entry.block base).length = entry.specializations.length + 1 := by
  simp [MethodEntry.block]

/-- Blocks that are registered one after the other. -/
theorem foldl_block (entries : List MethodEntry) (r : MethodRegistry) :
    entries.foldl (fun r entry => ⟨r.entries ++ entry.block ⟨r.size⟩⟩) r =
      (⟨r.entries ++ blocks r.size entries⟩ : MethodRegistry) := by
  induction entries generalizing r with
  | nil => simp [blocks]
  | cons entry entries ih =>
    have hsize : MethodRegistry.size ⟨r.entries ++ entry.block ⟨r.size⟩⟩ =
        r.size + entry.specializations.length + 1 := by
      rw [MethodRegistry.size, List.length_append, length_block]
      rfl
    rw [List.foldl_cons, ih, hsize, blocks, List.append_assoc]

theorem basesExist_block {r : MethodRegistry} (hr : r.BasesExist) (entry : MethodEntry) :
    MethodRegistry.BasesExist ⟨r.entries ++ entry.block ⟨r.size⟩⟩ := by
  intro e he o ho
  have hsize : r.size < MethodRegistry.size ⟨r.entries ++ entry.block ⟨r.size⟩⟩ := by
    rw [MethodRegistry.size, MethodRegistry.size, List.length_append, length_block]
    omega
  rcases List.mem_append.1 he with he | he
  · exact Nat.lt_trans (hr e he o ho) hsize
  rcases List.mem_cons.1 he with rfl | he
  · cases ho
  · obtain ⟨own, -, rfl⟩ := List.mem_map.1 he
    obtain rfl := Option.some.inj ho
    exact hsize

theorem methods_eq_ok_iff {declared : List String} {entries : List MethodEntry}
    {r' : MethodRegistry} :
    entries.foldlM (addMethod declared) {} = .ok r' ↔
      (∀ entry ∈ entries, ¬entry.Faulty declared) ∧ (entries.map (·.name)).Nodup ∧
        r' = ⟨blocks 0 entries⟩ := by
  have hstep : Registers (addMethod declared)
      (fun r entry => ⟨r.entries ++ entry.block ⟨r.size⟩⟩) (fun entry => ¬entry.Faulty declared)
      (·.name) (fun r name => ∃ e ∈ r.entries, e.origin = none ∧ e.method.name = name)
      MethodRegistry.BasesExist := by
    constructor
    case step =>
      intro r entry r' hr
      exact addMethod_eq_ok_iff hr
    case inv =>
      intro r entry hr
      exact basesExist_block hr entry
    case taken =>
      intro r entry name
      -- only the method itself is found by name, not its specializations
      have hblock : (∃ e ∈ entry.block ⟨r.size⟩, e.origin = none ∧ e.method.name = name) ↔
          name = entry.name := by
        simp [MethodEntry.block, MethodEntry.toMethod, eq_comm]
      simp only [List.mem_append, or_and_right, exists_or, hblock]
  have hempty : MethodRegistry.BasesExist {} := by simp [MethodRegistry.BasesExist]
  rw [hstep.foldlM_eq_ok_iff hempty, foldl_block]
  simp [MethodRegistry.size]

theorem vars_eq_ok_iff {declared : List String} {entries : List VariableEntry}
    {r' : VariableRegistry} :
    entries.foldlM (addVariable declared) {} = .ok r' ↔
      (∀ entry ∈ entries, entry.group ∈ declared) ∧ (entries.map (·.name)).Nodup ∧
        r' = ⟨entries.map (·.toVariable)⟩ := by
  have hstep : Registers (addVariable declared) (fun r entry => ⟨r.entries ++ [entry.toVariable]⟩)
      (fun entry => entry.group ∈ declared) (·.name)
      (fun r name => ∃ v ∈ r.entries, v.name = name) (fun _ => True) := by
    constructor
    case step =>
      intro r entry r' _
      exact addVariable_eq_ok_iff
    case inv => exact fun _ _ _ => trivial
    case taken =>
      intro r entry name
      simp [or_and_right, exists_or, VariableEntry.toVariable, eq_comm]
  rw [hstep.foldlM_eq_ok_iff trivial, foldl_concat]
  simp

/-- A manifest is built when it has no fault, and into the workspace that its lists say. -/
theorem build_eq_ok_iff {m : Manifest} {w : Workspace} :
    m.build = .ok w ↔ ¬m.Faulty ∧ w = m.workspace := by
  simp only [build, except_bind_eq_ok_iff, vars_eq_ok_iff, methods_eq_ok_iff, not_faulty_iff]
  constructor
  · rintro ⟨_, ⟨hgroups, hvars, rfl⟩, _, ⟨hentries, hmethods, rfl⟩, heq⟩
    exact ⟨⟨⟨hgroups, hvars⟩, hentries, hmethods⟩, (Except.ok.inj heq).symm⟩
  · rintro ⟨⟨⟨hgroups, hvars⟩, hentries, hmethods⟩, rfl⟩
    exact ⟨_, ⟨hgroups, hvars, rfl⟩, _, ⟨hentries, hmethods, rfl⟩, rfl⟩

end Manifest

end ControlScript
