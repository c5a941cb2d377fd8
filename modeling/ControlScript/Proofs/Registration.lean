import ControlScript.Workspace

/-!
# Registries built by registration

What the registries look like that are built by registering one declaration after the other, and
how their look-ups answer: a method that is found by name is ordinary, one that is found by a
generic method and a group is concrete and has the slots of the generic method.
-/

namespace ControlScript

/-- One more entry is found when none of those before it is. -/
theorem map_findIdx?_concat {α ι : Type} (toId : Nat → ι) (entries : List α) (entry : α)
    (p : α → Bool) :
    ((entries ++ [entry]).findIdx? p).map toId =
      Option.or ((entries.findIdx? p).map toId)
        (if p entry then some (toId entries.length) else none) := by
  rw [List.findIdx?_append]
  cases entries.findIdx? p with
  | some i => rfl
  | none => by_cases hp : p entry <;> simp [hp]

namespace MethodRegistry

/-! ## 1. Look-ups of methods -/

variable {r : MethodRegistry}

theorem entry_of_findFirst? {p : RegisteredMethod → Bool} {id : MethodId}
    (h : r.findFirst? p = some id) : ∃ e, r.entries[id.index]? = some e ∧ p e = true := by
  obtain ⟨i, hi, rfl⟩ := Option.map_eq_some_iff.1 h
  obtain ⟨hlt, hp, -⟩ := List.findIdx?_eq_some_iff_getElem.1 hi
  exact ⟨r.entries[i], List.getElem?_eq_getElem hlt, hp⟩

/-- A method that is found by name has that name and no origin. -/
theorem entry_of_find? {name : String} {id : MethodId} (h : r.find? name = some id) :
    ∃ m, r.entries[id.index]? = some ⟨m, none⟩ ∧ m.name = name := by
  obtain ⟨⟨m, origin⟩, he, hp⟩ := entry_of_findFirst? h
  simp only [Bool.and_eq_true, Option.isNone_iff_eq_none, decide_eq_true_eq] at hp
  obtain ⟨rfl, hname⟩ := hp
  exact ⟨m, he, hname⟩

/-- A specialization that is found for a group has that group for its origin. -/
theorem entry_of_resolve? {base id : MethodId} {group : Group}
    (h : r.resolve? base group = some id) :
    ∃ m, r.entries[id.index]? = some ⟨m, some ⟨base, group⟩⟩ := by
  obtain ⟨⟨m, origin⟩, he, hp⟩ := entry_of_findFirst? h
  obtain rfl : origin = some ⟨base, group⟩ := by simpa using hp
  exact ⟨m, he⟩

theorem get?_of_entry {id : MethodId} {e : RegisteredMethod} (h : r.entries[id.index]? = some e) :
    r.get? id = some e.method := by
  rw [get?, h, Option.map_some]

theorem get_of_entry {id : MethodId} {e : RegisteredMethod} (h : r.entries[id.index]? = some e) :
    r.get id = e.method := by
  rw [get, get?_of_entry h, Option.getD_some]

theorem baseOf?_of_entry {id : MethodId} {e : RegisteredMethod}
    (h : r.entries[id.index]? = some e) : r.baseOf? id = e.origin.map (·.base) := by
  rw [baseOf?, h, Option.bind_some]

theorem baseOf?_eq_some_iff {id base : MethodId} : r.baseOf? id = some base ↔
    ∃ m group, r.entries[id.index]? = some ⟨m, some ⟨base, group⟩⟩ := by
  constructor
  · intro h
    obtain ⟨⟨_, group⟩, horigin, rfl⟩ := Option.map_eq_some_iff.1 h
    obtain ⟨⟨m, _⟩, he, rfl⟩ := Option.bind_eq_some_iff.1 horigin
    exact ⟨m, group, he⟩
  · rintro ⟨m, group, he⟩
    exact baseOf?_of_entry he

/-- A method is called by the name that it, or the generic method that it specializes, was found
    under. -/
theorem calledAs_of_find? {name : String} {base id : MethodId} (hfind : r.find? name = some base)
    (hid : id = base ∨ ∃ group, r.resolve? base group = some id) :
    (r.calledAs id).name = name := by
  obtain ⟨m, hbase, hname⟩ := entry_of_find? hfind
  have hcalled : (r.baseOf? id).getD id = base := by
    rcases hid with rfl | ⟨group, hresolve⟩
    · rw [baseOf?_of_entry hbase]
      rfl
    · obtain ⟨m', he⟩ := entry_of_resolve? hresolve
      rw [baseOf?_of_entry he]
      rfl
  rw [calledAs, hcalled, get_of_entry hbase, hname]

/-- What holds of every registered method, and of the method that stands for ids that are not in use,
    holds of the method of any id. -/
theorem forall_get {p : Method → Prop} (hunused : p {}) (h : ∀ e ∈ r.entries, p e.method)
    (id : MethodId) : p (r.get id) := by
  cases he : r.entries[id.index]? with
  | none =>
    rw [get, get?, he]
    exact hunused
  | some e =>
    rw [get_of_entry he]
    exact h e (List.mem_of_getElem? he)

/-- An id that is not in use stands for a method that is not generic. -/
theorem entry_of_isGeneric {id : MethodId} (h : (r.get id).isGeneric = true) :
    ∃ e, r.entries[id.index]? = some e ∧ e.method = r.get id := by
  cases he : r.entries[id.index]? with
  | none => rw [get, get?, he] at h; exact absurd h (by decide)
  | some e => exact ⟨e, rfl, (get_of_entry he).symm⟩

/-! ## 2. Registration of methods -/

/-- The registries that are built by registration; a registration that fails changes nothing. -/
inductive Built : MethodRegistry → Prop where
  | empty : Built {}
  | insert {r r' : MethodRegistry} {m : Method} {id : MethodId} :
      Built r → r.insert m = .ok (id, r') → Built r'
  | specialize {r r' : MethodRegistry} {base id : MethodId} {group : Group} {m : Method} :
      Built r → r.insertSpecialization base group m = .ok (id, r') → Built r'

theorem insert_eq_ok_iff {r' : MethodRegistry} {m : Method} {id : MethodId} :
    r.insert m = .ok (id, r') ↔
      m.check = .ok () ∧ r.find? m.name = none ∧ (id, r') = r.push ⟨m, none⟩ := by
  cases hcheck : m.check with
  | error e => simp [insert, hcheck, bind, Except.bind]
  | ok u =>
    cases hfind : r.find? m.name with
    | none => simp [insert, hcheck, hfind, bind, Except.bind, pure, Except.pure, eq_comm]
    | some i => simp [insert, hcheck, hfind, bind, Except.bind, throw, throwThe, MonadExceptOf.throw]

theorem insertSpecialization_eq_ok_iff {r' : MethodRegistry} {base id : MethodId} {group : Group}
    {m : Method} :
    r.insertSpecialization base group m = .ok (id, r') ↔
      m.check = .ok () ∧ (r.get base).isGeneric = true ∧ m.isGeneric = false ∧
        (m.outputs.length = (r.get base).outputs.length ∧
          m.inputs.length = (r.get base).inputs.length) ∧
        r.resolve? base group = none ∧ (id, r') = r.push ⟨m, some ⟨base, group⟩⟩ := by
  simp only [insertSpecialization, bind, Except.bind, throw, throwThe, MonadExceptOf.throw, pure,
    Except.pure, ne_eq, ← Classical.not_and_iff_not_or_not]
  cases m.check with
  | error e => simp
  | ok u =>
    by_cases hgeneric : (r.get base).isGeneric = true
    · by_cases hconcrete : m.isGeneric = true
      · simp [hgeneric, hconcrete]
      by_cases hcount : m.outputs.length = (r.get base).outputs.length ∧
          m.inputs.length = (r.get base).inputs.length
      · cases r.resolve? base group <;> simp [hgeneric, hconcrete, hcount, eq_comm]
      · simp [hgeneric, hconcrete, hcount]
    · simp [hgeneric]

/-- Registered entries stay where they are when another one is registered. -/
theorem entry_push {id : MethodId} {e : RegisteredMethod} (h : r.entries[id.index]? = some e)
    (entry : RegisteredMethod) : (r.push entry).2.entries[id.index]? = some e := by
  obtain ⟨hlt, -⟩ := List.getElem?_eq_some_iff.1 h
  rw [push, List.getElem?_append_left hlt, h]

/-- What registration keeps true: every method has passed its check, and a specialization is
    concrete and has as many outputs and inputs as the generic method that it specializes. -/
structure Sound (r : MethodRegistry) : Prop where
  checked : ∀ e ∈ r.entries, e.method.check = .ok ()
  base : ∀ e ∈ r.entries, ∀ o, e.origin = some o → (r.get o.base).isGeneric = true
  concrete : ∀ e ∈ r.entries, ∀ o, e.origin = some o → e.method.isGeneric = false
  outputs : ∀ e ∈ r.entries, ∀ o, e.origin = some o →
    e.method.outputs.length = (r.get o.base).outputs.length
  inputs : ∀ e ∈ r.entries, ∀ o, e.origin = some o →
    e.method.inputs.length = (r.get o.base).inputs.length

theorem get_push_of_isGeneric {id : MethodId} (h : (r.get id).isGeneric = true)
    (entry : RegisteredMethod) : (r.push entry).2.get id = r.get id := by
  obtain ⟨e, he, hmethod⟩ := entry_of_isGeneric h
  rw [get_of_entry (entry_push he entry), hmethod]

/-- Registering an entry keeps a registry sound when the entry is. -/
theorem Sound.push (h : r.Sound) {entry : RegisteredMethod} (hcheck : entry.method.check = .ok ())
    (horigin : ∀ o, entry.origin = some o →
      (r.get o.base).isGeneric = true ∧ entry.method.isGeneric = false ∧
        entry.method.outputs.length = (r.get o.base).outputs.length ∧
        entry.method.inputs.length = (r.get o.base).inputs.length) :
    (r.push entry).2.Sound := by
  have hmem : ∀ e ∈ (r.push entry).2.entries, e ∈ r.entries ∨ e = entry := fun e he => by
    simpa [MethodRegistry.push] using he
  -- the generic method of an origin is the same before and after
  have hget : ∀ e ∈ (r.push entry).2.entries, ∀ o, e.origin = some o →
      (r.get o.base).isGeneric = true ∧ (r.push entry).2.get o.base = r.get o.base := by
    intro e he o ho
    have hgeneric : (r.get o.base).isGeneric = true := by
      rcases hmem e he with he | rfl
      · exact h.base e he o ho
      · exact (horigin o ho).1
    exact ⟨hgeneric, get_push_of_isGeneric hgeneric entry⟩
  constructor
  case checked =>
    intro e he
    rcases hmem e he with he | rfl
    · exact h.checked e he
    · exact hcheck
  case base =>
    intro e he o ho
    rw [(hget e he o ho).2]
    exact (hget e he o ho).1
  case concrete =>
    intro e he o ho
    rcases hmem e he with he | rfl
    · exact h.concrete e he o ho
    · exact (horigin o ho).2.1
  case outputs =>
    intro e he o ho
    rw [(hget e he o ho).2]
    rcases hmem e he with he | rfl
    · exact h.outputs e he o ho
    · exact (horigin o ho).2.2.1
  case inputs =>
    intro e he o ho
    rw [(hget e he o ho).2]
    rcases hmem e he with he | rfl
    · exact h.inputs e he o ho
    · exact (horigin o ho).2.2.2

theorem Built.sound (h : r.Built) : r.Sound := by
  induction h with
  | empty => constructor <;> simp
  | @insert r r' m id _ hinsert ih =>
    obtain ⟨hcheck, -, heq⟩ := insert_eq_ok_iff.1 hinsert
    obtain rfl : r' = (r.push ⟨m, none⟩).2 := congrArg Prod.snd heq
    exact ih.push hcheck (by simp)
  | @specialize r r' base id group m _ hinsert ih =>
    obtain ⟨hcheck, hgeneric, hconcrete, hcount, -, heq⟩ := insertSpecialization_eq_ok_iff.1 hinsert
    obtain rfl : r' = (r.push ⟨m, some ⟨base, group⟩⟩).2 := congrArg Prod.snd heq
    refine ih.push hcheck fun o ho => ?_
    obtain rfl := Option.some.inj ho
    exact ⟨hgeneric, hconcrete, hcount⟩

/-- A specialization is concrete and has as many slots as the method that it specializes. -/
theorem Sound.slots_of_resolve? (hr : r.Sound) {base m : MethodId} {group : Group}
    (h : r.resolve? base group = some m) :
    (r.get m).isGeneric = false ∧ (r.get m).slotCount = (r.get base).slotCount := by
  obtain ⟨method, he⟩ := entry_of_resolve? h
  have hmem := List.mem_of_getElem? he
  rw [get_of_entry he]
  refine ⟨hr.concrete _ hmem _ rfl, ?_⟩
  rw [Method.slotCount, Method.slots, List.length_append, hr.outputs _ hmem _ rfl,
    hr.inputs _ hmem _ rfl, Method.slotCount, Method.slots, List.length_append]

end MethodRegistry

/-! ## 3. Checked methods -/

/-- Names none of which is repeated are distinct, and none of them was seen before. -/
theorem nodup_of_firstRepeated? {seen names : List String} (h : firstRepeated? seen names = none) :
    names.Nodup ∧ ∀ name ∈ names, name ∉ seen := by
  induction names generalizing seen with
  | nil => simp
  | cons name names ih =>
    rw [firstRepeated?] at h
    split at h
    · cases h
    · rename_i hnew
      obtain ⟨hnodup, hseen⟩ := ih h
      refine ⟨List.nodup_cons.2 ⟨fun hmem => ?_, hnodup⟩, ?_⟩
      · exact hseen name hmem List.mem_cons_self
      · intro other hother
        rcases List.mem_cons.1 hother with rfl | hother
        · exact hnew
        · exact fun hmem => hseen other hother (List.mem_cons_of_mem _ hmem)

/-- A slot that accepts every group is a slot. -/
theorem Method.slotCount_ne_zero_of_isGeneric {m : Method} (h : m.isGeneric = true) :
    m.slotCount ≠ 0 := by
  rw [isGeneric, List.contains_iff_mem] at h
  exact Nat.ne_of_gt (List.length_pos_of_mem h)

/-- A last check that a generic method has a slot would refuse nothing, whatever its error. -/
theorem Method.check_slotCount (m : Method) (e : RegistryError) :
    (do m.check; if m.isGeneric && m.slotCount = 0 then throw e) = m.check := by
  have hslots : ¬(m.isGeneric && decide (m.slotCount = 0)) = true := by
    rw [Bool.and_eq_true, decide_eq_true_eq]
    exact fun ⟨hgeneric, hcount⟩ => slotCount_ne_zero_of_isGeneric hgeneric hcount
  rw [if_neg hslots]
  cases m.check <;> rfl

theorem Method.keywords_eq_nil_of_check {m : Method} (h : m.check = .ok ())
    (hagenda : m.takesAgenda = true) : m.keywords = [] := by
  rw [Method.check] at h
  split at h
  · cases h
  · simp_all

theorem Method.not_takesAgenda_of_check {m : Method} (h : m.check = .ok ()) {keyword : Keyword}
    (hkeyword : keyword ∈ m.keywords) : m.takesAgenda = false := by
  refine Bool.eq_false_iff.2 fun hagenda => ?_
  rw [keywords_eq_nil_of_check h hagenda] at hkeyword
  cases hkeyword

theorem Method.nodup_keywords_of_check {m : Method} (h : m.check = .ok ()) :
    (m.keywords.map (·.name)).Nodup := by
  rw [Method.check] at h
  split at h
  · cases h
  split at h
  · cases h
  · rename_i hnone
    exact (nodup_of_firstRepeated? hnone).1

/-- Every method that an id stands for has passed its check. -/
theorem MethodRegistry.Sound.check_get {r : MethodRegistry} (h : r.Sound) (id : MethodId) :
    (r.get id).check = .ok () :=
  MethodRegistry.forall_get (p := fun m => m.check = .ok ()) rfl h.checked id

theorem MethodRegistry.Sound.nodup_keywords {r : MethodRegistry} (h : r.Sound) (id : MethodId) :
    ((r.get id).keywords.map (·.name)).Nodup :=
  Method.nodup_keywords_of_check (h.check_get id)

theorem MethodRegistry.Sound.not_takesAgenda {r : MethodRegistry} (h : r.Sound) {id : MethodId}
    {keyword : Keyword} (hmem : keyword ∈ (r.get id).keywords) : (r.get id).takesAgenda = false :=
  Method.not_takesAgenda_of_check (h.check_get id) hmem

/-! ## 4. Variables -/

namespace VariableRegistry

variable {r : VariableRegistry}

/-- The registries that are built by registration; a registration that fails changes nothing. -/
inductive Built : VariableRegistry → Prop where
  | empty : Built {}
  | insert {r r' : VariableRegistry} {v : Variable} {id : VariableId} :
      Built r → r.insert v = .ok (id, r') → Built r'

/-- A variable that is found by name has that name. -/
theorem get?_of_find? {name : String} {id : VariableId} (h : r.find? name = some id) :
    ∃ v, r.get? id = some v ∧ v.name = name := by
  obtain ⟨i, hi, rfl⟩ := Option.map_eq_some_iff.1 h
  obtain ⟨hlt, hp, -⟩ := List.findIdx?_eq_some_iff_getElem.1 hi
  exact ⟨r.entries[i], List.getElem?_eq_getElem hlt, by simpa using hp⟩

theorem name_of_find? {name : String} {id : VariableId} (h : r.find? name = some id) :
    (r.get id).name = name := by
  obtain ⟨v, hv, hname⟩ := get?_of_find? h
  rw [get, hv, Option.getD_some, hname]

theorem find?_concat (v : Variable) (name : String) :
    VariableRegistry.find? ⟨r.entries ++ [v]⟩ name =
      Option.or (r.find? name) (if v.name = name then some ⟨r.size⟩ else none) := by
  rw [find?, map_findIdx?_concat]
  simp only [decide_eq_true_eq, find?, size]

end VariableRegistry

/-! ## 5. A small workspace -/

namespace Workspace

/-- The group of the variables of the small workspace. -/
def real : Group := ⟨"real"⟩

/-- The entry method. -/
def arts : Method := { name := "Arts", takesAgenda := true }

/-- A method with a keyword that has a default. -/
def wait : Method := { name := "Wait", keywords := [⟨"time", .float, some "1.5"⟩] }

/-- A generic method. -/
def copy : Method := { name := "Copy", outputs := [.anyGroup], inputs := [.anyGroup] }

/-- The only specialization of the generic method. -/
def copyReal : Method := { name := "CopyReal", outputs := [.only real], inputs := [.only real] }

/-- A workspace with these methods and two variables. -/
def small : Workspace where
  methods := ⟨[⟨arts, none⟩, ⟨wait, none⟩, ⟨copy, none⟩, ⟨copyReal, some ⟨⟨2⟩, real⟩⟩]⟩
  vars := ⟨[⟨"x", real⟩, ⟨"y", real⟩]⟩

theorem small_methods_built : small.methods.Built := by
  have h₁ : MethodRegistry.Built ⟨[⟨arts, none⟩]⟩ :=
    .insert .empty (rfl : MethodRegistry.insert {} arts = .ok (⟨0⟩, _))
  have h₂ : MethodRegistry.Built ⟨[⟨arts, none⟩, ⟨wait, none⟩]⟩ :=
    .insert h₁ (rfl : MethodRegistry.insert _ wait = .ok (⟨1⟩, _))
  have h₃ : MethodRegistry.Built ⟨[⟨arts, none⟩, ⟨wait, none⟩, ⟨copy, none⟩]⟩ :=
    .insert h₂ (rfl : MethodRegistry.insert _ copy = .ok (⟨2⟩, _))
  exact .specialize h₃
    (rfl : MethodRegistry.insertSpecialization _ ⟨2⟩ real copyReal = .ok (⟨3⟩, _))

theorem small_vars_built : small.vars.Built := by
  have h₁ : VariableRegistry.Built ⟨[⟨"x", real⟩]⟩ :=
    .insert .empty (rfl : VariableRegistry.insert {} ⟨"x", real⟩ = .ok (⟨0⟩, _))
  exact .insert h₁ (rfl : VariableRegistry.insert _ ⟨"y", real⟩ = .ok (⟨1⟩, _))

end Workspace

end ControlScript
