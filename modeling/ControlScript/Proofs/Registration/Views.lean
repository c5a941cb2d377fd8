import ControlScript.Proofs.Registration

/-!
# The views of a method registry

A registry is asked in four ways: for the method of an id, for the id of a name, for the id of a
generic method and a group, and for the generic method of a specialization.  However methods were
registered, and whichever registrations were refused on the way, no two entries answer the same
question, so an answer is found exactly where an entry has it.
-/

namespace ControlScript

namespace MethodRegistry

variable {r : MethodRegistry}

/-! ## 1. One more entry -/

theorem size_lt_of_push {r' : MethodRegistry} {entry : RegisteredMethod} {id : MethodId}
    (h : (id, r') = r.push entry) : r.size < r'.size := by
  rw [(Prod.mk.inj h).2, size, size, List.length_append]
  exact Nat.lt_succ_self _

theorem entries_push (entry : RegisteredMethod) (i : Nat) :
    (r.push entry).2.entries[i]? = if i = r.size then some entry else r.entries[i]? := by
  show (r.entries ++ [entry])[i]? = _
  split
  · rename_i hi
    rw [hi]
    exact List.getElem?_concat_length
  · rename_i hi
    change i ≠ r.entries.length at hi
    rw [List.getElem?_append]
    split
    · rfl
    -- beyond the new entry, there is nothing in either list
    · have hend : [entry].length ≤ i - r.entries.length := by
        rw [List.length_singleton]
        omega
      rw [List.getElem?_eq_none hend, List.getElem?_eq_none (by omega)]

theorem findFirst?_push (entry : RegisteredMethod) (p : RegisteredMethod → Bool) :
    MethodRegistry.findFirst? (r.push entry).2 p =
      Option.or (r.findFirst? p) (if p entry then some ⟨r.size⟩ else none) :=
  map_findIdx?_concat MethodId.mk r.entries entry p

theorem baseOf?_push (entry : RegisteredMethod) (id : MethodId) :
    (r.push entry).2.baseOf? id =
      if id.index = r.size then entry.origin.map (·.base) else r.baseOf? id := by
  rw [baseOf?, entries_push]
  split
  · rw [Option.bind_some]
  · rw [baseOf?]

/-- Nothing is specialized by an id that is not in use. -/
theorem baseOf?_eq_none_of_size_le {id : MethodId} (h : r.size ≤ id.index) :
    r.baseOf? id = none := by
  rw [baseOf?, List.getElem?_eq_none h]
  rfl

/-! ## 2. No two entries answer the same question -/

/-- Ordinary methods differ in their names and specializations in what they specialize, which is
    always something registered before. -/
structure Distinct (r : MethodRegistry) : Prop where
  names : ∀ (i j : Nat) (m m' : Method), r.entries[i]? = some ⟨m, none⟩ →
    r.entries[j]? = some ⟨m', none⟩ → m.name = m'.name → i = j
  origins : ∀ (i j : Nat) (m m' : Method) (o : Origin), r.entries[i]? = some ⟨m, some o⟩ →
    r.entries[j]? = some ⟨m', some o⟩ → i = j
  earlier : ∀ (i : Nat) (m : Method) (o : Origin), r.entries[i]? = some ⟨m, some o⟩ → o.base.index < i

theorem ne_of_findFirst?_eq_none {p : RegisteredMethod → Bool} (h : r.findFirst? p = none)
    {i : Nat} {e : RegisteredMethod} (he : r.entries[i]? = some e) : p e = false :=
  List.findIdx?_eq_none_iff.1 (Option.map_eq_none_iff.1 h) e (List.mem_of_getElem? he)

theorem Distinct.insert (h : r.Distinct) {m : Method} (hnew : r.find? m.name = none) :
    (r.push ⟨m, none⟩).2.Distinct := by
  have hnames : ∀ (i : Nat) (m' : Method), r.entries[i]? = some ⟨m', none⟩ → m'.name ≠ m.name := by
    intro i m' he
    simpa using ne_of_findFirst?_eq_none hnew he
  constructor
  case names =>
    intro i j m₁ m₂ h₁ h₂ hname
    rw [entries_push] at h₁ h₂
    split at h₁ <;> split at h₂
    · omega
    · cases h₁
      exact absurd hname.symm (hnames j m₂ h₂)
    · cases h₂
      exact absurd hname (hnames i m₁ h₁)
    · exact h.names i j m₁ m₂ h₁ h₂ hname
  -- the new entry has no origin
  case origins =>
    intro i j m₁ m₂ o h₁ h₂
    rw [entries_push] at h₁ h₂
    split at h₁
    · cases h₁
    split at h₂
    · cases h₂
    exact h.origins i j m₁ m₂ o h₁ h₂
  case earlier =>
    intro i m₁ o h₁
    rw [entries_push] at h₁
    split at h₁
    · cases h₁
    exact h.earlier i m₁ o h₁

theorem Distinct.specialize (h : r.Distinct) {base : MethodId} {group : Group} {m : Method}
    (hgeneric : (r.get base).isGeneric = true) (hnew : r.resolve? base group = none) :
    (r.push ⟨m, some ⟨base, group⟩⟩).2.Distinct := by
  have horigins : ∀ (i : Nat) (m' : Method), r.entries[i]? ≠ some ⟨m', some ⟨base, group⟩⟩ := by
    intro i m' he
    simpa using ne_of_findFirst?_eq_none hnew he
  have hbase : base.index < r.size := by
    obtain ⟨e, he, -⟩ := entry_of_isGeneric hgeneric
    exact (List.getElem?_eq_some_iff.1 he).1
  constructor
  -- the new entry has an origin
  case names =>
    intro i j m₁ m₂ h₁ h₂ hname
    rw [entries_push] at h₁ h₂
    split at h₁
    · cases h₁
    split at h₂
    · cases h₂
    exact h.names i j m₁ m₂ h₁ h₂ hname
  case origins =>
    intro i j m₁ m₂ o h₁ h₂
    rw [entries_push] at h₁ h₂
    split at h₁ <;> split at h₂
    · omega
    · cases h₁
      exact absurd h₂ (horigins j m₂)
    · cases h₂
      exact absurd h₁ (horigins i m₁)
    · exact h.origins i j m₁ m₂ o h₁ h₂
  case earlier =>
    intro i m₁ o h₁
    rw [entries_push] at h₁
    split at h₁
    · cases h₁
      show base.index < i
      omega
    · exact h.earlier i m₁ o h₁

theorem Built.distinct (h : r.Built) : r.Distinct := by
  induction h with
  | empty => constructor <;> simp
  | insert _ hinsert ih =>
    obtain ⟨-, hnew, heq⟩ := insert_eq_ok_iff.1 hinsert
    rw [(Prod.mk.inj heq).2]
    exact ih.insert hnew
  | specialize _ hinsert ih =>
    obtain ⟨-, hgeneric, -, -, hnew, heq⟩ := insertSpecialization_eq_ok_iff.1 hinsert
    rw [(Prod.mk.inj heq).2]
    exact ih.specialize hgeneric hnew

/-! ## 3. What the look-ups find -/

theorem Distinct.find?_eq_some_iff (h : r.Distinct) {name : String} {id : MethodId} :
    r.find? name = some id ↔ ∃ m, r.entries[id.index]? = some ⟨m, none⟩ ∧ m.name = name := by
  constructor
  · exact entry_of_find?
  rintro ⟨m, he, hname⟩
  cases hfind : r.find? name with
  | none =>
    have hne := ne_of_findFirst?_eq_none hfind he
    simp [hname] at hne
  | some found =>
    obtain ⟨m', he', hname'⟩ := entry_of_find? hfind
    have hindex := h.names _ _ _ _ he' he (hname'.trans hname.symm)
    exact congrArg (fun i => some (MethodId.mk i)) hindex

theorem Distinct.resolve?_eq_some_iff (h : r.Distinct) {base id : MethodId} {group : Group} :
    r.resolve? base group = some id ↔
      ∃ m, r.entries[id.index]? = some ⟨m, some ⟨base, group⟩⟩ := by
  constructor
  · exact entry_of_resolve?
  rintro ⟨m, he⟩
  cases hfind : r.resolve? base group with
  | none =>
    have hne := ne_of_findFirst?_eq_none hfind he
    simp at hne
  | some found =>
    obtain ⟨m', he'⟩ := entry_of_resolve? hfind
    have hindex := h.origins _ _ _ _ _ he' he
    exact congrArg (fun i => some (MethodId.mk i)) hindex

/-- What a specialization specializes is a generic method that is found by its name. -/
theorem Built.entry_of_base (h : r.Built) {i : Nat} {base : MethodId} {group : Group} {m : Method}
    (he : r.entries[i]? = some ⟨m, some ⟨base, group⟩⟩) :
    ∃ b, r.entries[base.index]? = some ⟨b, none⟩ ∧ b.isGeneric = true := by
  have hgeneric := h.sound.base _ (List.mem_of_getElem? he) _ rfl
  obtain ⟨⟨b, origin⟩, hb, hmethod⟩ := entry_of_isGeneric hgeneric
  cases origin with
  | none => exact ⟨b, hb, (congrArg Method.isGeneric hmethod).trans hgeneric⟩
  | some o =>
    -- what has an origin is concrete
    have hconcrete := h.sound.concrete _ (List.mem_of_getElem? hb) o rfl
    rw [hmethod, hgeneric] at hconcrete
    cases hconcrete

end MethodRegistry

/-! ## 4. Any sequence of calls -/

/-- A call that registers a method. -/
inductive Registration where
  | ordinary (method : Method)
  | specialization (base : MethodId) (group : Group) (method : Method)

namespace Registration

/-- The method that a call registers. -/
def method : Registration → Method
  | ordinary m => m
  | specialization _ _ m => m

/-- What a registry answers to a call. -/
def run (r : MethodRegistry) : Registration → Except RegistryError (MethodId × MethodRegistry)
  | ordinary m => r.insert m
  | specialization base group m => r.insertSpecialization base group m

end Registration

namespace MethodRegistry

/-- The registry behind a call; one that is refused leaves it as it was. -/
def register (r : MethodRegistry) (call : Registration) : MethodRegistry :=
  match call.run r with
  | .ok (_, r') => r'
  | .error _ => r

variable {r : MethodRegistry}

/-- A call that is not refused adds one entry, whose method is the one of the call. -/
theorem push_of_run {r' : MethodRegistry} {call : Registration} {id : MethodId}
    (h : call.run r = .ok (id, r')) :
    ∃ entry, entry.method = call.method ∧ id = ⟨r.size⟩ ∧ r' = (r.push entry).2 := by
  cases call with
  | ordinary m =>
    obtain ⟨-, -, heq⟩ := insert_eq_ok_iff.1 h
    exact ⟨⟨m, none⟩, rfl, Prod.mk.inj heq⟩
  | specialization base group m =>
    obtain ⟨-, -, -, -, -, heq⟩ := insertSpecialization_eq_ok_iff.1 h
    exact ⟨⟨m, some ⟨base, group⟩⟩, rfl, Prod.mk.inj heq⟩

theorem register_of_ok {call : Registration} {answer : MethodId × MethodRegistry}
    (h : call.run r = .ok answer) : r.register call = answer.2 := by
  rw [register, h]

theorem register_of_error {call : Registration} {e : RegistryError} (h : call.run r = .error e) :
    r.register call = r := by
  rw [register, h]

theorem Built.register (h : r.Built) (call : Registration) : (r.register call).Built := by
  cases hrun : call.run r with
  | error e =>
    rw [register_of_error hrun]
    exact h
  | ok answer =>
    rw [register_of_ok hrun]
    cases call with
    | ordinary m => exact .insert h hrun
    | specialization base group m => exact .specialize h hrun

theorem Built.foldl (h : r.Built) (calls : List Registration) :
    (calls.foldl MethodRegistry.register r).Built := by
  induction calls generalizing r with
  | nil => exact h
  | cons call calls ih => exact ih (h.register call)

end MethodRegistry

end ControlScript
