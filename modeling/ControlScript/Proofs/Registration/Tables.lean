import ControlScript.Proofs.Registration.Views
import ControlScript.Proofs.Scan
import Mathlib.Data.List.Nodup

/-!
# Registries kept in tables

A registry as it can be kept in tables that are written in place: an array holds the declarations,
maps say which id belongs to a name, to a generic method and a group, and to a specialization, and
an id has thirty-two bits.  An entry of a map that is written again loses what it held, so it is the
checks in front of a write that keep what was registered before.  As long as there are ids left, a
registry and the tables that stand for it answer every call in the same way.
-/

namespace ControlScript

/-! ## 1. Ids of thirty-two bits -/

/-- The id of an entry in a table of `α`: its place, as far as thirty-two bits tell it. -/
@[ext]
structure Key (α : Type) where
  raw : UInt32

namespace Key

variable {α : Type}

instance : DecidableEq (Key α) := fun k k' => decidable_of_iff (k.raw = k'.raw) Key.ext_iff.symm

instance : Hashable (Key α) := ⟨fun k => hash k.raw⟩

/-- The place that an id stands for. -/
def index (k : Key α) : Nat := k.raw.toNat

/-- The id of a place. -/
def ofIndex (i : Nat) : Key α := ⟨.ofNat i⟩

theorem index_ofIndex {i : Nat} (h : i < UInt32.size) : (ofIndex i : Key α).index = i :=
  UInt32.toNat_ofNat_of_lt h

theorem index_injective {k k' : Key α} (h : k.index = k'.index) : k = k' :=
  Key.ext (UInt32.toNat_inj.1 h)

theorem ofIndex_eq_iff {i : Nat} (h : i < UInt32.size) {k : Key α} : ofIndex i = k ↔ k.index = i :=
  ⟨fun hk => hk ▸ index_ofIndex h, fun hk => index_injective ((index_ofIndex h).trans hk.symm)⟩

end Key

/-- The id of a method in a table, as an id of a registry. -/
def MethodId.ofKey (k : Key Method) : MethodId := ⟨k.index⟩

/-- The id of a variable in a table, as an id of a registry. -/
def VariableId.ofKey (k : Key Variable) : VariableId := ⟨k.index⟩

theorem MethodId.ofKey_injective : Function.Injective ofKey :=
  fun _ _ h => Key.index_injective (congrArg MethodId.index h)

theorem VariableId.ofKey_injective : Function.Injective ofKey :=
  fun _ _ h => Key.index_injective (congrArg VariableId.index h)

theorem MethodId.ofKey_ofIndex {id : MethodId} (h : id.index < UInt32.size) :
    ofKey (.ofIndex id.index) = id :=
  congrArg MethodId.mk (Key.index_ofIndex h)

theorem map_eq_some_iff_of_injective {κ ι : Type} {f : κ → ι} (hf : Function.Injective f)
    {found : Option κ} {k : κ} : found.map f = some (f k) ↔ found = some k := by
  rw [← Option.map_some, (Option.map_injective hf).eq_iff]

/-! ## 2. Tables of methods -/

/-- The methods in the order of their ids, the ids of ordinary methods by name, the ids of
    specializations by generic method and group, and the generic method of each specialization. -/
structure MethodTables where
  methods : Array Method := #[]
  generic : Std.HashMap String (Key Method) := {}
  resolved : Std.HashMap (Key Method × Group) (Key Method) := {}
  bases : Std.HashMap (Key Method) (Key Method) := {}

namespace MethodTables

/-- The number of registered methods, specializations included. -/
def size (t : MethodTables) : Nat := t.methods.size

/-- The method of a given id. -/
def get? (t : MethodTables) (id : Key Method) : Option Method := t.methods[id.index]?

/-- The method of a given id; an id that is not in use stands for a method without name, slots and
    keywords. -/
protected def get (t : MethodTables) (id : Key Method) : Method := (t.get? id).getD {}

/-- The ordinary method of a given name. -/
def find? (t : MethodTables) (name : String) : Option (Key Method) := t.generic[name]?

/-- The specialization of a generic method for a group. -/
def resolve? (t : MethodTables) (base : Key Method) (group : Group) : Option (Key Method) :=
  t.resolved[(base, group)]?

/-- The generic method that a specialization specializes. -/
def baseOf? (t : MethodTables) (id : Key Method) : Option (Key Method) := t.bases[id]?

/-- Writes a method behind the others. -/
def push (m : Method) : EStateM RegistryError MethodTables (Key Method) := do
  let id := .ofIndex (← get).size
  modify fun t => { t with methods := t.methods.push m }
  return id

/-- Registers an ordinary method under its name. -/
def insert (m : Method) : EStateM RegistryError MethodTables (Key Method) := do
  ofExcept m.check
  if (← get).generic.contains m.name then
    throw (.methodExists m.name)
  let id ← push m
  modify fun t => { t with generic := t.generic.insert m.name id }
  return id

/-- Registers a specialization of a generic method for one group: a concrete method with as many
    outputs and inputs as the generic one. -/
def insertSpecialization (base : Key Method) (group : Group) (m : Method) :
    EStateM RegistryError MethodTables (Key Method) := do
  ofExcept m.check
  let t ← get
  let generic := t.get base
  if !generic.isGeneric then
    throw (.notGeneric generic.name)
  if m.isGeneric then
    throw (.notConcrete m.name)
  if m.outputs.length ≠ generic.outputs.length ∨ m.inputs.length ≠ generic.inputs.length then
    throw (.slotCountDiffers generic.name m.name)
  if t.resolved.contains (base, group) then
    throw (.specializationExists generic.name group)
  let id ← push m
  modify fun t => { t with resolved := t.resolved.insert (base, group) id }
  modify fun t => { t with bases := t.bases.insert id base }
  return id

/-- What an ordinary method has to pass, and what is written then. -/
theorem insert_eq_ok_iff {t t' : MethodTables} {m : Method} {id : Key Method} :
    insert m t = .ok id t' ↔
      m.check = .ok () ∧ t.find? m.name = none ∧
        t' = { t with
          methods := t.methods.push m
          generic := t.generic.insert m.name (.ofIndex t.size) } ∧
        id = .ofIndex t.size := by
  simp [insert, push, find?, Unique.exists_iff]

/-- What a specialization has to pass, and what is written then. -/
theorem insertSpecialization_eq_ok_iff {t t' : MethodTables} {base id : Key Method} {group : Group}
    {m : Method} :
    insertSpecialization base group m t = .ok id t' ↔
      m.check = .ok () ∧ (t.get base).isGeneric = true ∧ m.isGeneric = false ∧
        (m.outputs.length = (t.get base).outputs.length ∧
          m.inputs.length = (t.get base).inputs.length) ∧
        t.resolve? base group = none ∧
        t' = { t with
          methods := t.methods.push m
          resolved := t.resolved.insert (base, group) (.ofIndex t.size)
          bases := t.bases.insert (.ofIndex t.size) base } ∧
        id = .ofIndex t.size := by
  simp [insertSpecialization, push, resolve?, Unique.exists_iff]

end MethodTables

/-! ## 3. Answers in step -/

/-- Two registries answer a call in step: both grant it under one id and stand for each other
    afterwards, or both refuse it for one reason and nothing was written. -/
inductive InStep {ε τ κ ρ ι : Type} (represents : τ → ρ → Prop) (toId : κ → ι) (t : τ) :
    EStateM.Result ε τ κ → Except ε (ι × ρ) → Prop
  | granted {id : κ} {t' : τ} {r' : ρ} : represents t' r' →
      InStep represents toId t (.ok id t') (.ok (toId id, r'))
  | refused {e : ε} : InStep represents toId t (.error e t) (.error e)

namespace InStep

variable {ε τ κ ρ ι α : Type} {represents : τ → ρ → Prop} {toId : κ → ι} {t : τ}
  {y : EStateM ε τ κ} {z : Except ε (ι × ρ)}

theorem granted_of_eq {id : κ} {i : ι} {t' : τ} {r' : ρ} (hid : toId id = i)
    (h : represents t' r') :
    InStep represents toId t (.ok id t' : EStateM.Result ε τ κ) (.ok (i, r')) :=
  hid ▸ .granted h

theorem ofExcept_bind {x : Except ε α} (h : InStep represents toId t (y t) z) :
    InStep represents toId t ((ofExcept x >>= fun _ => y) t) (x >>= fun _ => z) := by
  cases x with
  | ok a => exact h
  | error e => exact .refused

/-- Both registries have one condition for refusing a call. -/
theorem ite {p q : Prop} [Decidable p] [Decidable q] {x : EStateM ε τ κ} {w : Except ε (ι × ρ)}
    (hiff : p ↔ q) (hrefused : InStep represents toId t (x t) w)
    (h : ¬q → InStep represents toId t (y t) z) :
    InStep represents toId t ((if p then x else y) t) (if q then w else z) := by
  by_cases hq : q
  · rw [if_pos (hiff.2 hq), if_pos hq]
    exact hrefused
  · rw [if_neg (mt hiff.1 hq), if_neg hq]
    exact h hq

/-- A call for something that is registered is refused, wherever that is looked up. -/
theorem ite_contains {χ ν : Type} [BEq χ] [Hashable χ] [LawfulBEq χ]
    {map : Std.HashMap χ ν} {k : χ} {f : ν → ι} {found : Option ι} {x : EStateM ε τ κ}
    {w : Except ε (ι × ρ)} (hfound : (map[k]?).map f = found)
    (hrefused : InStep represents toId t (x t) w)
    (h : found = none → InStep represents toId t (y t) z) :
    InStep represents toId t ((if map.contains k then x else y) t)
      (if found.isSome then w else z) := by
  refine ite ?_ hrefused fun hnew => h (by simpa using hnew)
  rw [← hfound, Option.isSome_map, Std.HashMap.contains_eq_isSome_getElem?]

theorem of_ok {id : κ} {t' : τ} (h : InStep represents toId t (.ok id t') z) :
    ∃ r', z = .ok (toId id, r') ∧ represents t' r' := by
  obtain ⟨hrep⟩ := h
  exact ⟨_, rfl, hrep⟩

theorem of_error {e : ε} {t' : τ} (h : InStep represents toId t (.error e t') z) :
    t' = t ∧ z = .error e := by
  obtain ⟨⟩ := h
  exact ⟨rfl, rfl⟩

theorem of_answer {res : EStateM.Result ε τ κ} {i : ι} {r' : ρ}
    (h : InStep represents toId t res (.ok (i, r'))) :
    ∃ id t', res = .ok id t' ∧ toId id = i ∧ represents t' r' := by
  obtain ⟨hrep⟩ := h
  exact ⟨_, _, rfl, rfl, hrep⟩

end InStep

/-! ## 4. Tables that stand for a registry of methods -/

namespace MethodTables

/-- Tables hold the methods of a registry and answer as it does. -/
structure Represents (t : MethodTables) (r : MethodRegistry) : Prop where
  methods : t.methods.toList = r.entries.map (·.method)
  find : ∀ name, (t.find? name).map .ofKey = r.find? name
  resolve : ∀ base group, (t.resolve? base group).map .ofKey = r.resolve? (.ofKey base) group
  base : ∀ id, (t.baseOf? id).map .ofKey = r.baseOf? (.ofKey id)

variable {t : MethodTables} {r : MethodRegistry}

theorem represents_empty : Represents {} {} := by
  constructor
  case methods => rfl
  case find => simp [find?, MethodRegistry.find?, MethodRegistry.findFirst?]
  case resolve => simp [resolve?, MethodRegistry.resolve?, MethodRegistry.findFirst?]
  case base => simp [baseOf?, MethodRegistry.baseOf?]

namespace Represents

theorem size_eq (h : t.Represents r) : t.size = r.size := by
  rw [size, ← Array.length_toList, h.methods, List.length_map, MethodRegistry.size]

theorem get?_eq (h : t.Represents r) (id : Key Method) : t.get? id = r.get? (.ofKey id) := by
  rw [get?, ← Array.getElem?_toList, h.methods, List.getElem?_map, MethodRegistry.get?]
  rfl

theorem get_eq (h : t.Represents r) (id : Key Method) : t.get id = r.get (.ofKey id) := by
  rw [MethodTables.get, h.get?_eq, MethodRegistry.get]

/-- The next id is the same in the tables and in the registry, if thirty-two bits can tell it. -/
theorem ofKey_size (h : t.Represents r) (hsize : t.size < UInt32.size) :
    MethodId.ofKey (.ofIndex t.size) = ⟨r.size⟩ := by
  rw [MethodId.ofKey, Key.index_ofIndex hsize, h.size_eq]

/-- No generic method is on record for the next id. -/
theorem baseOf?_next (h : t.Represents r) (hsize : t.size < UInt32.size) :
    t.baseOf? (.ofIndex t.size) = none := by
  have hnone : r.baseOf? (.ofKey (.ofIndex t.size)) = none := by
    rw [h.ofKey_size hsize]
    exact MethodRegistry.baseOf?_eq_none_of_size_le (Nat.le_refl _)
  rw [← h.base] at hnone
  exact Option.map_eq_none_iff.1 hnone

/-- An entry that is new by its name is written beside the others. -/
theorem push_ordinary (h : t.Represents r) (hsize : t.size < UInt32.size) {m : Method}
    (hnew : r.find? m.name = none) :
    Represents { t with
        methods := t.methods.push m
        generic := t.generic.insert m.name (.ofIndex t.size) }
      (r.push ⟨m, none⟩).2 := by
  constructor
  case methods =>
    rw [Array.toList_push, h.methods, MethodRegistry.push, List.map_append, List.map_singleton]
  case find =>
    intro name
    show ((t.generic.insert m.name (.ofIndex t.size))[name]?).map MethodId.ofKey = _
    rw [Std.HashMap.getElem?_insert, MethodRegistry.find?, MethodRegistry.findFirst?_push]
    by_cases hname : m.name = name
    · subst hname
      rw [if_pos (beq_self_eq_true m.name), Option.map_some, h.ofKey_size hsize]
      show _ = Option.or (r.find? m.name) _
      simp [hnew]
    · rw [if_neg (by simpa using hname)]
      show (t.find? name).map _ = Option.or (r.find? name) _
      simp [h.find, hname]
  -- the new entry has no origin, so a generic method and a group find what they found
  case resolve =>
    intro base group
    rw [MethodRegistry.resolve?, MethodRegistry.findFirst?_push]
    show (t.resolve? base group).map _ = Option.or (r.resolve? (.ofKey base) group) _
    simp [h.resolve]
  case base =>
    intro id
    rw [MethodRegistry.baseOf?_push]
    show (t.baseOf? id).map _ = _
    -- the new id is not on record, as no id beyond the old entries was
    split
    · rename_i hid
      rw [h.base, MethodRegistry.baseOf?_eq_none_of_size_le (Nat.le_of_eq hid.symm)]
      rfl
    · exact h.base id

/-- A specialization of something else than the others is written beside them. -/
theorem push_specialization (h : t.Represents r) (hsize : t.size < UInt32.size) {base : Key Method}
    {group : Group} (m : Method) (hnew : r.resolve? (.ofKey base) group = none) :
    Represents { t with
        methods := t.methods.push m
        resolved := t.resolved.insert (base, group) (.ofIndex t.size)
        bases := t.bases.insert (.ofIndex t.size) base }
      (r.push ⟨m, some ⟨.ofKey base, group⟩⟩).2 := by
  constructor
  case methods =>
    rw [Array.toList_push, h.methods, MethodRegistry.push, List.map_append, List.map_singleton]
  -- the new entry has an origin, so its name is not looked up
  case find =>
    intro name
    rw [MethodRegistry.find?, MethodRegistry.findFirst?_push]
    show (t.find? name).map _ = Option.or (r.find? name) _
    simp [h.find]
  case resolve =>
    intro base' group'
    show ((t.resolved.insert (base, group) (.ofIndex t.size))[(base', group')]?).map _ = _
    rw [Std.HashMap.getElem?_insert, MethodRegistry.resolve?, MethodRegistry.findFirst?_push]
    by_cases hkey : (base, group) = (base', group')
    · obtain ⟨rfl, rfl⟩ := Prod.mk.inj hkey
      rw [if_pos (beq_self_eq_true (base, group)), Option.map_some, h.ofKey_size hsize]
      show _ = Option.or (r.resolve? (.ofKey base) group) _
      simp [hnew]
    · rw [if_neg (by simpa using hkey)]
      show (t.resolve? base' group').map _ = Option.or (r.resolve? (.ofKey base') group') _
      rw [Prod.mk.injEq, ← MethodId.ofKey_injective.eq_iff] at hkey
      simp [h.resolve, hkey]
  case base =>
    intro id
    show ((t.bases.insert (.ofIndex t.size) base)[id]?).map _ = _
    rw [Std.HashMap.getElem?_insert, MethodRegistry.baseOf?_push]
    have hplace : (MethodId.ofKey id).index = r.size ↔ Key.ofIndex t.size = id := by
      rw [Key.ofIndex_eq_iff hsize, h.size_eq]
      rfl
    by_cases hid : Key.ofIndex t.size = id
    · rw [if_pos (beq_iff_eq.2 hid), if_pos (hplace.2 hid)]
      rfl
    · rw [if_neg (mt beq_iff_eq.1 hid), if_neg (mt hplace.1 hid)]
      exact h.base id

/-- Tables and the registry that they stand for register an ordinary method in step. -/
theorem insert (h : t.Represents r) (hsize : t.size < UInt32.size) (m : Method) :
    InStep Represents .ofKey t (MethodTables.insert m t) (r.insert m) := by
  dsimp only [MethodTables.insert, MethodRegistry.insert]
  refine .ofExcept_bind (.ite_contains (h.find m.name) .refused fun hnew => ?_)
  exact .granted_of_eq (h.ofKey_size hsize) (h.push_ordinary hsize hnew)

/-- Tables and the registry that they stand for register a specialization in step. -/
theorem insertSpecialization (h : t.Represents r) (hsize : t.size < UInt32.size)
    (base : Key Method) (group : Group) (m : Method) :
    InStep Represents .ofKey t (MethodTables.insertSpecialization base group m t)
      (r.insertSpecialization (.ofKey base) group m) := by
  dsimp only [MethodTables.insertSpecialization, MethodRegistry.insertSpecialization]
  rw [← h.get_eq]
  -- the checks come in one order on both sides; only the last one looks something up in a map
  refine .ofExcept_bind <| .ite .rfl .refused fun _ => .ite .rfl .refused fun _ =>
    .ite .rfl .refused fun _ => .ite_contains (h.resolve base group) .refused fun hnew => ?_
  exact .granted_of_eq (h.ofKey_size hsize) (h.push_specialization hsize m hnew)

end Represents

end MethodTables

/-! ## 5. Tables of variables -/

/-- The variables in the order of their ids, and their ids by name. -/
structure VariableTables where
  vars : Array Variable := #[]
  byName : Std.HashMap String (Key Variable) := {}

namespace VariableTables

/-- The number of registered variables. -/
def size (t : VariableTables) : Nat := t.vars.size

/-- The variable of a given id. -/
def get? (t : VariableTables) (id : Key Variable) : Option Variable := t.vars[id.index]?

/-- The variable of a given name. -/
def find? (t : VariableTables) (name : String) : Option (Key Variable) := t.byName[name]?

/-- Registers a variable under its name. -/
def insert (v : Variable) : EStateM RegistryError VariableTables (Key Variable) := do
  if (← get).byName.contains v.name then
    throw (.variableExists v.name)
  let id := .ofIndex (← get).size
  modify fun t => { t with byName := t.byName.insert v.name id }
  modify fun t => { t with vars := t.vars.push v }
  return id

/-- What a variable has to pass, and what is written then. -/
theorem insert_eq_ok_iff {t t' : VariableTables} {v : Variable} {id : Key Variable} :
    insert v t = .ok id t' ↔
      t.find? v.name = none ∧
        t' = ⟨t.vars.push v, t.byName.insert v.name (.ofIndex t.size)⟩ ∧ id = .ofIndex t.size := by
  simp [insert, find?]

/-- Tables hold the variables of a registry and find what it finds. -/
structure Represents (t : VariableTables) (r : VariableRegistry) : Prop where
  vars : t.vars.toList = r.entries
  find : ∀ name, (t.find? name).map .ofKey = r.find? name

variable {t : VariableTables} {r : VariableRegistry}

theorem represents_empty : Represents {} {} := by
  constructor
  case vars => rfl
  case find => simp [find?, VariableRegistry.find?]

namespace Represents

theorem size_eq (h : t.Represents r) : t.size = r.size := by
  rw [size, ← Array.length_toList, h.vars, VariableRegistry.size]

theorem get?_eq (h : t.Represents r) (id : Key Variable) : t.get? id = r.get? (.ofKey id) := by
  rw [get?, ← Array.getElem?_toList, h.vars, VariableRegistry.get?]
  rfl

theorem ofKey_size (h : t.Represents r) (hsize : t.size < UInt32.size) :
    VariableId.ofKey (.ofIndex t.size) = ⟨r.size⟩ := by
  rw [VariableId.ofKey, Key.index_ofIndex hsize, h.size_eq]

/-- A variable that is new by its name is written beside the others. -/
theorem push (h : t.Represents r) (hsize : t.size < UInt32.size) {v : Variable}
    (hnew : r.find? v.name = none) :
    Represents ⟨t.vars.push v, t.byName.insert v.name (.ofIndex t.size)⟩
      ⟨r.entries ++ [v]⟩ := by
  constructor
  case vars => rw [Array.toList_push, h.vars]
  case find =>
    intro name
    show ((t.byName.insert v.name (.ofIndex t.size))[name]?).map VariableId.ofKey = _
    rw [Std.HashMap.getElem?_insert, VariableRegistry.find?_concat]
    by_cases hname : v.name = name
    · subst hname
      rw [if_pos (beq_self_eq_true v.name), Option.map_some, h.ofKey_size hsize, hnew,
        Option.none_or, if_pos rfl]
    · rw [if_neg (by simpa using hname), if_neg hname, Option.or_none]
      exact h.find name

/-- Tables and the registry that they stand for register a variable in step. -/
theorem insert (h : t.Represents r) (hsize : t.size < UInt32.size) (v : Variable) :
    InStep Represents .ofKey t (VariableTables.insert v t) (r.insert v) := by
  dsimp only [VariableTables.insert, VariableRegistry.insert]
  refine .ite_contains (h.find v.name) .refused fun hnew => ?_
  exact .granted_of_eq (h.ofKey_size hsize) (h.push hsize hnew)

end Represents

end VariableTables

end ControlScript
