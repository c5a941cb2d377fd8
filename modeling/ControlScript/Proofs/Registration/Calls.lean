import ControlScript.Proofs.Registration.Faults
import ControlScript.Proofs.Registration.Names
import ControlScript.Proofs.Registration.Tables
import Mathlib.Logic.Basic
import Mathlib.Logic.ExistsUnique

/-!
# Tables after any sequence of calls

However methods are registered in tables, and whichever calls are refused on the way, the tables
stand for the registry that the same calls build.  So their answers fit together: every id belongs
to a name or to a generic method and a group, never to both, and a call takes no earlier answer
back.
-/

namespace ControlScript

/-! ## 1. Sequences of calls -/

section Runs

variable {ε τ ρ ι γ α : Type}

/-- The state behind a call, whether it was granted or refused. -/
def stateAfter (run : γ → EStateM ε τ (Key α)) (t : τ) (call : γ) : τ :=
  match run call t with
  | .ok _ t' => t'
  | .error _ t' => t'

/-- The registry behind a call; one that is refused leaves it as it was. -/
def registryAfter (answer : γ → ρ → Except ε (ι × ρ)) (r : ρ) (call : γ) : ρ :=
  match answer call r with
  | .ok (_, r') => r'
  | .error _ => r

/-- The calls of a sequence that are granted, each with the id that it is given. -/
def granted (run : γ → EStateM ε τ (Key α)) (t : τ) : List γ → List (Key α × γ)
  | [] => []
  | call :: calls =>
    match run call t with
    | .ok id t' => (id, call) :: granted run t' calls
    | .error _ t' => granted run t' calls

variable {run : γ → EStateM ε τ (Key α)} {t t' : τ} {call : γ} {calls : List γ}

theorem stateAfter_of_ok {id : Key α} (h : run call t = .ok id t') :
    stateAfter run t call = t' := by
  rw [stateAfter, h]

theorem stateAfter_of_error {e : ε} (h : run call t = .error e t') :
    stateAfter run t call = t' := by
  rw [stateAfter, h]

/-- Tables stand for the registry that has granted the call. -/
theorem InStep.stateAfter {represents : τ → ρ → Prop} {toId : Key α → ι} {i : ι} {r' : ρ}
    (h : InStep represents toId t (run call t) (.ok (i, r'))) :
    represents (stateAfter run t call) r' := by
  obtain ⟨id, t', hrun, -, hrep⟩ := h.of_answer
  rw [stateAfter_of_ok hrun]
  exact hrep

theorem granted_of_ok {id : Key α} (h : run call t = .ok id t') :
    granted run t (call :: calls) = (id, call) :: granted run t' calls := by
  rw [granted, h]

theorem granted_of_error {e : ε} (h : run call t = .error e t') :
    granted run t (call :: calls) = granted run t' calls := by
  rw [granted, h]

theorem length_granted_le : (granted run t calls).length ≤ calls.length := by
  induction calls generalizing t with
  | nil => exact Nat.le_refl 0
  | cons call calls ih =>
    cases hrun : run call t with
    | ok id t' =>
      rw [granted_of_ok hrun]
      exact Nat.succ_le_succ ih
    | error e t' =>
      rw [granted_of_error hrun]
      exact Nat.le_succ_of_le ih

/-- What a single call does while there are ids left: tables that stand for a registry answer it as
    the registry does, and a call that is granted adds its item behind the others, under the id of
    that place. -/
structure KeepsStep (represents : τ → ρ → Prop) (toId : Key α → ι) (contents : τ → List α)
    (item : γ → α) (run : γ → EStateM ε τ (Key α)) (answer : γ → ρ → Except ε (ι × ρ)) : Prop where
  step : ∀ {t r} call, represents t r → (contents t).length < UInt32.size →
    InStep represents toId t (run call t) (answer call r)
  push : ∀ {t t' call id}, run call t = .ok id t' →
    contents t' = contents t ++ [item call] ∧ id = .ofIndex (contents t).length

/-- What a sequence of calls comes to while there are ids left. -/
structure KeptStep (represents : τ → ρ → Prop) (contents : τ → List α) (item : γ → α)
    (run : γ → EStateM ε τ (Key α)) (answer : γ → ρ → Except ε (ι × ρ)) (t : τ) (r : ρ)
    (calls : List γ) : Prop where
  state : represents (calls.foldl (stateAfter run) t) (calls.foldl (registryAfter answer) r)
  items : contents (calls.foldl (stateAfter run) t) =
    contents t ++ (granted run t calls).map (item ·.2)
  ids : (granted run t calls).map (·.1.index) =
    List.range' (contents t).length (granted run t calls).length

namespace KeepsStep

variable {represents : τ → ρ → Prop} {toId : Key α → ι} {contents : τ → List α} {item : γ → α}
  {answer : γ → ρ → Except ε (ι × ρ)} {r : ρ}

theorem foldl (h : KeepsStep represents toId contents item run answer) (hstate : represents t r)
    (hsize : (contents t).length + (granted run t calls).length < UInt32.size) :
    KeptStep represents contents item run answer t r calls := by
  -- Every call that is granted moves one id from the bound on what is left to the contents, so the
  -- sum stays what it was while the state and the registry change.
  induction calls generalizing t r with
  | nil => exact ⟨hstate, (List.append_nil _).symm, rfl⟩
  | cons call calls ih =>
    have hlt : (contents t).length < UInt32.size := Nat.lt_of_le_of_lt (Nat.le_add_right _ _) hsize
    have hstep := h.step call hstate hlt
    cases hrun : run call t with
    | ok id t' =>
      rw [hrun] at hstep
      obtain ⟨r', hanswer, hstate'⟩ := hstep.of_ok
      obtain ⟨hitems, rfl⟩ := h.push hrun
      have hlength : (contents t').length = (contents t).length + 1 := by
        rw [hitems, List.length_append, List.length_singleton]
      rw [granted_of_ok hrun, List.length_cons] at hsize
      have hrest := ih hstate' (by omega)
      constructor
      case state =>
        rw [List.foldl_cons, List.foldl_cons, stateAfter_of_ok hrun, registryAfter, hanswer]
        exact hrest.state
      case items =>
        rw [List.foldl_cons, stateAfter_of_ok hrun, hrest.items, granted_of_ok hrun, hitems,
          List.append_assoc, List.map_cons, List.singleton_append]
      case ids =>
        rw [granted_of_ok hrun, List.map_cons, hrest.ids, hlength, List.length_cons,
          List.range'_succ, Key.index_ofIndex hlt]
    | error e t' =>
      rw [hrun] at hstep
      obtain ⟨rfl, hanswer⟩ := hstep.of_error
      rw [granted_of_error hrun] at hsize
      have hrest := ih hstate hsize
      constructor
      case state =>
        rw [List.foldl_cons, List.foldl_cons, stateAfter_of_error hrun, registryAfter, hanswer]
        exact hrest.state
      case items =>
        rw [List.foldl_cons, stateAfter_of_error hrun, hrest.items, granted_of_error hrun]
      case ids => rw [granted_of_error hrun, hrest.ids]

end KeepsStep

end Runs

/-- What a map holds stays there when something is written under a key that was free. -/
theorem getElem?_insert_of_free {κ ν : Type} [BEq κ] [Hashable κ] [LawfulBEq κ]
    {map : Std.HashMap κ ν} {key key' : κ} {value : ν} (hfree : map[key]? = none) (new : ν)
    (h : map[key']? = some value) : (map.insert key new)[key']? = some value := by
  have hne : (key == key') = false := by
    refine beq_eq_false_iff_ne.2 fun hkey => ?_
    rw [← hkey, hfree] at h
    cases h
  rw [Std.HashMap.getElem?_insert, hne]
  exact h

/-- What an array holds stays there when something is written behind it. -/
theorem getElem?_push_of_some {ν : Type} {values : Array ν} {i : Nat} {value : ν} (new : ν)
    (h : values[i]? = some value) : (values.push new)[i]? = some value := by
  obtain ⟨hlt, -⟩ := Array.getElem?_eq_some_iff.1 h
  rw [Array.getElem?_push, if_neg (Nat.ne_of_lt hlt), h]

/-! ## 2. Nothing is taken back -/

namespace MethodTables

/-- What one set of tables answers, a second one answers as well. -/
structure Extends (t' t : MethodTables) : Prop where
  get : ∀ id m, t.get? id = some m → t'.get? id = some m
  find : ∀ name id, t.find? name = some id → t'.find? name = some id
  resolve : ∀ base group id, t.resolve? base group = some id → t'.resolve? base group = some id
  base : ∀ id base, t.baseOf? id = some base → t'.baseOf? id = some base

variable {t t' : MethodTables} {r : MethodRegistry}

/-- The name of a new method was free. -/
theorem extends_insert {m : Method} {id : Key Method} (h : insert m t = .ok id t') :
    t'.Extends t := by
  obtain ⟨-, hfree, rfl, -⟩ := insert_eq_ok_iff.1 h
  constructor
  case get => exact fun _ _ => getElem?_push_of_some m
  case find => exact fun _ _ => getElem?_insert_of_free hfree _
  case resolve => exact fun _ _ _ hsome => hsome
  case base => exact fun _ _ hsome => hsome

/-- What a new specialization specializes was free, and so was its id. -/
theorem extends_insertSpecialization (hrep : t.Represents r) (hsize : t.size < UInt32.size)
    {base id : Key Method} {group : Group} {m : Method}
    (h : insertSpecialization base group m t = .ok id t') : t'.Extends t := by
  obtain ⟨-, -, -, -, hfree, rfl, -⟩ := insertSpecialization_eq_ok_iff.1 h
  constructor
  case get => exact fun _ _ => getElem?_push_of_some m
  case find => exact fun _ _ hsome => hsome
  case resolve => exact fun _ _ _ => getElem?_insert_of_free hfree _
  case base => exact fun _ _ => getElem?_insert_of_free (hrep.baseOf?_next hsize) _

/-! ## 3. What the tables answer -/

namespace Represents

theorem get?_eq_some_iff (h : t.Represents r) {id : Key Method} {m : Method} :
    t.get? id = some m ↔ ∃ origin, r.entries[id.index]? = some ⟨m, origin⟩ := by
  rw [h.get?_eq, MethodRegistry.get?, Option.map_eq_some_iff]
  constructor
  · rintro ⟨⟨m, origin⟩, he, rfl⟩
    exact ⟨origin, he⟩
  · rintro ⟨origin, he⟩
    exact ⟨⟨m, origin⟩, he, rfl⟩

theorem find?_eq_some_iff (h : t.Represents r) (hr : r.Built) {name : String} {id : Key Method} :
    t.find? name = some id ↔ ∃ m, r.entries[id.index]? = some ⟨m, none⟩ ∧ m.name = name := by
  rw [← map_eq_some_iff_of_injective MethodId.ofKey_injective, h.find,
    hr.distinct.find?_eq_some_iff]
  rfl

theorem resolve?_eq_some_iff (h : t.Represents r) (hr : r.Built) {base id : Key Method}
    {group : Group} : t.resolve? base group = some id ↔
      ∃ m, r.entries[id.index]? = some ⟨m, some ⟨.ofKey base, group⟩⟩ := by
  rw [← map_eq_some_iff_of_injective MethodId.ofKey_injective, h.resolve,
    hr.distinct.resolve?_eq_some_iff]
  rfl

theorem baseOf?_eq_some_iff (h : t.Represents r) {id base : Key Method} :
    t.baseOf? id = some base ↔
      ∃ m group, r.entries[id.index]? = some ⟨m, some ⟨.ofKey base, group⟩⟩ := by
  rw [← map_eq_some_iff_of_injective MethodId.ofKey_injective, h.base,
    MethodRegistry.baseOf?_eq_some_iff]
  rfl

end Represents

/-- An id that the name of its method finds. -/
def IsOrdinary (t : MethodTables) (id : Key Method) : Prop :=
  ∃ m, t.get? id = some m ∧ t.find? m.name = some id ∧ t.baseOf? id = none

/-- An id that one generic method and one group find, but no name. -/
def IsSpecialization (t : MethodTables) (id : Key Method) : Prop :=
  ∃ base, t.baseOf? id = some base ∧ (∃! group, t.resolve? base group = some id) ∧
    ∀ name, t.find? name ≠ some id

/-- How the answers of the tables fit together. -/
structure Consistent (t : MethodTables) : Prop where
  classes : ∀ id m, t.get? id = some m → Xor (t.IsOrdinary id) (t.IsSpecialization id)
  named : ∀ name id, t.find? name = some id → ∃ m, t.get? id = some m ∧ m.name = name
  specializes : ∀ base group id, t.resolve? base group = some id →
    t.baseOf? id = some base ∧ base.index < id.index
  generic : ∀ base group id, t.resolve? base group = some id →
    ∃ b, t.get? base = some b ∧ b.isGeneric = true ∧ t.find? b.name = some base
  concrete : ∀ base group id, t.resolve? base group = some id →
    ∃ b m, t.get? base = some b ∧ t.get? id = some m ∧ m.isGeneric = false ∧
      m.outputs.length = b.outputs.length ∧ m.inputs.length = b.inputs.length
  keywords : ∀ id m, t.get? id = some m → (m.keywords.map (·.name)).Nodup ∧
    ¬(m.takesAgenda = true ∧ m.keywords ≠ [])

theorem Represents.isOrdinary (h : t.Represents r) (hr : r.Built) {id : Key Method} {m : Method}
    (he : r.entries[id.index]? = some ⟨m, none⟩) : t.IsOrdinary id := by
  refine ⟨m, h.get?_eq_some_iff.2 ⟨none, he⟩, (h.find?_eq_some_iff hr).2 ⟨m, he, rfl⟩, ?_⟩
  refine Option.eq_none_iff_forall_ne_some.2 fun base hbase => ?_
  obtain ⟨m', group, he'⟩ := h.baseOf?_eq_some_iff.1 hbase
  rw [he] at he'
  cases he'

theorem Represents.isSpecialization (h : t.Represents r) (hr : r.Built) {id : Key Method}
    {m : Method} {o : Origin} (he : r.entries[id.index]? = some ⟨m, some o⟩) :
    t.IsSpecialization id := by
  obtain ⟨base, group⟩ := o
  have hbase : (t.baseOf? id).map .ofKey = some base := by
    rw [h.base, MethodRegistry.baseOf?_eq_some_iff]
    exact ⟨m, group, he⟩
  -- what the tables have on record is the only id that stands for the generic method
  obtain ⟨key, hkey, rfl⟩ := Option.map_eq_some_iff.1 hbase
  refine ⟨key, hkey, ⟨group, (h.resolve?_eq_some_iff hr).2 ⟨m, he⟩, ?_⟩, ?_⟩
  · intro other hother
    obtain ⟨m', he'⟩ := (h.resolve?_eq_some_iff hr).1 hother
    rw [he] at he'
    cases he'
    rfl
  · intro name hname
    obtain ⟨m', he', -⟩ := (h.find?_eq_some_iff hr).1 hname
    rw [he] at he'
    cases he'

/-- Tables that stand for a registry that was built by registration are consistent. -/
theorem Represents.consistent (h : t.Represents r) (hr : r.Built) : t.Consistent := by
  constructor
  case classes =>
    intro id m hget
    obtain ⟨origin, he⟩ := h.get?_eq_some_iff.1 hget
    cases origin with
    | none =>
      have hordinary := h.isOrdinary hr he
      refine .inl ⟨hordinary, ?_⟩
      rintro ⟨base, -, -, hname⟩
      obtain ⟨m', -, hfind, -⟩ := hordinary
      exact hname _ hfind
    | some o =>
      have hspecial := h.isSpecialization hr he
      refine .inr ⟨hspecial, ?_⟩
      rintro ⟨m', -, hfind, -⟩
      obtain ⟨base, -, -, hname⟩ := hspecial
      exact hname _ hfind
  case named =>
    intro name id hfind
    obtain ⟨m, he, hname⟩ := (h.find?_eq_some_iff hr).1 hfind
    exact ⟨m, h.get?_eq_some_iff.2 ⟨none, he⟩, hname⟩
  case specializes =>
    intro base group id hresolve
    obtain ⟨m, he⟩ := (h.resolve?_eq_some_iff hr).1 hresolve
    exact ⟨h.baseOf?_eq_some_iff.2 ⟨m, group, he⟩, hr.distinct.earlier _ _ _ he⟩
  case generic =>
    intro base group id hresolve
    obtain ⟨m, he⟩ := (h.resolve?_eq_some_iff hr).1 hresolve
    obtain ⟨b, hb, hgeneric⟩ := hr.entry_of_base he
    exact ⟨b, h.get?_eq_some_iff.2 ⟨none, hb⟩, hgeneric,
      (h.find?_eq_some_iff hr).2 ⟨b, hb, rfl⟩⟩
  case concrete =>
    intro base group id hresolve
    obtain ⟨m, he⟩ := (h.resolve?_eq_some_iff hr).1 hresolve
    obtain ⟨b, hb, -⟩ := hr.entry_of_base he
    have hmem := List.mem_of_getElem? he
    have houtputs := hr.sound.outputs _ hmem _ rfl
    have hinputs := hr.sound.inputs _ hmem _ rfl
    rw [MethodRegistry.get_of_entry hb] at houtputs hinputs
    exact ⟨b, m, h.get?_eq_some_iff.2 ⟨none, hb⟩, h.get?_eq_some_iff.2 ⟨_, he⟩,
      hr.sound.concrete _ hmem _ rfl, houtputs, hinputs⟩
  case keywords =>
    intro id m hget
    obtain ⟨origin, he⟩ := h.get?_eq_some_iff.1 hget
    have hcheck := hr.sound.checked _ (List.mem_of_getElem? he)
    refine ⟨Method.nodup_keywords_of_check hcheck, ?_⟩
    rintro ⟨hagenda, hkeywords⟩
    exact hkeywords (Method.keywords_eq_nil_of_check hcheck hagenda)

/-! ## 4. Calls that register methods -/

/-- A call that registers a method in the tables. -/
inductive Call where
  | insert (method : Method)
  | insertSpecialization (base : Key Method) (group : Group) (method : Method)

namespace Call

/-- The method that a call registers. -/
def method : Call → Method
  | insert m => m
  | insertSpecialization _ _ m => m

/-- What the tables answer to a call. -/
def run : Call → EStateM RegistryError MethodTables (Key Method)
  | insert m => MethodTables.insert m
  | insertSpecialization base group m => MethodTables.insertSpecialization base group m

/-- The call of a registry that registers the same method. -/
def toRegistration : Call → Registration
  | insert m => .ordinary m
  | insertSpecialization base group m => .specialization (.ofKey base) group m

/-- What a registry answers to the same call. -/
def answer (call : Call) (r : MethodRegistry) : Except RegistryError (MethodId × MethodRegistry) :=
  call.toRegistration.run r

theorem inStep (h : t.Represents r) (hsize : t.size < UInt32.size) (call : Call) :
    InStep Represents .ofKey t (call.run t) (call.answer r) := by
  cases call with
  | insert m => exact h.insert hsize m
  | insertSpecialization base group m => exact h.insertSpecialization hsize base group m

theorem push_of_run {call : Call} {id : Key Method} (h : call.run t = .ok id t') :
    t'.methods = t.methods.push call.method ∧ id = .ofIndex t.size := by
  cases call with
  | insert m =>
    obtain ⟨-, -, rfl, hid⟩ := insert_eq_ok_iff.1 h
    exact ⟨rfl, hid⟩
  | insertSpecialization base group m =>
    obtain ⟨-, -, -, -, -, rfl, hid⟩ := insertSpecialization_eq_ok_iff.1 h
    exact ⟨rfl, hid⟩

theorem extends_of_run (hrep : t.Represents r) (hsize : t.size < UInt32.size) {call : Call}
    {id : Key Method} (h : call.run t = .ok id t') : t'.Extends t := by
  cases call with
  | insert m => exact extends_insert h
  | insertSpecialization base group m => exact extends_insertSpecialization hrep hsize h

theorem keepsStep : KeepsStep Represents .ofKey (·.methods.toList) method run answer := by
  constructor
  case step =>
    intro t r call hrep hsize
    rw [Array.length_toList] at hsize
    exact inStep hrep hsize call
  case push =>
    intro t t' call id hrun
    obtain ⟨hmethods, hid⟩ := push_of_run hrun
    rw [hmethods, Array.toList_push, Array.length_toList]
    exact ⟨rfl, hid⟩

theorem registryAfter_answer :
    registryAfter answer = fun r call => r.register call.toRegistration := by
  funext r call
  rw [registryAfter, answer, MethodRegistry.register]
  cases call.toRegistration.run r <;> rfl

end Call

/-- The tables behind a sequence of calls. -/
def after (calls : List Call) : MethodTables := calls.foldl (stateAfter Call.run) {}

variable {calls : List Call}

theorem keptStep (hcalls : (granted Call.run {} calls).length < UInt32.size) :
    KeptStep Represents (·.methods.toList) Call.method Call.run Call.answer {} {} calls :=
  Call.keepsStep.foldl represents_empty (by rwa [Array.toList_empty, List.length_nil, Nat.zero_add])

/-- Tables and registry answer a sequence of calls in step. -/
theorem represents_after (hcalls : (granted Call.run {} calls).length < UInt32.size) :
    (after calls).Represents
      ((calls.map Call.toRegistration).foldl MethodRegistry.register {}) := by
  rw [List.foldl_map, ← Call.registryAfter_answer]
  exact (keptStep hcalls).state

theorem methods_after (hcalls : (granted Call.run {} calls).length < UInt32.size) :
    (after calls).methods.toList = (granted Call.run {} calls).map (·.2.method) :=
  (keptStep hcalls).items

theorem size_after (hcalls : (granted Call.run {} calls).length < UInt32.size) :
    (after calls).size = (granted Call.run {} calls).length := by
  rw [size, ← Array.length_toList, methods_after hcalls, List.length_map]

/-- However methods were registered, ids were given out in order from zero on, the answers of the
    tables fit together, and one more call changes nothing or only adds answers. -/
theorem consistent_after_calls (calls : List Call)
    (hcalls : (granted Call.run {} calls).length < UInt32.size) :
    (granted Call.run {} calls).map (·.1.index) = List.range (after calls).size ∧
    (after calls).methods.toList = (granted Call.run {} calls).map (·.2.method) ∧
    (after calls).Consistent ∧
    ∀ call : Call,
      (∀ e t, call.run (after calls) = .error e t → t = after calls) ∧
      ∀ id t, call.run (after calls) = .ok id t →
        id.index = (after calls).size ∧ t.Extends (after calls) := by
  have hrep := represents_after hcalls
  have hsize : (after calls).size < UInt32.size := size_after hcalls ▸ hcalls
  have hconsistent := hrep.consistent (MethodRegistry.Built.empty.foldl _)
  refine ⟨?_, methods_after hcalls, hconsistent, fun call => ⟨?_, ?_⟩⟩
  · rw [size_after hcalls, List.range_eq_range']
    exact (keptStep hcalls).ids
  · intro e t hrun
    have hstep := Call.inStep hrep hsize call
    rw [hrun] at hstep
    exact hstep.of_error.1
  · intro id t hrun
    refine ⟨?_, Call.extends_of_run hrep hsize hrun⟩
    rw [(Call.push_of_run hrun).2, Key.index_ofIndex hsize]

/-- A generic method, its specialization, a method that is named like the specialization, and a
    second method that is named like the generic one. -/
def colliding : List Call :=
  [.insert Workspace.copy,
    .insertSpecialization (.ofIndex 0) Workspace.real
      { Workspace.copyReal with name := "Copy_real" },
    .insert { name := "Copy_real" },
    .insert { name := "Copy" }]

theorem consistent_after_colliding :
    (granted Call.run {} colliding).length < UInt32.size ∧
      (granted Call.run {} colliding).map (·.1.index) = [0, 1, 2] ∧
      (after colliding).Consistent ∧
      ((after colliding).find? "Copy_real").map .ofKey = some (MethodId.mk 2) ∧
      ((after colliding).baseOf? (.ofIndex 1)).map .ofKey = some (MethodId.mk 0) := by
  have hcalls : (granted Call.run {} colliding).length < UInt32.size :=
    Nat.lt_of_le_of_lt length_granted_le (by decide)
  obtain ⟨hids, -, hconsistent, -⟩ := consistent_after_calls colliding hcalls
  have hrep := represents_after hcalls
  refine ⟨hcalls, ?_, hconsistent, ?_, ?_⟩
  -- the maps are read through the registry, which can be computed
  · rw [hids, hrep.size_eq]
    decide
  · rw [hrep.find]
    decide
  · rw [hrep.base]
    decide

theorem after_concat (calls : List Call) (call : Call) :
    after (calls ++ [call]) = stateAfter Call.run (after calls) call := by
  rw [after, List.foldl_append]
  rfl

/-- Every registry that is built by registration, and has no more entries than there are ids, is
    what some calls make of the tables. -/
theorem exists_calls (h : r.Built) (hsize : r.size ≤ UInt32.size) :
    ∃ calls, (after calls).Represents r := by
  induction h with
  | empty => exact ⟨[], represents_empty⟩
  | @insert r r' m id _ hinsert ih =>
    obtain ⟨-, -, heq⟩ := MethodRegistry.insert_eq_ok_iff.1 hinsert
    have hlt : r.size < UInt32.size :=
      Nat.lt_of_lt_of_le (MethodRegistry.size_lt_of_push heq) hsize
    obtain ⟨calls, hrep⟩ := ih (Nat.le_of_lt hlt)
    have hstep := hrep.insert (hrep.size_eq ▸ hlt) m
    rw [hinsert] at hstep
    refine ⟨calls ++ [.insert m], ?_⟩
    rw [after_concat]
    exact hstep.stateAfter
  | @specialize r r' base id group m _ hinsert ih =>
    obtain ⟨-, hgeneric, -, -, -, heq⟩ := MethodRegistry.insertSpecialization_eq_ok_iff.1 hinsert
    have hlt : r.size < UInt32.size :=
      Nat.lt_of_lt_of_le (MethodRegistry.size_lt_of_push heq) hsize
    -- what is specialized is registered, so thirty-two bits tell its place
    obtain ⟨e, he, -⟩ := MethodRegistry.entry_of_isGeneric hgeneric
    obtain ⟨hbase, -⟩ := List.getElem?_eq_some_iff.1 he
    have hkey := MethodId.ofKey_ofIndex (Nat.lt_trans hbase hlt)
    obtain ⟨calls, hrep⟩ := ih (Nat.le_of_lt hlt)
    have hstep := hrep.insertSpecialization (hrep.size_eq ▸ hlt) (.ofIndex base.index) group m
    rw [hkey, hinsert] at hstep
    refine ⟨calls ++ [.insertSpecialization (.ofIndex base.index) group m], ?_⟩
    rw [after_concat]
    exact hstep.stateAfter

end MethodTables

/-! ## 5. Calls that register variables -/

theorem VariableRegistry.Built.foldl {r : VariableRegistry} (h : r.Built) (vars : List Variable) :
    (vars.foldl (registryAfter fun v r => r.insert v) r).Built := by
  induction vars generalizing r with
  | nil => exact h
  | cons v vars ih =>
    refine ih ?_
    rw [registryAfter]
    split
    · exact .insert h ‹_›
    · exact h

namespace VariableTables

/-- What one set of tables answers, a second one answers as well. -/
structure Extends (t' t : VariableTables) : Prop where
  get : ∀ id v, t.get? id = some v → t'.get? id = some v
  find : ∀ name id, t.find? name = some id → t'.find? name = some id

variable {t t' : VariableTables} {r : VariableRegistry}

/-- The name of a new variable was free. -/
theorem extends_insert {v : Variable} {id : Key Variable} (h : insert v t = .ok id t') :
    t'.Extends t := by
  obtain ⟨hfree, rfl, -⟩ := insert_eq_ok_iff.1 h
  constructor
  case get => exact fun _ _ => getElem?_push_of_some v
  case find => exact fun _ _ => getElem?_insert_of_free hfree _

theorem keepsStep :
    KeepsStep Represents .ofKey (·.vars.toList) id insert fun v r => r.insert v := by
  constructor
  case step =>
    intro t r v hrep hsize
    rw [Array.length_toList] at hsize
    exact hrep.insert hsize v
  case push =>
    intro t t' v id hrun
    obtain ⟨-, rfl, hid⟩ := insert_eq_ok_iff.1 hrun
    rw [Array.toList_push, Array.length_toList]
    exact ⟨rfl, hid⟩

/-- The tables behind a sequence of variables. -/
def after (vars : List Variable) : VariableTables := vars.foldl (stateAfter insert) {}

variable {vars : List Variable}

theorem keptStep (hvars : (granted insert {} vars).length < UInt32.size) :
    KeptStep Represents (·.vars.toList) id insert (fun v r => r.insert v) {} {} vars :=
  keepsStep.foldl represents_empty (by rwa [Array.toList_empty, List.length_nil, Nat.zero_add])

/-- Tables and registry answer a sequence of variables in step. -/
theorem represents_after (hvars : (granted insert {} vars).length < UInt32.size) :
    (after vars).Represents (vars.foldl (registryAfter fun v r => r.insert v) {}) :=
  (keptStep hvars).state

theorem vars_after (hvars : (granted insert {} vars).length < UInt32.size) :
    (after vars).vars.toList = (granted insert {} vars).map (·.2) :=
  (keptStep hvars).items

theorem size_after (hvars : (granted insert {} vars).length < UInt32.size) :
    (after vars).size = (granted insert {} vars).length := by
  rw [size, ← Array.length_toList, vars_after hvars, List.length_map]

/-- However variables were registered, ids were given out in order from zero on, a name finds the
    variable of that name, and one more variable changes nothing or only adds answers. -/
theorem consistent_after_variables (vars : List Variable)
    (hvars : (granted insert {} vars).length < UInt32.size) :
    (granted insert {} vars).map (·.1.index) = List.range (after vars).size ∧
    (after vars).vars.toList = (granted insert {} vars).map (·.2) ∧
    (∀ name id, (after vars).find? name = some id ↔
      ∃ v, (after vars).get? id = some v ∧ v.name = name) ∧
    ∀ v : Variable,
      (∀ e t, insert v (after vars) = .error e t → t = after vars) ∧
      ∀ id t, insert v (after vars) = .ok id t →
        id.index = (after vars).size ∧ t.Extends (after vars) := by
  have hrep := represents_after hvars
  have hsize : (after vars).size < UInt32.size := size_after hvars ▸ hvars
  have hbuilt := VariableRegistry.Built.empty.foldl vars
  refine ⟨?_, vars_after hvars, fun name id => ?_, fun v => ⟨?_, ?_⟩⟩
  · rw [size_after hvars, List.range_eq_range']
    exact (keptStep hvars).ids
  · rw [← map_eq_some_iff_of_injective VariableId.ofKey_injective, hrep.find,
      hbuilt.find?_eq_some_iff, hrep.get?_eq]
  · intro e t hrun
    have hstep := hrep.insert hsize v
    rw [hrun] at hstep
    exact hstep.of_error.1
  · intro id t hrun
    refine ⟨?_, extends_insert hrun⟩
    rw [(insert_eq_ok_iff.1 hrun).2.2, Key.index_ofIndex hsize]

/-- Every registry that is built by registration, and has no more entries than there are ids, is
    what some variables make of the tables. -/
theorem exists_variables (h : r.Built) (hsize : r.size ≤ UInt32.size) :
    ∃ vars, (after vars).Represents r := by
  induction h with
  | empty => exact ⟨[], represents_empty⟩
  | @insert r r' v id _ hinsert ih =>
    obtain ⟨-, -, heq⟩ := VariableRegistry.insert_eq_ok_iff.1 hinsert
    have hlt : r.size < UInt32.size := by
      rw [heq, VariableRegistry.size, List.length_append] at hsize
      exact hsize
    obtain ⟨vars, hrep⟩ := ih (Nat.le_of_lt hlt)
    have hstep := hrep.insert (hrep.size_eq ▸ hlt) v
    rw [hinsert] at hstep
    refine ⟨vars ++ [v], ?_⟩
    rw [after, List.foldl_append]
    exact hstep.stateAfter

end VariableTables

end ControlScript
