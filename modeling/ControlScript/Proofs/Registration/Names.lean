import ControlScript.Proofs.Registration.Manifest
import ControlScript.Proofs.Registration.Views
import Mathlib.Data.List.Nodup

/-!
# What names tell apart

In the registries of a manifest a variable is known by its name, and a method by its name together
with the name of the generic method that it specializes.  The name alone does not do for a method: a
specialization may be named like an ordinary method, or like a specialization of another method.
-/

namespace ControlScript

/-! ## 1. Variables -/

namespace VariableRegistry

variable {r : VariableRegistry}

theorem Built.nodup_names (h : r.Built) : (r.entries.map (·.name)).Nodup := by
  induction h with
  | empty => exact List.nodup_nil
  | @insert r r' v id _ hinsert ih =>
    rw [VariableRegistry.insert] at hinsert
    split at hinsert
    · cases hinsert
    rename_i htaken
    cases hinsert
    have hnew : r.entries.findIdx? (·.name = v.name) = none := by
      simpa [find?] using htaken
    rw [List.map_append, List.map_singleton, ← List.concat_eq_append]
    refine ih.concat fun hmem => ?_
    obtain ⟨other, hother, hname⟩ := List.mem_map.1 hmem
    exact absurd hname (by simpa using List.findIdx?_eq_none_iff.1 hnew other hother)

/-- Variables of one name are one variable. -/
theorem Built.eq_of_name_eq (h : r.Built) {id id' : VariableId} {v v' : Variable}
    (hv : r.get? id = some v) (hv' : r.get? id' = some v') (hname : v.name = v'.name) :
    id = id' := by
  have hget : ∀ {id : VariableId} {v : Variable}, r.get? id = some v →
      (r.entries.map (·.name))[id.index]? = some v.name := by
    intro id v hv
    rw [List.getElem?_map]
    exact congrArg (Option.map (·.name)) hv
  obtain ⟨hlt, -⟩ := List.getElem?_eq_some_iff.1 (hget hv)
  have hindex := (List.getElem?_inj hlt h.nodup_names).1
    ((hget hv).trans ((congrArg some hname).trans (hget hv').symm))
  exact congrArg VariableId.mk hindex

theorem Built.find?_eq_some_iff (h : r.Built) {name : String} {id : VariableId} :
    r.find? name = some id ↔ ∃ v, r.get? id = some v ∧ v.name = name := by
  constructor
  · exact get?_of_find?
  rintro ⟨v, hv, rfl⟩
  cases hfind : r.find? v.name with
  | none =>
    have hnew := List.findIdx?_eq_none_iff.1 (Option.map_eq_none_iff.1 hfind) v
      (List.mem_of_getElem? hv)
    simp at hnew
  | some found =>
    obtain ⟨v', hv', hname⟩ := get?_of_find? hfind
    rw [h.eq_of_name_eq hv' hv hname]

/-- Variables of the same names are the same variables. -/
theorem Built.eq_of_names_eq (h : r.Built) {ids ids' : List VariableId}
    (hids : ∀ id ∈ ids, ∃ v, r.get? id = some v) (hids' : ∀ id ∈ ids', ∃ v, r.get? id = some v)
    (hnames : ids.map (fun id => (r.get id).name) = ids'.map fun id => (r.get id).name) :
    ids = ids' := by
  induction ids generalizing ids' with
  | nil => exact (List.map_eq_nil_iff.1 hnames.symm).symm
  | cons id ids ih =>
    cases ids' with
    | nil => cases hnames
    | cons id' ids' =>
      rw [List.map_cons, List.map_cons, List.cons.injEq] at hnames
      rw [List.forall_mem_cons] at hids hids'
      obtain ⟨v, hv⟩ := hids.1
      obtain ⟨v', hv'⟩ := hids'.1
      have hname : v.name = v'.name := by simpa [get, hv, hv'] using hnames.1
      rw [h.eq_of_name_eq hv hv' hname, ih hids.2 hids'.2 hnames.2]

end VariableRegistry

/-- The variables of a manifest are registered one after the other. -/
theorem Manifest.built_vars_of_build {m : Manifest} {w : Workspace} (h : m.build = .ok w) :
    w.vars.Built := by
  simp only [build, except_bind_eq_ok_iff] at h
  obtain ⟨vars, hvars, methods, -, heq⟩ := h
  obtain rfl := Except.ok.inj heq
  refine foldlM_invariant (fun {r entry r'} hr hadd => ?_) VariableRegistry.Built.empty hvars
  simp only [addVariable, except_bind_eq_ok_iff, registered_eq_ok_iff] at hadd
  obtain ⟨group, -, ⟨id, added⟩, hinsert, heq⟩ := hadd
  obtain rfl := Except.ok.inj heq
  exact .insert hr hinsert

/-! ## 2. Methods -/

namespace MethodRegistry

variable {r : MethodRegistry}

theorem Built.entry_of_origin (h : r.Built) {id : MethodId} {m : Method} {o : Origin}
    (he : r.entries[id.index]? = some ⟨m, some o⟩) :
    r.resolve? o.base o.group = some id ∧ r.find? (r.get o.base).name = some o.base := by
  obtain ⟨b, hb, -⟩ := h.entry_of_base he
  refine ⟨h.distinct.resolve?_eq_some_iff.2 ⟨m, he⟩, ?_⟩
  rw [get_of_entry hb]
  exact h.distinct.find?_eq_some_iff.2 ⟨b, hb, rfl⟩

/-- Methods of one name that specialize methods of one name, or none, are one method. -/
theorem Listed.eq_of_names_eq (h : r.Listed) {id id' : MethodId} {e e' : RegisteredMethod}
    (he : r.entries[id.index]? = some e) (he' : r.entries[id'.index]? = some e')
    (hname : (r.get id).name = (r.get id').name)
    (hbase : (r.baseOf? id).map (fun id => (r.get id).name)
      = (r.baseOf? id').map fun id => (r.get id).name) : id = id' := by
  rw [baseOf?_of_entry he, baseOf?_of_entry he'] at hbase
  obtain ⟨m, origin⟩ := e
  obtain ⟨m', origin'⟩ := e'
  cases origin with
  | none =>
    cases origin' with
    | some o' => cases hbase
    | none =>
      rw [get_of_entry he, get_of_entry he'] at hname
      exact congrArg MethodId.mk (h.built.distinct.names _ _ _ _ he he' hname)
  | some o =>
    cases origin' with
    | none => cases hbase
    | some o' =>
      obtain ⟨hresolve, hfind⟩ := h.built.entry_of_origin he
      obtain ⟨hresolve', hfind'⟩ := h.built.entry_of_origin he'
      have hbases : (r.get o.base).name = (r.get o'.base).name := by simpa using hbase
      -- generic methods are ordinary, so their names tell them apart
      have hsame : o.base = o'.base := by
        rw [hbases, hfind'] at hfind
        exact (Option.some.inj hfind).symm
      -- what is left of the names behind that of the generic method is the group
      have hgroups : o.group = o'.group := by
        have hm := h.named _ (List.mem_of_getElem? he) o rfl
        have hm' := h.named _ (List.mem_of_getElem? he') o' rfl
        rw [get_of_entry he, get_of_entry he', hm, hm', hbases, Method.specializedName,
          Method.specializedName, String.append_right_inj] at hname
        exact congrArg Group.mk hname
      rw [hsame, hgroups, hresolve'] at hresolve
      exact (Option.some.inj hresolve).symm

end MethodRegistry

end ControlScript
