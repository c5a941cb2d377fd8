import ControlScript.Manifest
import ControlScript.Proofs.Registration

/-!
# Registries of manifests

A manifest registers its methods one after the other, each with its specializations behind it.  So
the registry is one that is built by registration, and a specialization has the name that is made
from the name of its generic method and its group.
-/

namespace ControlScript

/-! ## 1. Specializations by name -/

namespace MethodRegistry

variable {r : MethodRegistry}

/-- Every specialization is named after what it specializes. -/
def NamesSpecializations (r : MethodRegistry) : Prop :=
  ∀ e ∈ r.entries, ∀ o, e.origin = some o →
    e.method.name = Method.specializedName (r.get o.base).name o.group

/-- A registry of a manifest: built by registration, with specializations named after what they
    specialize. -/
structure Listed (r : MethodRegistry) : Prop where
  built : r.Built
  named : r.NamesSpecializations

theorem listed_empty : Listed {} := ⟨.empty, by simp [NamesSpecializations]⟩

theorem NamesSpecializations.push (hr : r.Sound) (h : r.NamesSpecializations)
    {entry : RegisteredMethod}
    (hentry : ∀ o, entry.origin = some o → (r.get o.base).isGeneric = true ∧
      entry.method.name = Method.specializedName (r.get o.base).name o.group) :
    (r.push entry).2.NamesSpecializations := by
  intro e he o ho
  have hmem : e ∈ r.entries ∨ e = entry := by simpa [MethodRegistry.push] using he
  -- a generic method is the same before and after
  rcases hmem with he | rfl
  · rw [get_push_of_isGeneric (hr.base e he o ho)]
    exact h e he o ho
  · obtain ⟨hgeneric, hname⟩ := hentry o ho
    rw [get_push_of_isGeneric hgeneric]
    exact hname

theorem Listed.insert (h : r.Listed) {m : Method} {id : MethodId} {r' : MethodRegistry}
    (hinsert : r.insert m = .ok (id, r')) : r'.Listed ∧ r'.entries[id.index]? = some ⟨m, none⟩ := by
  obtain ⟨-, -, heq⟩ := insert_eq_ok_iff.1 hinsert
  obtain ⟨rfl, rfl⟩ := Prod.mk.inj heq
  refine ⟨⟨h.built.insert hinsert, h.named.push h.built.sound ?_⟩, ?_⟩
  · intro o ho
    cases ho
  · exact List.getElem?_concat_length

theorem Listed.specialize (h : r.Listed) {base id : MethodId} {group : Group} {m : Method}
    {r' : MethodRegistry} (hinsert : r.insertSpecialization base group m = .ok (id, r'))
    (hname : m.name = Method.specializedName (r.get base).name group) :
    r'.Listed ∧ ∀ {e}, r.entries[base.index]? = some e → r'.entries[base.index]? = some e := by
  obtain ⟨-, hgeneric, -, -, -, heq⟩ := insertSpecialization_eq_ok_iff.1 hinsert
  obtain ⟨rfl, rfl⟩ := Prod.mk.inj heq
  refine ⟨⟨h.built.specialize hinsert, h.named.push h.built.sound ?_⟩, fun he => entry_push he _⟩
  intro o ho
  obtain rfl := Option.some.inj ho
  exact ⟨hgeneric, hname⟩

end MethodRegistry

/-! ## 2. Building -/

namespace Manifest

open MethodRegistry

section Steps

variable {ε α β : Type}

theorem except_bind_eq_ok_iff {x : Except ε α} {f : α → Except ε β} {b : β} :
    (x >>= f) = .ok b ↔ ∃ a, x = .ok a ∧ f a = .ok b := by
  cases x with
  | ok a => exact ⟨fun h => ⟨a, rfl, h⟩, fun ⟨_, ha, h⟩ => Except.ok.inj ha ▸ h⟩
  | error e => simp [bind, Except.bind]

theorem registered_eq_ok_iff {x : Except RegistryError α} {a : α} :
    registered x = .ok a ↔ x = .ok a := by
  cases x with
  | ok b =>
    show Except.ok b = Except.ok a ↔ _
    simp
  | error e =>
    show Except.error _ = Except.ok a ↔ _
    simp

/-- What every step of a fold keeps true is true when the fold succeeds. -/
theorem foldlM_invariant {p : β → Prop} {f : β → α → Except ε β}
    (hstep : ∀ {b a b'}, p b → f b a = .ok b' → p b') {entries : List α} {b b' : β} (hb : p b)
    (h : entries.foldlM f b = .ok b') : p b' := by
  induction entries generalizing b with
  | nil =>
    obtain rfl := Except.ok.inj h
    exact hb
  | cons a entries ih =>
    rw [List.foldlM_cons, except_bind_eq_ok_iff] at h
    obtain ⟨c, hc, h⟩ := h
    exact ih (hstep hb hc) h

end Steps

variable {declared : List String} {r r' : MethodRegistry} {entry : MethodEntry}

/-- While the specializations of a method are registered, its entry stays where it is. -/
theorem addSpecialization_listed {inherited : List Keyword} {base : MethodId} {m : Method}
    {own : SpecializationEntry} (h : r.Listed ∧ r.entries[base.index]? = some ⟨m, none⟩)
    (hname : m.name = entry.name)
    (hadd : addSpecialization declared entry inherited base r own = .ok r') :
    r'.Listed ∧ r'.entries[base.index]? = some ⟨m, none⟩ := by
  obtain ⟨hlisted, hbase⟩ := h
  -- keywords of its own or inherited ones, the specialization has the same name
  obtain ⟨target, outputs, inputs, keywords, id, hinsert⟩ : ∃ target outputs inputs keywords id,
      r.insertSpecialization base target ⟨Method.specializedName entry.name target, outputs, inputs,
        keywords, entry.agenda⟩ = .ok (id, r') := by
    simp only [addSpecialization, except_bind_eq_ok_iff] at hadd
    obtain ⟨target, -, outputs, -, inputs, -, hadd⟩ := hadd
    split at hadd
    all_goals
      simp only [except_bind_eq_ok_iff, registered_eq_ok_iff] at hadd
      obtain ⟨keywords, -, ⟨id, added⟩, hinsert, heq⟩ := hadd
      obtain rfl := Except.ok.inj heq
      exact ⟨target, outputs, inputs, keywords, id, hinsert⟩
  obtain ⟨hadded, hkeeps⟩ := hlisted.specialize hinsert (by rw [get_of_entry hbase, hname])
  exact ⟨hadded, hkeeps hbase⟩

theorem addMethod_listed (h : r.Listed) (hadd : addMethod declared r entry = .ok r') : r'.Listed := by
  simp only [addMethod, except_bind_eq_ok_iff, registered_eq_ok_iff] at hadd
  obtain ⟨keywords, -, outputs, -, inputs, -, ⟨base, added⟩, hinsert, hfold⟩ := hadd
  let m : Method := ⟨entry.name, outputs, inputs, keywords, entry.agenda⟩
  have hstart : added.Listed ∧ added.entries[base.index]? = some ⟨m, none⟩ := h.insert hinsert
  exact (foldlM_invariant (p := fun r => r.Listed ∧ r.entries[base.index]? = some ⟨m, none⟩)
    (fun h hadd => addSpecialization_listed h rfl hadd) hstart hfold).1

/-- The methods of a manifest are registered, and specializations have the names of their generic
    methods and groups. -/
theorem listed_of_build {m : Manifest} {w : Workspace} (h : m.build = .ok w) : w.methods.Listed := by
  simp only [build, except_bind_eq_ok_iff] at h
  obtain ⟨vars, -, methods, hmethods, heq⟩ := h
  obtain rfl := Except.ok.inj heq
  exact foldlM_invariant addMethod_listed listed_empty hmethods

end Manifest

end ControlScript
