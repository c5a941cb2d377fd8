import ControlScript.Proofs.Reading.Keywords
import ControlScript.Proofs.Registration.Manifest

/-!
# Faults of manifests

What can be wrong with the lists of a manifest, one fault at a time and without regard to what
stands before it, and what the entries stand for when nothing is wrong.  Each check of a group, of a
slot and of a list of keywords fails exactly at such a fault.
-/

namespace ControlScript

/-! ## 1. Checked methods -/

theorem firstRepeated?_eq_none_iff {seen names : List String} :
    firstRepeated? seen names = none ↔ names.Nodup ∧ ∀ name ∈ names, name ∉ seen := by
  refine ⟨nodup_of_firstRepeated?, ?_⟩
  induction names generalizing seen with
  | nil => exact fun _ => rfl
  | cons name names ih =>
    rintro ⟨hnodup, hseen⟩
    obtain ⟨hname, hnodup⟩ := List.nodup_cons.1 hnodup
    rw [firstRepeated?, if_neg (hseen name List.mem_cons_self)]
    refine ih ⟨hnodup, fun other hother hmem => ?_⟩
    rcases List.mem_cons.1 hmem with rfl | hmem
    · exact hname hother
    · exact hseen other (List.mem_cons_of_mem _ hother) hmem

theorem Method.check_eq_ok_iff {m : Method} :
    m.check = .ok () ↔
      (m.takesAgenda = true → m.keywords = []) ∧ (m.keywords.map (·.name)).Nodup := by
  refine ⟨fun h => ⟨keywords_eq_nil_of_check h, nodup_keywords_of_check h⟩, ?_⟩
  rintro ⟨hagenda, hnodup⟩
  have hfine : (m.takesAgenda && !m.keywords.isEmpty) = false := by
    cases htakes : m.takesAgenda with
    | false => rfl
    | true => rw [hagenda htakes]; rfl
  have hfirst : firstRepeated? [] (m.keywords.map (·.name)) = none :=
    firstRepeated?_eq_none_iff.2 ⟨hnodup, fun _ _ => List.not_mem_nil⟩
  rw [check, hfine, hfirst]
  rfl

/-! ## 2. Registries as lists of entries -/

namespace MethodRegistry

variable {r : MethodRegistry}

theorem find?_eq_none_iff {name : String} :
    r.find? name = none ↔ ∀ e ∈ r.entries, e.origin = none → e.method.name ≠ name := by
  simp [find?, findFirst?]

theorem resolve?_eq_none_iff {base : MethodId} {group : Group} :
    r.resolve? base group = none ↔ ∀ e ∈ r.entries, e.origin ≠ some ⟨base, group⟩ := by
  simp [resolve?, findFirst?]

/-- Specializations stand behind the methods that they specialize. -/
def BasesExist (r : MethodRegistry) : Prop :=
  ∀ e ∈ r.entries, ∀ o, e.origin = some o → o.base.index < r.size

end MethodRegistry

theorem VariableRegistry.insert_eq_ok_iff {r r' : VariableRegistry} {v : Variable}
    {id : VariableId} :
    r.insert v = .ok (id, r') ↔
      (∀ v' ∈ r.entries, v'.name ≠ v.name) ∧ id = ⟨r.size⟩ ∧ r' = ⟨r.entries ++ [v]⟩ := by
  have htaken : (r.find? v.name).isSome = true ↔ ¬∀ v' ∈ r.entries, v'.name ≠ v.name := by
    rw [Option.isSome_iff_ne_none, not_iff_not]
    simp [find?]
  rw [insert]
  split
  · rename_i hname
    simp [htaken.1 hname]
  · rename_i hname
    rw [htaken, not_not] at hname
    simp only [Except.ok.injEq, Prod.mk.injEq]
    constructor
    · rintro ⟨rfl, rfl⟩
      exact ⟨hname, rfl, rfl⟩
    · rintro ⟨-, rfl, rfl⟩
      exact ⟨rfl, rfl⟩

namespace Manifest

/-! ## 3. What the entries stand for -/

/-- The variable of an entry. -/
def VariableEntry.toVariable (entry : VariableEntry) : Variable := ⟨entry.name, ⟨entry.group⟩⟩

/-- The slot of a given name. -/
def slotNamed (name : String) : Slot := if name = anyGroup then .anyGroup else .only ⟨name⟩

/-- The keyword of an entry.  A kind of another name is a fault, so what it stands for here does not
    matter. -/
def KeywordEntry.toKeyword (entry : KeywordEntry) : Keyword :=
  ⟨entry.name, (ValueKind.ofName? entry.kind).getD .string, entry.default⟩

/-- The method of an entry. -/
def MethodEntry.toMethod (entry : MethodEntry) : Method where
  name := entry.name
  outputs := entry.outputs.map slotNamed
  inputs := entry.inputs.map slotNamed
  keywords := entry.keywords.map (·.toKeyword)
  takesAgenda := entry.agenda

/-- A specialization of the method of an entry. -/
def SpecializationEntry.toMethod (own : SpecializationEntry) (entry : MethodEntry) : Method where
  name := Method.specializedName entry.name ⟨own.group⟩
  outputs := own.outputs.map slotNamed
  inputs := own.inputs.map slotNamed
  keywords := (own.keywords.getD entry.keywords).map (·.toKeyword)
  takesAgenda := entry.agenda

/-! ## 4. Faults -/

/-- A kind that has none of the six names. -/
def KeywordEntry.Unknown (entry : KeywordEntry) : Prop :=
  ∀ kind : ValueKind, kind.name ≠ entry.kind

/-- A slot that is named after a group that is not declared. -/
def Undeclared (declared : List String) (name : String) : Prop :=
  name ≠ anyGroup ∧ name ∉ declared

/-- What can be wrong with a specialization of a method. -/
inductive SpecializationEntry.Faulty (declared : List String) (entry : MethodEntry)
    (own : SpecializationEntry) : Prop
  | group : own.group ∉ declared → own.Faulty declared entry
  | slot {name : String} :
      name ∈ own.outputs ++ own.inputs → Undeclared declared name → own.Faulty declared entry
  | kind {entries : List KeywordEntry} {keyword : KeywordEntry} :
      own.keywords = some entries → keyword ∈ entries → keyword.Unknown → own.Faulty declared entry
  | keywords {entries : List KeywordEntry} :
      own.keywords = some entries → ¬(entries.map (·.name)).Nodup → own.Faulty declared entry
  | agenda {entries : List KeywordEntry} :
      own.keywords = some entries → entry.agenda = true → entries ≠ [] → own.Faulty declared entry
  | notGeneric : anyGroup ∉ entry.outputs ++ entry.inputs → own.Faulty declared entry
  | notConcrete : anyGroup ∈ own.outputs ++ own.inputs → own.Faulty declared entry
  | outputs : own.outputs.length ≠ entry.outputs.length → own.Faulty declared entry
  | inputs : own.inputs.length ≠ entry.inputs.length → own.Faulty declared entry

/-- What can be wrong with a method. -/
inductive MethodEntry.Faulty (declared : List String) (entry : MethodEntry) : Prop
  | slot {name : String} :
      name ∈ entry.outputs ++ entry.inputs → Undeclared declared name → entry.Faulty declared
  | kind {keyword : KeywordEntry} :
      keyword ∈ entry.keywords → keyword.Unknown → entry.Faulty declared
  | keywords : ¬(entry.keywords.map (·.name)).Nodup → entry.Faulty declared
  | agenda : entry.agenda = true → entry.keywords ≠ [] → entry.Faulty declared
  | specialization {own : SpecializationEntry} :
      own ∈ entry.specializations → own.Faulty declared entry → entry.Faulty declared
  | groups : ¬(entry.specializations.map (·.group)).Nodup → entry.Faulty declared

/-- What can be wrong with a manifest. -/
inductive Faulty (m : Manifest) : Prop
  | group {entry : VariableEntry} : entry ∈ m.vars → entry.group ∉ m.groups → m.Faulty
  | varNames : ¬(m.vars.map (·.name)).Nodup → m.Faulty
  | method {entry : MethodEntry} : entry ∈ m.methods → entry.Faulty m.groups → m.Faulty
  | methodNames : ¬(m.methods.map (·.name)).Nodup → m.Faulty

/-- Keywords that a method may list: of known kinds, with distinct names, and none beside an
    agenda. -/
structure KeywordsFit (agenda : Bool) (entries : List KeywordEntry) : Prop where
  kinds : ∀ keyword ∈ entries, ¬keyword.Unknown
  names : (entries.map (·.name)).Nodup
  agenda : agenda = true → entries = []

theorem SpecializationEntry.not_faulty_iff {declared : List String} {entry : MethodEntry}
    {own : SpecializationEntry} :
    ¬own.Faulty declared entry ↔
      own.group ∈ declared ∧ (∀ name ∈ own.outputs ++ own.inputs, ¬Undeclared declared name) ∧
        (∀ entries, own.keywords = some entries → KeywordsFit entry.agenda entries) ∧
        anyGroup ∈ entry.outputs ++ entry.inputs ∧ anyGroup ∉ own.outputs ++ own.inputs ∧
        own.outputs.length = entry.outputs.length ∧ own.inputs.length = entry.inputs.length := by
  constructor
  · intro h
    refine ⟨not_not.1 fun hgroup => h (.group hgroup), fun name hmem hname => h (.slot hmem hname),
      fun entries hentries => ?_, not_not.1 fun hgeneric => h (.notGeneric hgeneric),
      fun hconcrete => h (.notConcrete hconcrete), not_not.1 fun hcount => h (.outputs hcount),
      not_not.1 fun hcount => h (.inputs hcount)⟩
    exact ⟨fun keyword hmem hkind => h (.kind hentries hmem hkind),
      not_not.1 fun hnames => h (.keywords hentries hnames),
      fun hagenda => not_not.1 fun hne => h (.agenda hentries hagenda hne)⟩
  · rintro ⟨hgroup, hslots, hkeywords, hgeneric, hconcrete, houtputs, hinputs⟩ hfaulty
    cases hfaulty with
    | group h => exact h hgroup
    | slot hmem h => exact hslots _ hmem h
    | kind hentries hmem h => exact (hkeywords _ hentries).kinds _ hmem h
    | keywords hentries h => exact h (hkeywords _ hentries).names
    | agenda hentries hagenda h => exact h ((hkeywords _ hentries).agenda hagenda)
    | notGeneric h => exact h hgeneric
    | notConcrete h => exact hconcrete h
    | outputs h => exact h houtputs
    | inputs h => exact h hinputs

theorem MethodEntry.not_faulty_iff {declared : List String} {entry : MethodEntry} :
    ¬entry.Faulty declared ↔
      (∀ name ∈ entry.outputs ++ entry.inputs, ¬Undeclared declared name) ∧
        KeywordsFit entry.agenda entry.keywords ∧
        (∀ own ∈ entry.specializations, ¬own.Faulty declared entry) ∧
        (entry.specializations.map (·.group)).Nodup := by
  constructor
  · intro h
    refine ⟨fun name hmem hname => h (.slot hmem hname), ?_,
      fun own hown hfaulty => h (.specialization hown hfaulty),
      not_not.1 fun hgroups => h (.groups hgroups)⟩
    exact ⟨fun keyword hmem hkind => h (.kind hmem hkind),
      not_not.1 fun hnames => h (.keywords hnames),
      fun hagenda => not_not.1 fun hne => h (.agenda hagenda hne)⟩
  · rintro ⟨hslots, hkeywords, hspecializations, hgroups⟩ hfaulty
    cases hfaulty with
    | slot hmem h => exact hslots _ hmem h
    | kind hmem h => exact hkeywords.kinds _ hmem h
    | keywords h => exact h hkeywords.names
    | agenda hagenda h => exact h (hkeywords.agenda hagenda)
    | specialization hown h => exact hspecializations _ hown h
    | groups h => exact h hgroups

theorem not_faulty_iff {m : Manifest} :
    ¬m.Faulty ↔
      ((∀ entry ∈ m.vars, entry.group ∈ m.groups) ∧ (m.vars.map (·.name)).Nodup) ∧
        (∀ entry ∈ m.methods, ¬entry.Faulty m.groups) ∧ (m.methods.map (·.name)).Nodup := by
  constructor
  · intro h
    exact ⟨⟨fun entry hentry => not_not.1 fun hgroup => h (.group hentry hgroup),
      not_not.1 fun hnames => h (.varNames hnames)⟩,
      fun entry hentry hfaulty => h (.method hentry hfaulty),
      not_not.1 fun hnames => h (.methodNames hnames)⟩
  · rintro ⟨⟨hgroups, hvars⟩, hentries, hmethods⟩ hfaulty
    cases hfaulty with
    | group hentry h => exact h (hgroups _ hentry)
    | varNames h => exact h hvars
    | method hentry h => exact hentries _ hentry h
    | methodNames h => exact h hmethods

/-! ## 5. Checks of groups, slots and keywords -/

section Checks

variable {declared : List String} {context : String}

theorem group_eq_ok_iff {name : String} {group : Group} :
    Manifest.group declared context name = .ok group ↔ name ∈ declared ∧ group = ⟨name⟩ := by
  rw [Manifest.group]
  split
  · rename_i hname
    simp [hname, eq_comm]
  · rename_i hname
    simp [hname]

theorem slot_eq_ok_iff {name : String} {s : Slot} :
    slot declared context name = .ok s ↔ ¬Undeclared declared name ∧ s = slotNamed name := by
  rw [slot, slotNamed, Undeclared]
  split
  · rename_i hany
    simp [hany, eq_comm]
  · rename_i hname
    cases hgroup : Manifest.group declared context name with
    | ok group =>
      obtain ⟨hmem, rfl⟩ := group_eq_ok_iff.1 hgroup
      simp [Except.map, hmem, eq_comm]
    | error e =>
      have hmem : name ∉ declared := fun h => by
        rw [group_eq_ok_iff.2 ⟨h, rfl⟩] at hgroup
        cases hgroup
      simp [Except.map, hname, hmem]

/-- A list of checks each of which leaves no choice. -/
theorem mapM_eq_ok_map_iff {α β ε : Type} {f : α → Except ε β} {p : α → Prop} {g : α → β}
    (h : ∀ a b, f a = .ok b ↔ p a ∧ b = g a) {items : List α} {results : List β} :
    items.mapM f = .ok results ↔ (∀ a ∈ items, p a) ∧ results = items.map g := by
  simp only [Reading.mapM_eq_ok_iff, h, List.forall₂_and_left, eq_comm (b := g _),
    ← List.forall₂_map_left_iff, List.forall₂_eq_eq_eq, eq_comm (a := results)]

theorem slots_eq_ok_iff {names : List String} {slots : List Slot} :
    names.mapM (slot declared context) = .ok slots ↔
      (∀ name ∈ names, ¬Undeclared declared name) ∧ slots = names.map slotNamed :=
  mapM_eq_ok_map_iff fun _ _ => slot_eq_ok_iff

theorem KeywordEntry.not_unknown_iff {entry : KeywordEntry} :
    ¬entry.Unknown ↔ (ValueKind.ofName? entry.kind).isSome = true := by
  constructor
  · intro h
    obtain ⟨kind, hkind⟩ := not_forall_not.1 h
    rw [← hkind, ValueKind.ofName?_name]
    rfl
  · intro h hunknown
    obtain ⟨kind, hkind⟩ := Option.isSome_iff_exists.1 h
    exact hunknown kind (by simpa using List.find?_some hkind)

theorem keywords_eq_ok_iff {method : String} {entries : List KeywordEntry}
    {found : List Keyword} :
    keywords method entries = .ok found ↔
      (∀ keyword ∈ entries, ¬keyword.Unknown) ∧ found = entries.map (·.toKeyword) := by
  refine mapM_eq_ok_map_iff fun entry keyword => ?_
  rw [KeywordEntry.not_unknown_iff, KeywordEntry.toKeyword]
  cases ValueKind.ofName? entry.kind with
  | some kind => simp [eq_comm]
  | none => simp

theorem mem_map_slotNamed_iff {names : List String} :
    Slot.anyGroup ∈ names.map slotNamed ↔ anyGroup ∈ names := by
  simp [slotNamed]

theorem map_keyword_name (entries : List KeywordEntry) :
    (entries.map (·.toKeyword)).map (·.name) = entries.map (·.name) := by
  rw [List.map_map]
  rfl

end Checks

end Manifest

end ControlScript
