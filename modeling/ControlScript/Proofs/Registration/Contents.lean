import ControlScript.Proofs.Registration.Building
import ControlScript.Proofs.Registration.Views

/-!
# What a manifest builds

The workspace of a manifest without faults is the one that its lists say: the variables as they are
listed, and every method followed by its specializations, found by name and by group.
-/

namespace ControlScript

namespace Manifest

/-! ## 1. Where the methods stand -/

/-- How many methods are registered for the entries before a given one. -/
def offset : List MethodEntry → Nat → Nat
  | [], _ => 0
  | _ :: _, 0 => 0
  | entry :: entries, i + 1 => entry.specializations.length + 1 + offset entries i

theorem offset_zero (entries : List MethodEntry) : offset entries 0 = 0 := by
  cases entries with
  | nil => rfl
  | cons _ _ => rfl

theorem offset_succ (entry : MethodEntry) (entries : List MethodEntry) (i : Nat) :
    offset (entry :: entries) (i + 1) = entry.specializations.length + 1 + offset entries i := rfl

/-- What stands at a place: a listed method, or one of its specializations. -/
inductive Stands (start : Nat) (entries : List MethodEntry) (k : Nat) :
    RegisteredMethod → Prop
  | entry {i : Nat} {entry : MethodEntry} : entries[i]? = some entry → k = offset entries i →
      Stands start entries k ⟨entry.toMethod, none⟩
  | specialization {i j base : Nat} {entry : MethodEntry} {own : SpecializationEntry} :
      entries[i]? = some entry → entry.specializations[j]? = some own →
      base = start + offset entries i → k = offset entries i + 1 + j →
      Stands start entries k ⟨own.toMethod entry, some ⟨⟨base⟩, ⟨own.group⟩⟩⟩

theorem block_getElem?_iff {entry : MethodEntry} {base : MethodId} {k : Nat}
    {e : RegisteredMethod} :
    (entry.block base)[k]? = some e ↔
      (k = 0 ∧ e = ⟨entry.toMethod, none⟩) ∨
        ∃ j own, entry.specializations[j]? = some own ∧ k = j + 1 ∧
          e = ⟨own.toMethod entry, some ⟨base, ⟨own.group⟩⟩⟩ := by
  cases k with
  | zero => simp [MethodEntry.block, eq_comm]
  | succ k =>
    rw [MethodEntry.block, List.getElem?_cons_succ, List.getElem?_map, Option.map_eq_some_iff]
    simp [eq_comm]

theorem stands_cons_iff {start : Nat} {entry : MethodEntry} {entries : List MethodEntry} {k : Nat}
    {e : RegisteredMethod} :
    Stands start (entry :: entries) k e ↔
      (entry.block ⟨start⟩)[k]? = some e ∨
        ∃ k', k = entry.specializations.length + 1 + k' ∧
          Stands (start + entry.specializations.length + 1) entries k' e := by
  have hzero := offset_zero (entry :: entries)
  have hsucc := offset_succ entry entries
  rw [block_getElem?_iff]
  constructor
  · rintro (@⟨i, _, h, hk⟩ | @⟨i, j, base, _, own, h, hown, hbase, hk⟩)
    · cases i with
      | zero =>
        obtain rfl := Option.some.inj h
        exact .inl (.inl ⟨hk.trans hzero, rfl⟩)
      | succ i => exact .inr ⟨_, hk.trans (hsucc i), .entry h rfl⟩
    · cases i with
      | zero =>
        obtain rfl := Option.some.inj h
        obtain rfl : base = start := by omega
        exact .inl (.inr ⟨j, own, hown, by omega, rfl⟩)
      | succ i =>
        rw [hsucc] at hbase hk
        exact .inr ⟨offset entries i + 1 + j, by omega, .specialization h hown (by omega) rfl⟩
  · rintro ((⟨rfl, rfl⟩ | ⟨j, own, hown, rfl, rfl⟩) | ⟨k', rfl, h⟩)
    · exact .entry (i := 0) rfl hzero.symm
    · exact .specialization (i := 0) rfl hown (by omega) (by omega)
    · obtain @⟨i, _, h, hk⟩ | @⟨i, j, base, _, own, h, hown, hbase, hk⟩ := h
      · exact .entry (i := i + 1) h (by rw [hsucc, hk])
      · have hnext := hsucc i
        exact .specialization (i := i + 1) h hown (by omega) (by omega)

theorem blocks_getElem?_iff {start : Nat} {entries : List MethodEntry} {k : Nat}
    {e : RegisteredMethod} :
    (blocks start entries)[k]? = some e ↔ Stands start entries k e := by
  induction entries generalizing start k with
  | nil =>
    simp only [blocks, List.getElem?_nil, reduceCtorEq, false_iff]
    rintro (⟨h, -⟩ | ⟨h, -⟩) <;> cases h
  | cons entry entries ih =>
    rw [blocks, stands_cons_iff, List.getElem?_append]
    have hlength := length_block entry ⟨start⟩
    split
    · rename_i hlt
      refine ⟨.inl, ?_⟩
      rintro (h | ⟨_, hk, _⟩)
      · exact h
      · omega
    · rename_i hle
      rw [ih, List.getElem?_eq_none (Nat.le_of_not_lt hle), hlength]
      constructor
      · exact fun h => .inr ⟨_, by omega, h⟩
      · rintro (h | ⟨k', rfl, h⟩)
        · cases h
        · rwa [Nat.add_sub_cancel_left]

/-! ## 2. What a workspace answers -/

/-- The place of a listed method among all methods. -/
def place (m : Manifest) (i : Nat) : Nat := offset m.methods i

/-- A workspace has what the lists of a manifest say, and nothing else. -/
structure Describes (m : Manifest) (w : Workspace) : Prop where
  /-- The variables have the ids of their places. -/
  varCount : w.vars.size = m.vars.length
  vars : ∀ (i : Nat) (entry : VariableEntry), m.vars[i]? = some entry →
    w.vars.get? ⟨i⟩ = some ⟨entry.name, ⟨entry.group⟩⟩
  /-- Each method stands before its specializations. -/
  methods : w.methods.ids.map w.methods.get =
    m.methods.flatMap fun entry => entry.toMethod :: entry.specializations.map (·.toMethod entry)
  kinds : ∀ entry ∈ m.methods,
    ∀ keyword ∈ entry.keywords ++ entry.specializations.flatMap (·.keywords.getD []),
      keyword.toKeyword.kind.name = keyword.kind
  method : ∀ (i : Nat) (entry : MethodEntry), m.methods[i]? = some entry →
    w.methods.get? ⟨m.place i⟩ = some entry.toMethod
  specialization : ∀ (i j : Nat) (entry : MethodEntry) (own : SpecializationEntry),
    m.methods[i]? = some entry → entry.specializations[j]? = some own →
      w.methods.get? ⟨m.place i + 1 + j⟩ = some (own.toMethod entry)
  /-- By name, exactly the listed methods are found. -/
  find : ∀ (name : String) (id : MethodId), w.methods.find? name = some id ↔
    ∃ i entry, m.methods[i]? = some entry ∧ entry.name = name ∧ id = ⟨m.place i⟩
  /-- By method and group, exactly the specialization that is listed for the group is found. -/
  resolve : ∀ (base : MethodId) (group : Group) (id : MethodId),
    w.methods.resolve? base group = some id ↔
      ∃ i j entry own, m.methods[i]? = some entry ∧ entry.specializations[j]? = some own ∧
        base = ⟨m.place i⟩ ∧ group = ⟨own.group⟩ ∧ id = ⟨m.place i + 1 + j⟩
  /-- The specializations, and no other methods, have the method that they are listed under. -/
  base : ∀ id base : MethodId, w.methods.baseOf? id = some base ↔
    ∃ i j entry own, m.methods[i]? = some entry ∧ entry.specializations[j]? = some own ∧
      base = ⟨m.place i⟩ ∧ id = ⟨m.place i + 1 + j⟩

theorem map_get_ids (r : MethodRegistry) : r.ids.map r.get = r.entries.map (·.method) := by
  refine List.ext_getElem? fun i => ?_
  rw [MethodRegistry.ids, List.map_map, List.getElem?_map, List.getElem?_map]
  rcases Nat.lt_or_ge i r.size with hlt | hge
  · have he : r.entries[(MethodId.mk i).index]? = some r.entries[i] := List.getElem?_eq_getElem hlt
    rw [List.getElem?_range hlt, Option.map_some, Function.comp_apply,
      MethodRegistry.get_of_entry he, List.getElem?_eq_getElem hlt, Option.map_some]
  · rw [List.getElem?_eq_none (by simpa using hge), List.getElem?_eq_none hge]
    rfl

theorem map_method_blocks (start : Nat) (entries : List MethodEntry) :
    (blocks start entries).map (·.method) =
      entries.flatMap fun entry =>
        entry.toMethod :: entry.specializations.map (·.toMethod entry) := by
  induction entries generalizing start with
  | nil => rfl
  | cons entry entries ih => simp [blocks, MethodEntry.block, ih]

theorem KeywordEntry.kind_name {entry : KeywordEntry} (h : ¬entry.Unknown) :
    entry.toKeyword.kind.name = entry.kind := by
  obtain ⟨kind, hkind⟩ := Option.isSome_iff_exists.1 (KeywordEntry.not_unknown_iff.1 h)
  rw [toKeyword, hkind, Option.getD_some]
  simpa using List.find?_some hkind

/-- The kinds of all keywords of a method are known, those of its specializations included. -/
theorem MethodEntry.known_of_not_faulty {declared : List String} {entry : MethodEntry}
    (h : ¬entry.Faulty declared) {keyword : KeywordEntry}
    (hmem : keyword ∈ entry.keywords ++ entry.specializations.flatMap (·.keywords.getD [])) :
    ¬keyword.Unknown := by
  intro hunknown
  rcases List.mem_append.1 hmem with hmem | hmem
  · exact h (.kind hmem hunknown)
  · obtain ⟨own, hown, hmem⟩ := List.mem_flatMap.1 hmem
    cases hlist : own.keywords with
    | none =>
      rw [hlist] at hmem
      cases hmem
    | some entries =>
      rw [hlist] at hmem
      exact h (.specialization hown (.kind hlist hmem hunknown))

theorem describes_workspace {m : Manifest} (h : ¬m.Faulty) : m.Describes m.workspace := by
  have hdistinct := (listed_of_build (build_eq_ok_iff.2 ⟨h, rfl⟩)).built.distinct
  have hstands {k : Nat} {e : RegisteredMethod} :
      m.workspace.methods.entries[k]? = some e ↔ Stands 0 m.methods k e := blocks_getElem?_iff
  obtain ⟨-, hentries, -⟩ := not_faulty_iff.1 h
  constructor
  case varCount => exact List.length_map _
  case vars =>
    intro i entry hentry
    show (m.vars.map (·.toVariable))[i]? = _
    rw [List.getElem?_map, hentry]
    rfl
  case methods => rw [map_get_ids, ← map_method_blocks 0 m.methods, workspace]
  case kinds =>
    intro entry hentry keyword hkeyword
    exact KeywordEntry.kind_name (MethodEntry.known_of_not_faulty (hentries entry hentry) hkeyword)
  case method =>
    intro i entry hentry
    exact MethodRegistry.get?_of_entry (hstands.2 (.entry hentry rfl))
  case specialization =>
    intro i j entry own hentry hown
    exact MethodRegistry.get?_of_entry (hstands.2 (.specialization hentry hown rfl rfl))
  case find =>
    intro name id
    simp only [hdistinct.find?_eq_some_iff, hstands]
    constructor
    · rintro ⟨_, ⟨hentry, hid⟩, hname⟩
      exact ⟨_, _, hentry, hname, congrArg MethodId.mk hid⟩
    · rintro ⟨i, entry, hentry, hname, rfl⟩
      exact ⟨_, .entry hentry rfl, hname⟩
  case resolve =>
    intro base group id
    simp only [hdistinct.resolve?_eq_some_iff, hstands]
    constructor
    · rintro ⟨_, ⟨⟩ | ⟨hentry, hown, hbase, hid⟩⟩
      rw [Nat.zero_add] at hbase
      exact ⟨_, _, _, _, hentry, hown, congrArg MethodId.mk hbase, rfl, congrArg MethodId.mk hid⟩
    · rintro ⟨i, j, entry, own, hentry, hown, rfl, rfl, rfl⟩
      exact ⟨_, .specialization hentry hown (Nat.zero_add _).symm rfl⟩
  case base =>
    intro id base
    simp only [MethodRegistry.baseOf?_eq_some_iff, hstands]
    constructor
    · rintro ⟨_, _, ⟨⟩ | ⟨hentry, hown, hbase, hid⟩⟩
      rw [Nat.zero_add] at hbase
      exact ⟨_, _, _, _, hentry, hown, congrArg MethodId.mk hbase, congrArg MethodId.mk hid⟩
    · rintro ⟨i, j, entry, own, hentry, hown, rfl, rfl⟩
      exact ⟨_, _, .specialization hentry hown (Nat.zero_add _).symm rfl⟩

/-- A manifest builds no workspace exactly when one of its lists has a fault, and the workspace of
    a manifest without faults is the one that it describes. -/
theorem build_exact (m : Manifest) :
    ((∃ e, m.build = .error e) ↔ m.Faulty) ∧
      (¬m.Faulty → ∃ w, m.build = .ok w ∧ m.Describes w) := by
  have hok := @build_eq_ok_iff m
  constructor
  · cases hbuild : m.build with
    | error e =>
      have hnot : ∀ w, ¬(¬m.Faulty ∧ w = m.workspace) := fun w hw => by
        rw [hok.2 hw] at hbuild
        cases hbuild
      exact ⟨fun _ => not_not.1 fun h => hnot _ ⟨h, rfl⟩, fun _ => ⟨e, rfl⟩⟩
    | ok w =>
      exact ⟨fun ⟨_, he⟩ => (nomatch he), fun h => absurd h (hok.1 hbuild).1⟩
  · intro h
    exact ⟨m.workspace, hok.2 ⟨h, rfl⟩, describes_workspace h⟩

/-- A manifest with a generic method, one specialization of it, and an inherited keyword. -/
def copying : Manifest where
  groups := ["real"]
  vars := [⟨"x", "real"⟩]
  methods := [⟨"Arts", [], [], [], true, []⟩,
    ⟨"Copy", ["*"], ["*"], [⟨"deep", "Integer", some "0"⟩], false,
      [⟨"real", ["real"], ["real"], none⟩]⟩]

theorem build_exact_copying :
    (¬copying.Faulty ∧ ∃ w, copying.build = .ok w ∧ copying.Describes w) ∧
      copying.workspace.methods.resolve? ⟨1⟩ ⟨"real"⟩ = some ⟨2⟩ := by
  have hbuild : copying.build = .ok copying.workspace := by decide +kernel
  have hfine : ¬copying.Faulty := (build_eq_ok_iff.1 hbuild).1
  exact ⟨⟨hfine, (build_exact copying).2 hfine⟩, by decide +kernel⟩

end Manifest

end ControlScript
