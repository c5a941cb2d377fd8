import ControlScript.Json
import Mathlib.Data.List.Forall2

/-!
# JSON values that are equal

Two JSON values are equal when they are of one kind and hold the same: doubles are compared as
numbers, arrays item by item, and objects name by name, in whatever order their fields are.  An
object that is built for output holds the fields that were put into it, so equal objects have equal
fields.
-/

namespace ControlScript.Json

/-! ## 1. Equality -/

mutual

/-- Two JSON values agree: they are of one kind and hold the same. -/
def agrees : Json → Json → Bool
  | null, null => true
  | bool b, bool c => b = c
  | integer m, integer n => m = n
  | float x, float y => x.numericallyEqual y
  | string s, string t => s = t
  | array items, array others => itemsAgree items others
  | object fields, object others => fields.length = others.length && fieldsAgree fields others
  | _, _ => false

/-- Two lists of JSON values agree item by item. -/
def itemsAgree : List Json → List Json → Bool
  | [], [] => true
  | x :: rest, y :: others => x.agrees y && itemsAgree rest others
  | _, _ => false

/-- Every field has a field of its name, with a value that agrees, among the others. -/
def fieldsAgree : List (String × Json) → List (String × Json) → Bool
  | [], _ => true
  | (name, x) :: rest, others =>
      (match others.lookup name with
        | some y => x.agrees y
        | none => false) && fieldsAgree rest others

end

@[simp] theorem agrees_string {s t : String} : (string s).agrees (string t) = true ↔ s = t := by
  rw [agrees, decide_eq_true_eq]

@[simp] theorem agrees_integer {m n : Int} : (integer m).agrees (integer n) = true ↔ m = n := by
  rw [agrees, decide_eq_true_eq]

theorem agrees_array {xs ys : List Json} :
    (array xs).agrees (array ys) = true ↔ List.Forall₂ (fun x y => x.agrees y = true) xs ys := by
  rw [agrees]
  induction xs generalizing ys with
  | nil => cases ys <;> simp [itemsAgree]
  | cons x xs ih =>
    cases ys with
    | nil => simp [itemsAgree]
    | cons y ys => rw [itemsAgree, Bool.and_eq_true, List.forall₂_cons, ih]

theorem agrees_array_map {α : Type} {f : α → Json} {as bs : List α} :
    (array (as.map f)).agrees (array (bs.map f)) = true ↔
      List.Forall₂ (fun a b => (f a).agrees (f b) = true) as bs := by
  rw [agrees_array, List.forall₂_map_left_iff, List.forall₂_map_right_iff]

/-- Arrays of strings agree when they hold the same texts. -/
theorem agrees_strings {s t : List String} :
    (array (s.map string)).agrees (array (t.map string)) = true ↔ s = t := by
  rw [agrees_array_map]
  simp only [agrees_string, List.forall₂_eq_eq_eq]

/-- Texts and their absence are told apart. -/
theorem agrees_ofString? {s t : Option String} :
    (ofString? s).agrees (ofString? t) = true ↔ s = t := by
  cases s <;> cases t <;> simp [ofString?, agrees]

/-- Finite doubles agree as JSON when they are equal as numbers. -/
theorem agrees_ofBinary64 {x y : Binary64} (hx : x.isFinite = true) (hy : y.isFinite = true) :
    (ofBinary64 x).agrees (ofBinary64 y) = true ↔ x.numericallyEqual y = true := by
  rw [ofBinary64, if_pos hx, ofBinary64, if_pos hy, agrees]

/-! ## 2. Fields -/

/-- The value of the field of a given name. -/
def field? (name : String) : Json → Option Json
  | object fields => fields.lookup name
  | _ => none

/-- The fields of one list agree with those of another one when every one of them is there. -/
theorem fieldsAgree_iff {fields others : List (String × Json)} :
    fieldsAgree fields others = true ↔
      ∀ field ∈ fields, ∃ y, others.lookup field.1 = some y ∧ field.2.agrees y = true := by
  induction fields with
  | nil => simp [fieldsAgree]
  | cons first rest ih =>
    obtain ⟨name, x⟩ := first
    rw [fieldsAgree, Bool.and_eq_true, List.forall_mem_cons, ih]
    refine and_congr_left fun _ => ?_
    cases others.lookup name <;> simp

theorem mem_of_lookup {name : String} {x : Json} {fields : List (String × Json)}
    (h : fields.lookup name = some x) : (name, x) ∈ fields := by
  obtain ⟨before, behind, rfl, -⟩ := List.lookup_eq_some_iff.1 h
  exact List.mem_append_right _ List.mem_cons_self

/-- What agrees has fields that agree. -/
theorem agrees_field? {name : String} {j k x : Json} (h : j.agrees k = true)
    (hx : j.field? name = some x) : ∃ y, k.field? name = some y ∧ x.agrees y = true := by
  cases j with
  | object fields =>
    cases k with
    | object others =>
      rw [agrees, Bool.and_eq_true] at h
      exact fieldsAgree_iff.1 h.2 _ (mem_of_lookup hx)
    | _ => simp [agrees] at h
  | _ => cases hx

/-! ## 3. Objects for output -/

theorem lookup_field (name key : String) (x : Json) (fields : List (String × Json)) :
    ((name, x) :: fields).lookup key = if key = name then some x else fields.lookup key := by
  rw [List.lookup_cons]
  split
  · rename_i heq
    rw [if_pos (eq_of_beq heq)]
  · rename_i hne
    rw [if_neg (ne_of_beq_false hne)]

/-- Putting a field in its place changes what is found under its name, and nothing else. -/
theorem lookup_insertField (name key : String) (x : Json) (fields : List (String × Json)) :
    (insertField name x fields).lookup key = if key = name then some x else fields.lookup key := by
  induction fields with
  | nil => rw [insertField, lookup_field]
  | cons first rest ih =>
    obtain ⟨other, old⟩ := first
    rw [insertField]
    split
    · rw [lookup_field]
    split
    · rename_i heq
      rw [lookup_field, lookup_field, ← heq]
      split <;> rfl
    · rename_i hne
      rw [lookup_field, lookup_field, ih]
      split
      · rename_i heq
        rw [if_neg (heq ▸ Ne.symm hne)]
      · rfl

theorem mem_of_mem_insertField {name : String} {x : Json} {field : String × Json}
    {fields : List (String × Json)} (h : field ∈ insertField name x fields) :
    field = (name, x) ∨ field ∈ fields := by
  induction fields with
  | nil => exact .inl (List.mem_singleton.1 h)
  | cons first rest ih =>
    obtain ⟨other, old⟩ := first
    rw [insertField] at h
    split at h
    · exact List.mem_cons.1 h
    split at h
    · exact (List.mem_cons.1 h).imp_right (List.mem_cons_of_mem _)
    · rcases List.mem_cons.1 h with rfl | h
      · exact .inr List.mem_cons_self
      · exact (ih h).imp_right (List.mem_cons_of_mem _)

/-- The order of the names does not depend on the values. -/
theorem names_insertField {name : String} {x y : Json} {fields others : List (String × Json)}
    (h : fields.map (·.1) = others.map (·.1)) :
    (insertField name x fields).map (·.1) = (insertField name y others).map (·.1) := by
  induction fields generalizing others with
  | nil =>
    obtain rfl := List.map_eq_nil_iff.1 h.symm
    rfl
  | cons first rest ih =>
    obtain ⟨_ | ⟨other, behind⟩⟩ := others
    · cases h
    rw [List.map_cons, List.map_cons, List.cons.injEq] at h
    rw [insertField, insertField, h.1]
    split
    · simp only [List.map_cons, h.2]
    split
    · simp only [List.map_cons, h.2]
    · simp only [List.map_cons, ih h.2]

/-- The fields of one list are put in their places among those of another one. -/
def insertFields (fields sorted : List (String × Json)) : List (String × Json) :=
  fields.foldl (fun sorted (name, value) => insertField name value sorted) sorted

theorem insertFields_cons (name : String) (x : Json) (fields sorted : List (String × Json)) :
    insertFields ((name, x) :: fields) sorted = insertFields fields (insertField name x sorted) :=
  rfl

theorem mem_of_mem_insertFields {field : String × Json} {fields sorted : List (String × Json)}
    (h : field ∈ insertFields fields sorted) : field ∈ fields ∨ field ∈ sorted := by
  induction fields generalizing sorted with
  | nil => exact .inr h
  | cons first rest ih =>
    rcases ih h with h | h
    · exact .inl (List.mem_cons_of_mem _ h)
    · exact (mem_of_mem_insertField h).imp_left fun heq => List.mem_cons.2 (.inl heq)

theorem names_insertFields {fields others sorted sorted' : List (String × Json)}
    (h : fields.map (·.1) = others.map (·.1)) (hsorted : sorted.map (·.1) = sorted'.map (·.1)) :
    (insertFields fields sorted).map (·.1) = (insertFields others sorted').map (·.1) := by
  induction fields generalizing others sorted sorted' with
  | nil =>
    obtain rfl := List.map_eq_nil_iff.1 h.symm
    exact hsorted
  | cons first rest ih =>
    cases others with
    | nil => cases h
    | cons other behind =>
      obtain ⟨name, x⟩ := first
      obtain ⟨name', y⟩ := other
      rw [List.map_cons, List.map_cons, List.cons.injEq] at h
      obtain rfl : name = name' := h.1
      rw [insertFields_cons, insertFields_cons]
      exact ih h.2 (names_insertField hsorted)

/-- Fields of other names change nothing about what is found under a name. -/
theorem lookup_insertFields {key : String} {fields sorted : List (String × Json)}
    (h : key ∉ fields.map (·.1)) :
    (insertFields fields sorted).lookup key = sorted.lookup key := by
  induction fields generalizing sorted with
  | nil => rfl
  | cons first rest ih =>
    rw [List.map_cons, List.mem_cons, not_or] at h
    rw [insertFields_cons, ih h.2, lookup_insertField, if_neg h.1]

/-- An object holds the fields that were put into it. -/
theorem field?_ofFields {name : String} {x : Json} {fields : List (String × Json)}
    (hnames : (fields.map (·.1)).Nodup) (hmem : (name, x) ∈ fields) :
    (ofFields fields).field? name = some x := by
  show (insertFields fields []).lookup name = some x
  obtain ⟨before, behind, rfl⟩ := List.append_of_mem hmem
  have hbehind : name ∉ behind.map (·.1) := by
    rw [List.map_append, List.map_cons] at hnames
    exact (List.nodup_cons.1 (List.nodup_append.1 hnames).2.1).1
  rw [insertFields, List.foldl_append, ← insertFields, insertFields_cons,
    lookup_insertFields hbehind, lookup_insertField, if_pos rfl]

theorem field?_ofFields_of_not_mem {name : String} {fields : List (String × Json)}
    (h : name ∉ fields.map (·.1)) : (ofFields fields).field? name = none :=
  lookup_insertFields h

/-- Objects that agree have fields of the same names. -/
theorem names_of_agrees {fields others : List (String × Json)}
    (h : (ofFields fields).agrees (ofFields others) = true) (hnames : (fields.map (·.1)).Nodup) :
    ∀ name ∈ fields.map (·.1), name ∈ others.map (·.1) := by
  intro name hname
  obtain ⟨⟨_, x⟩, hmem, rfl⟩ := List.mem_map.1 hname
  obtain ⟨y, hy, -⟩ := agrees_field? h (field?_ofFields hnames hmem)
  by_contra hother
  rw [field?_ofFields_of_not_mem hother] at hy
  cases hy

/-- Objects of the same names agree when their fields do. -/
theorem agrees_ofFields_iff {fields others : List (String × Json)}
    (hsame : fields.map (·.1) = others.map (·.1)) (hnames : (fields.map (·.1)).Nodup) :
    (ofFields fields).agrees (ofFields others) = true ↔
      List.Forall₂ (fun field other => field.2.agrees other.2 = true) fields others := by
  have hlength : fields.length = others.length := by
    rw [← List.length_map (·.1), hsame, List.length_map]
  -- fields in the same place have one name
  have hpair : ∀ {field other}, (field, other) ∈ fields.zip others →
      field ∈ fields ∧ (field.1, other.2) ∈ others := by
    intro field other hmem
    obtain ⟨i, hi⟩ := List.mem_iff_getElem?.1 hmem
    obtain ⟨hfield, hother⟩ := List.getElem?_zip_eq_some.1 hi
    have hname := congrArg (·[i]?) hsame
    simp only [List.getElem?_map, hfield, hother, Option.map_some, Option.some.injEq] at hname
    rw [hname]
    exact ⟨List.mem_of_getElem? hfield, List.mem_of_getElem? hother⟩
  constructor
  · intro h
    refine List.forall₂_iff_zip.2 ⟨hlength, fun {field other} hmem => ?_⟩
    obtain ⟨hfield, hother⟩ := hpair hmem
    obtain ⟨z, hz, hagrees⟩ := agrees_field? h (field?_ofFields hnames hfield)
    rw [field?_ofFields (hsame ▸ hnames) hother, Option.some.injEq] at hz
    rwa [hz]
  · intro h
    have hplaces : (insertFields fields []).length = (insertFields others []).length := by
      rw [← List.length_map (·.1), names_insertFields hsame rfl, List.length_map]
    show (object (insertFields fields [])).agrees (object (insertFields others [])) = true
    rw [agrees, Bool.and_eq_true, decide_eq_true_eq, fieldsAgree_iff]
    refine ⟨hplaces, fun field hmem => ?_⟩
    have hfield : field ∈ fields := (mem_of_mem_insertFields hmem).resolve_right List.not_mem_nil
    obtain ⟨i, hi⟩ := List.mem_iff_getElem?.1 hfield
    have hlt : i < others.length := hlength ▸ (List.getElem?_eq_some_iff.1 hi).1
    have hzip : (field, others[i]) ∈ fields.zip others :=
      List.mem_of_getElem? (List.getElem?_zip_eq_some.2 ⟨hi, List.getElem?_eq_getElem hlt⟩)
    exact ⟨_, field?_ofFields (hsame ▸ hnames) (hpair hzip).2, List.forall₂_zip h hzip⟩

end ControlScript.Json
