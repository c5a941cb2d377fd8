import ControlScript.Proofs.Grammar.Script
import ControlScript.Proofs.Literal
import ControlScript.Proofs.Registration

/-!
# Binding variables as the grammar says

The variables of a call are read exactly as the grammar describes them.  The loop over the slots
follows the slots of the called method, and checks the slots of the method that is meant; in a
registry that is built by registration both are equally many.
-/

namespace ControlScript

open Grammar

namespace Reading

variable {w : Workspace} {base : MethodId} {c c' : Cursor}

/-! ## 1. Names of variables -/

theorem variableText_solid {vars : VariableRegistry} : Phrase.Solid (VariableText vars) := by
  rintro text rest id ⟨name, h, -⟩
  exact nameText_solid h

theorem variableText_proper {vars : VariableRegistry} : Phrase.Proper (VariableText vars) := by
  rintro text rest id ⟨name, h, -⟩
  exact nameText_proper h

theorem registeredVariable_eq_ok_iff {vars : VariableRegistry} {id : VariableId} :
    registeredVariable vars c = .ok id c' ↔
      ∃ name, Scan.requiredName .variableName c = .ok name c' ∧ vars.find? name = some id := by
  simp only [registeredVariable, bind_eq_ok_iff, Scan.position_eq_ok_iff, and_assoc,
    exists_and_left, exists_eq_left]
  constructor
  · rintro ⟨name, u, hread, h⟩
    cases hfind : vars.find? name with
    | none => simp [hfind] at h
    | some found =>
      rw [hfind, pure_eq_ok_iff] at h
      exact ⟨name, h.2 ▸ hread, h.1 ▸ hfind⟩
  · rintro ⟨name, hread, hfind⟩
    exact ⟨name, c', hread, by rw [hfind, pure_eq_ok_iff]; exact ⟨rfl, rfl⟩⟩

theorem registeredVariable_reads (vars : VariableRegistry) :
    Scan.Reads (registeredVariable vars) (VariableText vars) :=
  (Scan.requiredName_reads .variableName).convert registeredVariable_eq_ok_iff Iff.rfl

/-! ## 2. Slots -/

/-- The variable fits the slot. -/
def Fits (w : Workspace) (slot : Slot) (id : VariableId) : Prop :=
  slot = .only (w.vars.get id).group

/-- The variable has the group of the slot at `index`, if that slot has a group. -/
def Accepts (m : Method) (index : Nat) (var : Variable) : Prop :=
  ∀ group, m.slots[index]? = some (.only group) → group = var.group

theorem checkSlot_eq_ok_iff {m : Method} {index : Nat} {var : Variable} {here : Position}
    {u : Unit} : checkSlot m index var here c = .ok u c' ↔ Accepts m index var ∧ c' = c := by
  unfold checkSlot Accepts
  cases m.slots[index]? with
  | none => simp
  | some slot =>
    cases slot with
    | anyGroup => simp
    | only group =>
      by_cases hgroup : group = var.group
      · simp [hgroup]
      · simp [hgroup]

theorem specialize_eq_ok_iff {methods : MethodRegistry} {group : Group} {here : Position}
    {m : MethodId} : specialize methods base group here c = .ok m c' ↔
      methods.resolve? base group = some m ∧ c' = c := by
  rw [specialize]
  cases methods.resolve? base group with
  | none => simp
  | some found => simp [eq_comm]

/-- In a method that is not generic every slot has a group. -/
theorem accepts_iff_fits {m : Method} (h : m.isGeneric = false) {index : Nat} {slot : Slot}
    (hslot : m.slots[index]? = some slot) {id : VariableId} :
    Accepts m index (w.vars.get id) ↔ Fits w slot id := by
  cases slot with
  | anyGroup =>
    rw [Method.isGeneric, List.contains_iff_mem.2 (List.mem_of_getElem? hslot)] at h
    exact absurd h (by decide)
  | only group =>
    rw [Accepts, hslot, Fits]
    simp

/-- What is read in front of the variable of a slot: a comma, unless the slot is the first one. -/
def separator (index : Nat) : Scan Unit := do
  if index > 0 then
    Scan.expect ','
    Scan.skipBlanks

/-- The method that is meant once a variable of the group is bound: the one that is known, or else
    the specialization for the group. -/
def meant (methods : MethodRegistry) (base : MethodId) (group : Group) (here : Position) :
    Option MethodId → Scan MethodId
  | some method => pure method
  | none => specialize methods base group here

theorem separator_eq_ok_iff {index : Nat} {u : Unit} : separator index c = .ok u c' ↔
    (0 < index → c.rest.head? = some ',') ∧
      c' = if 0 < index then c.advance.pastBlanks else c := by
  by_cases hindex : 0 < index
  · simp [separator, hindex, bind_eq_ok_iff, Scan.expect_eq_ok_iff, Scan.skipBlanks_eq_ok_iff,
      and_assoc]
  · simp [separator, hindex, pure_eq_ok_iff]

theorem meant_eq_ok_iff {methods : MethodRegistry} {group : Group} {here : Position}
    {known : Option MethodId} {m : MethodId} : meant methods base group here known c = .ok m c' ↔
      (known = some m ∨ known = none ∧ methods.resolve? base group = some m) ∧ c' = c := by
  cases known with
  | some method => simp [meant, pure_eq_ok_iff, eq_comm]
  | none => simp [meant, specialize_eq_ok_iff]

theorem bindSlots_cons (index : Nat) (slot : Slot) (slots : List Slot) (known : Option MethodId) :
    bindSlots w base index (slot :: slots) known = (do
      separator index
      let here ← Scan.position
      let id ← registeredVariable w.vars
      let method ← meant w.methods base (w.vars.get id).group here known
      checkSlot (w.methods.get method) index (w.vars.get id) here
      Scan.skipBlanks
      let (method, ids) ← bindSlots w base (index + 1) slots (some method)
      return (method, id :: ids)) := by
  rw [bindSlots, separator]
  by_cases hindex : index > 0
  · cases known with
    | some method => simp only [hindex, if_true, bind_assoc, meant, pure_bind]
    | none => simp only [hindex, if_true, bind_assoc, meant]
  · cases known with
    | some method => simp only [hindex, if_false, meant, pure_bind]
    | none => simp only [hindex, if_false, meant, pure_bind]

/-- One slot: a comma, unless it is the first one, and a variable that the slot accepts. -/
theorem bindSlots_cons_iff {index : Nat} {slot : Slot} {slots : List Slot}
    {known : Option MethodId} {method : MethodId} {ids : List VariableId} :
    bindSlots w base index (slot :: slots) known c = .ok (method, ids) c' ↔
      (0 < index → c.rest.head? = some ',') ∧ ∃ id u m others,
        registeredVariable w.vars (if 0 < index then c.advance.pastBlanks else c) = .ok id u ∧
        (known = some m ∨ known = none ∧
          w.methods.resolve? base (w.vars.get id).group = some m) ∧
        Accepts (w.methods.get m) index (w.vars.get id) ∧
        bindSlots w base (index + 1) slots (some m) u.pastBlanks = .ok (method, others) c' ∧
        ids = id :: others := by
  simp only [bindSlots_cons, bind_eq_ok_iff, separator_eq_ok_iff, Scan.position_eq_ok_iff,
    meant_eq_ok_iff, checkSlot_eq_ok_iff, Scan.skipBlanks_eq_ok_iff, pure_eq_ok_iff,
    Prod.mk.injEq, and_assoc, exists_and_left, exists_eq_left, exists_const]
  constructor
  · rintro ⟨hcomma, id, u, hread, m, hknown, haccepts, _, _, hothers, rfl, rfl, rfl⟩
    exact ⟨hcomma, id, u, hread, m, hknown, haccepts, _, hothers, rfl⟩
  · rintro ⟨hcomma, id, u, hread, m, hknown, haccepts, _, hothers, rfl⟩
    exact ⟨hcomma, id, u, hread, m, hknown, haccepts, _, _, hothers, rfl, rfl, rfl⟩

/-- The slots from `index` on begin with the slot at `index`. -/
theorem slots_drop {m : Method} {index count : Nat} (h : index + (count + 1) = m.slotCount) :
    ∃ slot, m.slots[index]? = some slot ∧ m.slots.drop index = slot :: m.slots.drop (index + 1) := by
  have hlt : index < m.slots.length := by
    rw [← Method.slotCount, ← h]
    omega
  exact ⟨_, List.getElem?_eq_getElem hlt, List.drop_eq_getElem_cons hlt⟩

/-- Behind the first variable, the loop reads a variable for every other slot, and each fits. -/
theorem bindSlots_sound {m : MethodId} (hconcrete : (w.methods.get m).isGeneric = false)
    {index : Nat} {slots : List Slot} {method : MethodId} {ids : List VariableId} {rest : List Char}
    (hindex : 0 < index) (hcount : index + slots.length = (w.methods.get m).slotCount)
    (h : bindSlots w base index slots (some m) c = .ok (method, ids) c')
    (hclose : c'.rest = ')' :: rest) :
    method = m ∧ ItemsText ')' (VariableText w.vars) c.rest rest ids ∧
      List.Forall₂ (Fits w) ((w.methods.get m).slots.drop index) ids := by
  -- the slots to come are those of the method behind `index`, and so are the variables
  induction slots generalizing index c ids with
  | nil =>
    rw [bindSlots, pure_eq_ok_iff, Prod.mk.injEq] at h
    obtain ⟨⟨rfl, rfl⟩, rfl⟩ := h
    refine ⟨rfl, hclose ▸ .last .none, ?_⟩
    rw [List.drop_of_length_le (by rw [← Method.slotCount, ← hcount]; exact Nat.le_refl _)]
    exact .nil
  | cons slot slots ih =>
    obtain ⟨hcomma, id, u, m', others, hread, hknown, haccepts, hothers, rfl⟩ :=
      bindSlots_cons_iff.1 h
    obtain rfl : m = m' := by simpa using hknown
    rw [if_pos hindex] at hread
    obtain ⟨t, ht⟩ := List.head?_eq_some_iff.1 (hcomma hindex)
    obtain ⟨t', htext, hu⟩ := (registeredVariable_reads w.vars).sound hread
    obtain ⟨rfl, hitems, hfits⟩ := ih (by omega) (by rw [List.length_cons] at hcount; omega) hothers
    rw [Cursor.rest_advance_pastBlanks ht] at htext
    rw [Cursor.rest_pastBlanks_of hu] at hitems
    obtain ⟨first, hfirst, hdrop⟩ := slots_drop hcount
    rw [ht, hdrop]
    exact ⟨rfl, .more .none (blanks_trim t) htext (hitems.blanks (blanks_trim t')),
      .cons ((accepts_iff_fits hconcrete hfirst).1 haccepts) hfits⟩

theorem bindSlots_complete {m : MethodId} (hconcrete : (w.methods.get m).isGeneric = false)
    {index : Nat} {slots : List Slot} {ids : List VariableId} {text rest : List Char}
    (hindex : 0 < index) (hcount : index + slots.length = (w.methods.get m).slotCount)
    (htext : ItemsText ')' (VariableText w.vars) text rest ids)
    (hfits : List.Forall₂ (Fits w) ((w.methods.get m).slots.drop index) ids)
    (hc : c.rest = trim text) :
    ∃ c', bindSlots w base index slots (some m) c = .ok (m, ids) c' ∧ c'.rest = ')' :: rest := by
  induction slots generalizing index c ids text with
  | nil =>
    have hnil : (w.methods.get m).slots.drop index = [] :=
      List.drop_of_length_le (by rw [← Method.slotCount, ← hcount]; exact Nat.le_refl _)
    rw [hnil, List.forall₂_nil_left_iff] at hfits
    subst hfits
    cases htext with
    | last hclose =>
      rw [hclose.trim_eq, trim_solid (by decide) (by decide)] at hc
      exact ⟨c, pure_eq_ok_iff.2 ⟨rfl, rfl⟩, hc⟩
  | cons slot slots ih =>
    obtain ⟨first, hfirst, hdrop⟩ := slots_drop hcount
    rw [hdrop, List.forall₂_cons_left_iff] at hfits
    obtain ⟨id, others, hfit, hfits, rfl⟩ := hfits
    cases htext with
    | @more _ t₁ t₂ t₃ _ _ _ hcomma hnext hitem hothers =>
      rw [hcomma.trim_eq, trim_solid (by decide) (by decide)] at hc
      -- behind the comma the cursor passes the blanks, and a variable begins with none
      have hstart : c.advance.pastBlanks.rest = t₂ := by
        rw [Cursor.rest_advance_pastBlanks hc,
          hnext.trim_eq, variableText_solid hitem]
      obtain ⟨u, hread, hu⟩ := (registeredVariable_reads w.vars).complete (hstart ▸ hitem)
      obtain ⟨c', hbind, hc'⟩ := ih (by omega) (by rw [List.length_cons] at hcount; omega) hothers
        hfits (Cursor.rest_pastBlanks_of hu)
      refine ⟨c', bindSlots_cons_iff.2 ⟨fun _ => by rw [hc]; rfl, id, u, m, others, ?_, .inl rfl,
        (accepts_iff_fits hconcrete hfirst).2 hfit, hbind, rfl⟩, hc'⟩
      rwa [if_pos hindex]

/-! ## 3. Variables of a call -/

/-- The variables of a call as they are bound to the outputs and inputs of a method. -/
def bindingOf (w : Workspace) (method : MethodId) (ids : List VariableId) : Binding :=
  ⟨method, ids.take (w.methods.get method).outputs.length,
    ids.drop (w.methods.get method).outputs.length⟩

/-- The method that is known before the first variable. -/
def knownMethod? (w : Workspace) (base : MethodId) : Option MethodId :=
  if (w.methods.get base).isGeneric then none else some base

theorem bindVariables_slotless_iff {b : Binding} (hcount : (w.methods.get base).slotCount = 0) :
    bindVariables w base c = .ok b c' ↔ b = ⟨base, [], []⟩ ∧
      (c.rest.head? ≠ some '(' ∧ c' = c ∨ c.rest.head? = some '(' ∧
        c.advance.pastBlanks.rest.head? = some ')' ∧ c' = c.advance.pastBlanks.advance) := by
  simp only [bindVariables, if_pos hcount, bind_eq_ok_iff, Scan.peek_eq_ok_iff, and_assoc,
    exists_and_left, exists_eq_left]
  by_cases hopen : c.rest.head? = some '('
  · rw [if_pos hopen]
    simp only [bind_eq_ok_iff, Scan.advance_eq_ok_iff, Scan.skipBlanks_eq_ok_iff,
      Scan.expect_eq_ok_iff, pure_eq_ok_iff, and_assoc, exists_and_left, exists_eq_left,
      exists_const, hopen, ne_eq, not_true_eq_false, false_and, false_or, true_and]
    grind
  · rw [if_neg hopen]
    simp only [pure_eq_ok_iff, ne_eq, hopen, not_false_eq_true, true_and, false_and, or_false]

theorem bindVariables_slots_iff {b : Binding} (hcount : (w.methods.get base).slotCount ≠ 0) :
    bindVariables w base c = .ok b c' ↔ c.rest.head? = some '(' ∧ ∃ method ids u,
      bindSlots w base 0 (w.methods.get base).slots (knownMethod? w base) c.advance.pastBlanks
        = .ok (method, ids) u ∧ u.rest.head? = some ')' ∧ c' = u.advance ∧
      b = bindingOf w method ids := by
  simp only [bindVariables, if_neg hcount, bind_eq_ok_iff, Scan.expect_eq_ok_iff,
    Scan.skipBlanks_eq_ok_iff, pure_eq_ok_iff, and_assoc, exists_and_left, exists_eq_left,
    exists_const]
  constructor
  · rintro ⟨hopen, ⟨method, ids⟩, u, hbind, hclose, rfl, rfl⟩
    exact ⟨hopen, method, ids, u, hbind, hclose, rfl, rfl⟩
  · rintro ⟨hopen, method, ids, u, hbind, hclose, rfl, rfl⟩
    exact ⟨hopen, (method, ids), u, hbind, hclose, rfl, rfl⟩

/-- A method is known before the first variable, or is found by the group of that variable. -/
theorem known_or_resolved_iff {m : MethodId} {group : Group} :
    (knownMethod? w base = some m ∨ knownMethod? w base = none ∧
        w.methods.resolve? base group = some m) ↔
      ((w.methods.get base).isGeneric = false → m = base) ∧
        ((w.methods.get base).isGeneric = true → w.methods.resolve? base group = some m) := by
  rw [knownMethod?]
  cases (w.methods.get base).isGeneric with
  | false => simp [eq_comm]
  | true => simp

theorem slots_of_known (hr : w.methods.Sound) {m : MethodId} {group : Group}
    (hordinary : (w.methods.get base).isGeneric = false → m = base)
    (hspecialized : (w.methods.get base).isGeneric = true →
      w.methods.resolve? base group = some m) :
    (w.methods.get m).isGeneric = false ∧
      (w.methods.get m).slotCount = (w.methods.get base).slotCount := by
  cases hgeneric : (w.methods.get base).isGeneric with
  | false =>
    rw [hordinary hgeneric]
    exact ⟨hgeneric, rfl⟩
  | true => exact hr.slots_of_resolve? (hspecialized hgeneric)

/-- A method without slots is not generic. -/
theorem slots_eq_nil {m : Method} (h : m.slotCount = 0) : m.slots = [] ∧ m.isGeneric = false := by
  have hslots : m.slots = [] := List.length_eq_zero_iff.1 h
  exact ⟨hslots, by rw [Method.isGeneric, hslots]; rfl⟩

theorem resolves_slotless (hcount : (w.methods.get base).slotCount = 0) :
    Resolves w base [] base where
  count := hcount.symm
  ordinary := fun _ => rfl
  specialized := fun h => by rw [(slots_eq_nil hcount).2] at h; exact absurd h (by decide)
  groups := by rw [(slots_eq_nil hcount).1]; exact .nil

/-- A method with as many slots as another one begins with a slot where the other one does. -/
theorem first_slot {m : MethodId} {slot : Slot} {slots : List Slot}
    (hslots : (w.methods.get base).slots = slot :: slots)
    (hsame : (w.methods.get m).slotCount = (w.methods.get base).slotCount) :
    1 + slots.length = (w.methods.get m).slotCount ∧ ∃ first,
      (w.methods.get m).slots[0]? = some first ∧
      (w.methods.get m).slots = first :: (w.methods.get m).slots.drop 1 := by
  have hlength : 1 + slots.length = (w.methods.get m).slotCount := by
    rw [hsame, Method.slotCount, hslots, List.length_cons, Nat.add_comm]
  exact ⟨hlength, slots_drop (show 0 + (slots.length + 1) = _ by rw [← hlength]; omega)⟩

/-- What is bound is what the grammar says, up to blanks behind it. -/
theorem bindVariables_sound (hr : w.methods.Sound) {b : Binding}
    (h : bindVariables w base c = .ok b c') :
    ∃ ids rest, ArgumentsText w base c.rest rest ids ∧ Resolves w base ids b.method ∧
      b = bindingOf w b.method ids ∧ trim c'.rest = trim rest := by
  by_cases hcount : (w.methods.get base).slotCount = 0
  · obtain ⟨rfl, ⟨-, rfl⟩ | ⟨hopen, hclose, rfl⟩⟩ := (bindVariables_slotless_iff hcount).1 h
    · exact ⟨[], c'.rest, .none hcount, resolves_slotless hcount, by simp [bindingOf], rfl⟩
    · obtain ⟨t, ht⟩ := List.head?_eq_some_iff.1 hopen
      obtain ⟨rest, hrest⟩ := List.head?_eq_some_iff.1 hclose
      refine ⟨[], rest, ?_, resolves_slotless hcount, by simp [bindingOf], ?_⟩
      · rw [Cursor.rest_advance_pastBlanks ht] at hrest
        rw [ht]
        exact .empty hcount (hrest ▸ blanks_trim t)
      · exact Cursor.trim_rest_advance hrest
  · -- the first variable decides which method is called; the others go by its slots
    obtain ⟨hopen, method, ids, u, hbind, hclose, rfl, rfl⟩ := (bindVariables_slots_iff hcount).1 h
    obtain ⟨t, ht⟩ := List.head?_eq_some_iff.1 hopen
    obtain ⟨rest, hrest⟩ := List.head?_eq_some_iff.1 hclose
    obtain ⟨slot, slots, hslots⟩ := List.exists_cons_of_ne_nil (mt List.length_eq_zero_iff.2 hcount)
    rw [hslots] at hbind
    obtain ⟨-, id, v, m, others, hread, hknown, haccepts, hothers, rfl⟩ :=
      bindSlots_cons_iff.1 hbind
    obtain ⟨hordinary, hspecialized⟩ := known_or_resolved_iff.1 hknown
    obtain ⟨hconcrete, hsame⟩ := slots_of_known hr hordinary hspecialized
    obtain ⟨hslotCount, first, hfirst, hdrop⟩ := first_slot hslots hsame
    obtain ⟨t', htext, hv⟩ := (registeredVariable_reads w.vars).sound hread
    obtain ⟨rfl, hitems, hfits⟩ := bindSlots_sound hconcrete (by decide) hslotCount hothers hrest
    rw [if_neg (by decide), Cursor.rest_advance_pastBlanks ht] at htext
    rw [Cursor.rest_pastBlanks_of hv] at hitems
    have hgroups : List.Forall₂ (Fits w) (w.methods.get method).slots (id :: others) := by
      rw [hdrop]
      exact .cons ((accepts_iff_fits hconcrete hfirst).1 haccepts) hfits
    refine ⟨id :: others, rest, ?_, ⟨?_, hordinary, fun hgeneric => ⟨id, rfl, hspecialized hgeneric⟩,
      hgroups⟩, rfl, ?_⟩
    · rw [ht]
      exact .bound hcount (blanks_trim t) htext (hitems.blanks (blanks_trim t'))
    · rw [← hgroups.length_eq, ← hsame, Method.slotCount]
    · exact Cursor.trim_rest_advance hrest

theorem bindVariables_complete (hr : w.methods.Sound) {m : MethodId} {ids : List VariableId}
    {text rest : List Char} (hargs : ArgumentsText w base text rest ids)
    (hres : Resolves w base ids m) (hc : c.rest = trim text)
    (hrest : (trim rest).head? ≠ some '(') :
    ∃ c', bindVariables w base c = .ok (bindingOf w m ids) c' ∧ trim c'.rest = trim rest := by
  have hempty : (w.methods.get base).slotCount = 0 →
      bindingOf w m [] = ⟨base, [], []⟩ := fun hcount => by
    rw [hres.ordinary (slots_eq_nil hcount).2, bindingOf, List.take_nil, List.drop_nil]
  cases hargs with
  | none hcount =>
    -- what follows the call must not be taken for its parentheses
    rw [hempty hcount]
    exact ⟨c, (bindVariables_slotless_iff hcount).2 ⟨rfl, .inl ⟨hc ▸ hrest, rfl⟩⟩,
      by rw [hc, trim_trim]⟩
  | @empty t _ hcount hclose =>
    rw [trim_solid (by decide) (by decide)] at hc
    have hstart : c.advance.pastBlanks.rest = ')' :: rest := by
      rw [Cursor.rest_advance_pastBlanks hc,
        hclose.trim_eq, trim_solid (by decide) (by decide)]
    rw [hempty hcount]
    refine ⟨_, (bindVariables_slotless_iff hcount).2 ⟨rfl, .inr ⟨by rw [hc]; rfl,
      by rw [hstart]; rfl, rfl⟩⟩, ?_⟩
    exact Cursor.trim_rest_advance hstart
  | @bound t t₁ t₂ _ id ids hcount hblanks hfirst hitems =>
    rw [trim_solid (by decide) (by decide)] at hc
    have hstart : c.advance.pastBlanks.rest = t₁ := by
      rw [Cursor.rest_advance_pastBlanks hc,
        hblanks.trim_eq, variableText_solid hfirst]
    have hspecialized : (w.methods.get base).isGeneric = true →
        w.methods.resolve? base (w.vars.get id).group = some m := fun hgeneric => by
      obtain ⟨_, ⟨⟩, hresolve⟩ := hres.specialized hgeneric
      exact hresolve
    obtain ⟨hconcrete, hsame⟩ := slots_of_known hr hres.ordinary hspecialized
    obtain ⟨slot, slots, hslots⟩ := List.exists_cons_of_ne_nil (mt List.length_eq_zero_iff.2 hcount)
    obtain ⟨hslotCount, first, hslot, hdrop⟩ := first_slot hslots hsame
    have hgroups := hres.groups
    rw [hdrop, List.forall₂_cons] at hgroups
    obtain ⟨u, hread, hu⟩ := (registeredVariable_reads w.vars).complete (hstart ▸ hfirst)
    obtain ⟨v, hothers, hv⟩ := bindSlots_complete hconcrete (by decide) hslotCount hitems hgroups.2
      (Cursor.rest_pastBlanks_of hu)
    have hbind : bindSlots w base 0 (w.methods.get base).slots (knownMethod? w base)
        c.advance.pastBlanks = .ok (m, id :: ids) v := by
      rw [hslots, bindSlots_cons_iff]
      exact ⟨fun h => absurd h (by decide), id, u, m, ids, hread,
        known_or_resolved_iff.2 ⟨hres.ordinary, hspecialized⟩,
        (accepts_iff_fits hconcrete hslot).2 hgroups.1, hothers, rfl⟩
    refine ⟨v.advance, (bindVariables_slots_iff hcount).2 ⟨by rw [hc]; rfl, m, id :: ids, v,
      hbind, by rw [hv]; rfl, rfl, rfl⟩, ?_⟩
    exact Cursor.trim_rest_advance hv

end Reading

end ControlScript
