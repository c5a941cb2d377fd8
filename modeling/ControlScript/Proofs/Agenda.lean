import ControlScript.Agenda

/-!
# Agendas without positions

What an agenda says apart from where it says it.  Two agendas that are equal without their
positions bind alike, provided that every value has a literal, for then no double in them is other
than itself.
-/

namespace ControlScript

/-! ## 1. Values that have a literal -/

/-- The strings that can stand between double quotes on one line. -/
def Quotable (s : String) : Prop := ∀ c ∈ s.toList, c ≠ '"' ∧ c ≠ '\n'

namespace Value

/-- The values that have a literal: strings that can be quoted, and finite doubles. -/
def Literate : Value → Prop
  | string s => Quotable s
  | integer _ => True
  | float x => x.isFinite = true
  | stringList items => ∀ s ∈ items, Quotable s
  | integerList _ => True
  | floatList items => ∀ x ∈ items, x.isFinite = true

/-- A finite double is equal to itself as a number. -/
theorem numericallyEqual_self {x : Binary64} (h : x.isFinite = true) :
    x.numericallyEqual x = true := by
  have hlt : x.magnitude < Binary64.infinite := by simpa [Binary64.isFinite] using h
  have hnan : ¬ Binary64.infinite < x.magnitude := by omega
  simp [Binary64.numericallyEqual, Binary64.isNaN, hnan]

/-- What holds of every item and itself holds of a list and itself, item by item. -/
theorem all_zip_self {α : Type} {p : α → α → Bool} {items : List α}
    (h : ∀ a ∈ items, p a a = true) : ((items.zip items).all fun (a, b) => p a b) = true := by
  induction items with
  | nil => rfl
  | cons a items ih =>
    rw [List.zip_cons_cons, List.all_cons, ih fun b hb => h b (List.mem_cons_of_mem _ hb),
      Bool.and_true]
    exact h a List.mem_cons_self

theorem agrees_self {v : Value} (h : v.Literate) : v.agrees v = true := by
  cases v with
  | float x => exact numericallyEqual_self h
  | floatList xs =>
    rw [agrees, beq_self_eq_true, Bool.true_and]
    exact all_zip_self fun x hx => numericallyEqual_self (h x hx)
  | string _ => exact decide_eq_true rfl
  | integer _ => exact decide_eq_true rfl
  | stringList _ => exact decide_eq_true rfl
  | integerList _ => exact decide_eq_true rfl

end Value

/-! ## 2. Statements on all levels -/

/-- The values of a statement; an agenda has none of its own. -/
def Statement.values : Statement → List Value
  | .keywords _ values => values
  | .agenda _ _ => []

mutual

/-- A statement and the statements inside it, each in front of those inside it. -/
def Statement.preorder : Statement → List Statement
  | .keywords call values => [.keywords call values]
  | .agenda call body => .agenda call body :: Agenda.preorder body

/-- The statements of an agenda on all levels, each in front of those inside it. -/
def Agenda.preorder : List Statement → List Statement
  | [] => []
  | s :: rest => s.preorder ++ Agenda.preorder rest

end

@[simp] theorem Agenda.preorder_append (a b : Agenda) :
    Agenda.preorder (a ++ b) = Agenda.preorder a ++ Agenda.preorder b := by
  induction a with
  | nil => rfl
  | cons s a ih => rw [List.cons_append, preorder, ih, preorder, List.append_assoc]

mutual

/-- How many agendas stand inside each other in a statement. -/
def Statement.depth : Statement → Nat
  | .keywords _ _ => 0
  | .agenda _ body => Agenda.depth body + 1

/-- How many agendas stand inside each other in an agenda, itself left out. -/
def Agenda.depth : List Statement → Nat
  | [] => 0
  | s :: rest => max s.depth (Agenda.depth rest)

end

@[simp] theorem Agenda.depth_append (a b : Agenda) :
    Agenda.depth (a ++ b) = max (Agenda.depth a) (Agenda.depth b) := by
  induction a with
  | nil => rw [List.nil_append, depth, Nat.zero_max]
  | cons s a ih => rw [List.cons_append, depth, ih, depth, Nat.max_assoc]

/-! ## 3. Positions left out -/

/-- The position that stands for none. -/
def Position.nowhere : Position := ⟨"", 0, 0⟩

/-- A call without its position. -/
def Call.unplaced (call : Call) : Call := { call with position := .nowhere }

mutual

/-- A statement without its positions. -/
def Statement.unplaced : Statement → Statement
  | .keywords call values => .keywords call.unplaced values
  | .agenda call body => .agenda call.unplaced (Agenda.unplaced body)

/-- An agenda without its positions. -/
def Agenda.unplaced : List Statement → List Statement
  | [] => []
  | s :: rest => s.unplaced :: Agenda.unplaced rest

end

theorem Agenda.unplaced_eq_map (a : Agenda) : Agenda.unplaced a = a.map Statement.unplaced := by
  induction a with
  | nil => rfl
  | cons s a ih => rw [unplaced, ih, List.map_cons]

@[simp] theorem Agenda.unplaced_append (a b : Agenda) :
    Agenda.unplaced (a ++ b) = Agenda.unplaced a ++ Agenda.unplaced b := by
  rw [unplaced_eq_map, unplaced_eq_map, unplaced_eq_map, List.map_append]

mutual

theorem Statement.depth_unplaced (s : Statement) : s.unplaced.depth = s.depth := by
  match s with
  | .keywords _ _ => rfl
  | .agenda _ body =>
    rw [Statement.unplaced, Statement.depth, Agenda.depth_unplaced body, Statement.depth]

theorem Agenda.depth_unplaced (a : List Statement) :
    Agenda.depth (Agenda.unplaced a) = Agenda.depth a := by
  match a with
  | [] => rfl
  | s :: rest =>
    rw [Agenda.unplaced, Agenda.depth, Statement.depth_unplaced s, Agenda.depth_unplaced rest,
      Agenda.depth]

end

theorem Call.bindsLike_of_unplaced_eq {c d : Call} (h : c.unplaced = d.unplaced) :
    c.bindsLike d = true := by
  simp only [unplaced, Call.mk.injEq, true_and] at h
  simp [bindsLike, h]

mutual

theorem Statement.agreesBy_of_unplaced_eq {s t : Statement} (h : s.unplaced = t.unplaced)
    (hvalues : ∀ u ∈ s.preorder, ∀ v ∈ u.values, v.Literate) :
    s.agreesBy Call.bindsLike t = true := by
  match s, t with
  | .keywords c vs, .keywords d ws =>
    simp only [Statement.unplaced, Statement.keywords.injEq] at h
    obtain ⟨hcall, rfl⟩ := h
    rw [Statement.agreesBy, Call.bindsLike_of_unplaced_eq hcall, beq_self_eq_true, Bool.true_and,
      Bool.true_and]
    exact Value.all_zip_self fun v hv => Value.agrees_self (hvalues _ List.mem_cons_self v hv)
  | .agenda c body, .agenda d other =>
    simp only [Statement.unplaced, Statement.agenda.injEq] at h
    rw [Statement.agreesBy, Call.bindsLike_of_unplaced_eq h.1, Bool.true_and]
    exact Agenda.agreesBy_of_unplaced_eq h.2 fun u hu =>
      hvalues u (List.mem_cons_of_mem _ hu)
  | .keywords _ _, .agenda _ _ => simp [Statement.unplaced] at h
  | .agenda _ _, .keywords _ _ => simp [Statement.unplaced] at h

theorem Agenda.agreesBy_of_unplaced_eq {a b : List Statement}
    (h : Agenda.unplaced a = Agenda.unplaced b)
    (hvalues : ∀ u ∈ Agenda.preorder a, ∀ v ∈ u.values, v.Literate) :
    Agenda.agreesBy Call.bindsLike a b = true := by
  match a, b with
  | [], [] => rfl
  | s :: a, t :: b =>
    simp only [Agenda.unplaced, List.cons.injEq] at h
    rw [Agenda.agreesBy,
      Statement.agreesBy_of_unplaced_eq h.1 fun u hu => hvalues u (List.mem_append_left _ hu),
      Agenda.agreesBy_of_unplaced_eq h.2 fun u hu => hvalues u (List.mem_append_right _ hu)]
    rfl
  | [], _ :: _ => simp [Agenda.unplaced] at h
  | _ :: _, [] => simp [Agenda.unplaced] at h

end

/-- Agendas that are equal without their positions bind alike. -/
theorem Agenda.bindsLike_of_unplaced_eq {a b : Agenda} (h : Agenda.unplaced a = Agenda.unplaced b)
    (hvalues : ∀ u ∈ Agenda.preorder a, ∀ v ∈ u.values, v.Literate) :
    Agenda.bindsLike a b = true := Agenda.agreesBy_of_unplaced_eq h hvalues

end ControlScript
