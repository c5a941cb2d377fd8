import ControlScript.Proofs.Movement
import ControlScript.Proofs.Reading.Statement

/-!
# Loops that end

A loop is bounded by the text that is left, so it ends by construction.  The bound never decides what
is read: every turn of reading a list takes text, and every turn of reading keywords binds one that
was not bound before.
-/

namespace ControlScript

/-! ## 1. Loops -/

section Loops

variable {ε σ α β : Type}

/-- When every turn but the last makes something smaller, any two texts that are long enough allow
    the same turns, and it does not matter what is done when there are none left. -/
theorem takeTurns_enough {turn : α → EStateM ε σ (Turn α β)} {size : α → σ → Nat}
    {inv : α → σ → Prop}
    (hturn : ∀ {a s next u}, inv a s → turn a s = .ok (.again next) u →
      inv next u ∧ size next u < size a s)
    {text text' : List Char} {stuck stuck' : EStateM ε σ β} {a : α} {s : σ} (ha : inv a s)
    (h : size a s ≤ text.length) (h' : size a s ≤ text'.length) :
    takeTurns turn stuck text a s = takeTurns turn stuck' text' a s := by
  induction text generalizing text' a s with
  | nil =>
    rw [takeTurns.eq_def, takeTurns.eq_def]
    cases hfound : turn a s with
    | error e u => rw [bind_of_error hfound, bind_of_error hfound]
    | ok found u =>
      rw [bind_of_ok hfound, bind_of_ok hfound]
      cases found with
      | done result => rfl
      | again next =>
        -- nothing is smaller than what no text bounds
        have hsmaller := (hturn ha hfound).2
        rw [List.length_nil] at h
        omega
  | cons c fewer ih =>
    rw [takeTurns.eq_def, takeTurns.eq_def]
    cases hfound : turn a s with
    | error e u => rw [bind_of_error hfound, bind_of_error hfound]
    | ok found u =>
      rw [bind_of_ok hfound, bind_of_ok hfound]
      cases found with
      | done result => rfl
      | again next =>
        obtain ⟨hnext, hsmaller⟩ := hturn ha hfound
        rw [List.length_cons] at h
        cases text' with
        | nil =>
          rw [List.length_nil] at h'
          omega
        | cons c' fewer' =>
          rw [List.length_cons] at h'
          exact ih hnext (by omega) (by omega)

end Loops

/-! ## 2. Text that is taken -/

theorem Cursor.Reaches.length_le {c c' : Cursor} (h : c.Reaches c') :
    c'.rest.length ≤ c.rest.length := by
  obtain ⟨run, hrest, -⟩ := h.passed
  rw [hrest, List.length_append]
  omega

/-- A scan that takes text when it succeeds. -/
structure Scan.Takes {α : Type} (x : Scan α) : Prop where
  less : ∀ {c a c'}, x c = .ok a c' → c'.rest.length < c.rest.length

open Grammar

theorem length_dropFeeds_le (text : List Char) : (dropFeeds text).length ≤ text.length := by
  rw [← Cursor.drop_feeds, List.length_drop]
  omega

theorem Scan.Reads.takes {α : Type} {x : Scan α} {p : Phrase α} (hx : Scan.Reads x p)
    (hp : p.Proper) : Scan.Takes x := by
  refine ⟨fun {c a c'} h => ?_⟩
  obtain ⟨rest, htext, hrest⟩ := hx.sound h
  have hlength := hp.length_lt htext
  have hfeeds := length_dropFeeds_le rest
  rw [hrest]
  omega

namespace Reading

variable {c c' : Cursor}

/-- A directive or a call takes at least the name that it begins with. -/
theorem head_takes (w : Workspace) : Scan.Takes (head w) := by
  have hname : Scan.Takes (Scan.requiredName .methodName) :=
    (Scan.requiredName_reads .methodName).takes nameText_proper
  refine ⟨fun {c found c'} h => ?_⟩
  rcases head_eq_ok_iff.1 h with ⟨u, path, hread, hpath, -⟩ | ⟨name, u, base, b, -, hread, -, hb, -⟩
  · have htaken := hname.less hread
    have hblanks := u.reaches_pastBlanks.length_le
    have hforward := (Literal.forward_string.reaches hpath).length_le
    omega
  · have htaken := hname.less hread
    have hblanks := u.reaches_pastBlanks.length_le
    have hforward := ((forward_bindVariables w base).reaches hb).length_le
    omega

/-! ## 3. Lists and keywords -/

/-- Every turn of reading a list takes text, and its turns end before the text does. -/
structure ListEnds {α : Type} (item : Scan α) : Prop where
  takes : ∀ {found next c c'}, Scan.itemTurn item found c = .ok (.again next) c' →
    c'.rest.length < c.rest.length
  ends : ∀ (stuck : Scan (List α)) (text : List Char) (c : Cursor), c.rest.length ≤ text.length →
    takeTurns (Scan.itemTurn item) stuck text [] c = Scan.repeat (Scan.itemTurn item) [] c

theorem listEnds {α : Type} {item : Scan α} (hitem : Scan.Takes item) : ListEnds item := by
  have htakes : ∀ {found next c c'}, Scan.itemTurn item found c = .ok (.again next) c' →
      c'.rest.length < c.rest.length := by
    intro found next c c' h
    rcases Scan.itemTurn_eq_ok_iff.1 h with ⟨_, hdone, _⟩ | ⟨ch, _, _, _, a, u, hread, _, rfl⟩
    · cases hdone
    have htaken := hitem.less hread
    have hblanks := u.reaches_pastBlanks.length_le
    split at htaken
    · omega
    · have hcomma := (c.reaches_advance.trans c.advance.reaches_pastBlanks).length_le
      omega
  refine ⟨htakes, fun stuck text c htext => ?_⟩
  show _ = takeTurns (Scan.itemTurn item) (Scan.fail .endOfText) c.rest [] c
  have hless : ∀ {found : List α} {c next u}, True →
      Scan.itemTurn item found c = .ok (.again next) u → True ∧ u.rest.length < c.rest.length :=
    fun _ h => ⟨trivial, htakes h⟩
  exact takeTurns_enough hless trivial htext (Nat.le_refl _)

/-- The keywords that are not bound yet. -/
def unbound (m : Method) (bound : Bindings) : List Keyword :=
  m.keywords.filter fun keyword => (List.lookup keyword.name bound).isNone

theorem length_unbound_lt {m : Method} {bound : Bindings} {keyword : Keyword} {value : Value}
    (hmem : keyword ∈ m.keywords) (hunset : List.lookup keyword.name bound = none) :
    (unbound m ((keyword.name, value) :: bound)).length < (unbound m bound).length := by
  have hfewer : unbound m ((keyword.name, value) :: bound)
      = (unbound m bound).filter fun other => other.name != keyword.name := by
    rw [unbound, unbound, List.filter_filter]
    congr 1
    funext other
    rw [List.lookup_cons]
    by_cases hname : other.name = keyword.name
    · simp [hname]
    · simp [hname, beq_eq_false_iff_ne.2 hname]
  rw [hfewer, List.length_filter_lt_length_iff_exists]
  refine ⟨keyword, List.mem_filter.2 ⟨hmem, ?_⟩, ?_⟩
  · rw [hunset]
    rfl
  · simp

/-- Every turn of reading keywords binds one that was not bound. -/
theorem keywordTurn_binds {m : Method} {bound bound' : Bindings}
    (h : keywordTurn m bound c = .ok (.again bound') c') :
    ∃ keyword ∈ m.keywords, ∃ value, List.lookup keyword.name bound = none ∧
      bound' = (keyword.name, value) :: bound := by
  rcases keywordTurn_eq_ok_iff.1 h with ⟨_, hdone, _⟩ |
    ⟨_, _, _, keyword, value, u, v, hnext, hvalue, hagain, _⟩
  · cases hdone
  obtain ⟨hunset, rest, htext, -⟩ := keywordText_of_ok hnext hvalue
  exact ⟨keyword, htext.mem, value, hunset, Turn.again.inj hagain⟩

theorem keywordTurn_takes {m : Method} {bound bound' : Bindings}
    (h : keywordTurn m bound c = .ok (.again bound') c') : c'.rest.length < c.rest.length := by
  rcases keywordTurn_eq_ok_iff.1 h with ⟨_, hdone, _⟩ |
    ⟨_, _, _, keyword, value, u, v, hnext, hvalue, _, rfl⟩
  · cases hdone
  have hforward := ((forward_nextKeyword m bound).reaches hnext).length_le
  have htaken := ((Scan.value_reads keyword.kind).takes (literalText_proper _)).less hvalue
  have hblanks := v.reaches_pastBlanks.length_le
  have hcomma : (pastComma v.pastBlanks).rest.length ≤ v.pastBlanks.rest.length := by
    unfold pastComma
    split
    · exact ((Cursor.reaches_advance _).trans (Cursor.reaches_pastBlanks _)).length_le
    · exact Nat.le_refl _
  omega

/-- The keywords of a method take as many turns as there are keywords, at most. -/
theorem bindings_end (m : Method) (stuck : Scan Bindings) {text : List Char}
    (htext : m.keywords.length ≤ text.length) (c : Cursor) :
    (do Scan.skipBlanks; takeTurns (keywordTurn m) stuck text []) c = bindings m c := by
  rw [bindings_eq]
  show takeTurns (keywordTurn m) stuck text [] c.pastBlanks =
    takeTurns (keywordTurn m) (Scan.fail .endOfText) c.pastBlanks.rest [] c.pastBlanks
  -- one text is long enough for both ways to count the turns
  let long := text ++ c.pastBlanks.rest
  have hbinds : ∀ {bound : Bindings} {c next u}, True →
      keywordTurn m bound c = .ok (.again next) u →
      True ∧ (unbound m next).length < (unbound m bound).length := by
    intro bound c next u _ h
    obtain ⟨keyword, hmem, value, hunset, rfl⟩ := keywordTurn_binds h
    exact ⟨trivial, length_unbound_lt hmem hunset⟩
  have htakes : ∀ {bound : Bindings} {c next u}, True →
      keywordTurn m bound c = .ok (.again next) u → True ∧ u.rest.length < c.rest.length :=
    fun _ h => ⟨trivial, keywordTurn_takes h⟩
  have hunbound : (unbound m []).length ≤ text.length :=
    Nat.le_trans (List.length_filter_le _ _) htext
  have hlong : text.length ≤ long.length := by
    rw [List.length_append]
    omega
  have hlong' : c.pastBlanks.rest.length ≤ long.length := by
    rw [List.length_append]
    omega
  calc takeTurns (keywordTurn m) stuck text [] c.pastBlanks
      = takeTurns (keywordTurn m) stuck long [] c.pastBlanks :=
        takeTurns_enough hbinds trivial hunbound (Nat.le_trans hunbound hlong)
    _ = takeTurns (keywordTurn m) (Scan.fail .endOfText) c.pastBlanks.rest [] c.pastBlanks :=
        takeTurns_enough htakes trivial hlong' (Nat.le_refl _)

end Reading

end ControlScript
