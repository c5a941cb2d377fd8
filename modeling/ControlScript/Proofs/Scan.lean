import ControlScript.Proofs.Grammar.Token

/-!
# When scans succeed

What a scan has read when it succeeds, and that it succeeds on what it should read.  The first
section opens sequences of steps, the second says what moving a cursor leaves of its text, and the
third has one equivalence for each of the scans that all others are made of.
-/

namespace ControlScript

/-! ## 1. Steps that succeed -/

section Steps

variable {ε σ α β : Type} {s t : σ}

@[simp] theorem pure_eq_ok_iff {a b : α} :
    (pure a : EStateM ε σ α) s = .ok b t ↔ b = a ∧ t = s := by
  simp [pure, EStateM.pure, eq_comm]

@[simp] theorem bind_eq_ok_iff {x : EStateM ε σ α} {f : α → EStateM ε σ β} {b : β} :
    (x >>= f) s = .ok b t ↔ ∃ a u, x s = .ok a u ∧ f a u = .ok b t := by
  simp only [bind, EStateM.bind]
  cases x s with
  | ok a u => simp [and_assoc]
  | error e u => simp

@[simp] theorem map_eq_ok_iff {x : EStateM ε σ α} {f : α → β} {b : β} :
    (f <$> x) s = .ok b t ↔ ∃ a, x s = .ok a t ∧ b = f a := by
  simp only [Functor.map, EStateM.map]
  cases x s with
  | ok a u =>
    simp only [EStateM.Result.ok.injEq]
    exact ⟨fun ⟨hb, ht⟩ => ⟨a, ⟨rfl, ht⟩, hb.symm⟩, fun ⟨_, ⟨ha, ht⟩, hb⟩ => ⟨ha ▸ hb.symm, ht⟩⟩
  | error e u => simp

@[simp] theorem throw_ne_ok {e : ε} {b : β} : (throw e : EStateM ε σ β) s ≠ .ok b t := by
  show EStateM.Result.error e s ≠ .ok b t
  simp

/-- A check in front of other steps has to be passed. -/
@[simp] theorem check_eq_ok_iff {p : Prop} [Decidable p] {e : ε} {f : α → EStateM ε σ β}
    {x : EStateM ε σ β} {b : β} :
    (if p then throw e >>= f else x) s = .ok b t ↔ ¬ p ∧ x s = .ok b t := by
  by_cases hp : p
  · simp [hp]
  · simp [hp]

@[simp] theorem get_eq_ok_iff {a : σ} : (get : EStateM ε σ σ) s = .ok a t ↔ a = s ∧ t = s := by
  show EStateM.Result.ok s s = .ok a t ↔ _
  simp [eq_comm]

@[simp] theorem set_eq_ok_iff {new : σ} {u : PUnit} :
    (set new : EStateM ε σ PUnit) s = .ok u t ↔ t = new := by
  show EStateM.Result.ok ⟨⟩ new = .ok u t ↔ _
  simp [eq_comm]

@[simp] theorem modify_eq_ok_iff {f : σ → σ} {u : PUnit} :
    (modify f : EStateM ε σ PUnit) s = .ok u t ↔ t = f s := by
  show EStateM.Result.ok ⟨⟩ (f s) = .ok u t ↔ _
  simp [eq_comm]

@[simp] theorem ofExcept_eq_ok_iff {x : Except ε α} {b : α} :
    (ofExcept x : EStateM ε σ α) s = .ok b t ↔ x = .ok b ∧ t = s := by
  cases x with
  | ok a => simp [ofExcept, eq_comm (a := b)]
  | error e => simp [ofExcept]

theorem ofExcept_eq_error_iff {x : Except ε α} {e : ε} :
    (ofExcept x : EStateM ε σ α) s = .error e t ↔ x = .error e ∧ t = s := by
  cases x with
  | ok a => exact ⟨nofun, fun h => nomatch h.1⟩
  | error e' =>
    show EStateM.Result.error e' s = .error e t ↔ _
    simp [eq_comm (a := t)]

theorem bind_of_ok {x : EStateM ε σ α} {f : α → EStateM ε σ β} {a : α} (h : x s = .ok a t) :
    (x >>= f) s = f a t := by
  show EStateM.bind x f s = _
  rw [EStateM.bind, h]

theorem bind_of_error {x : EStateM ε σ α} {f : α → EStateM ε σ β} {e : ε}
    (h : x s = .error e t) : (x >>= f) s = .error e t := by
  show EStateM.bind x f s = _
  rw [EStateM.bind, h]

theorem bind_eq_error_iff {x : EStateM ε σ α} {f : α → EStateM ε σ β} {e : ε} :
    (x >>= f) s = .error e t ↔ x s = .error e t ∨ ∃ a u, x s = .ok a u ∧ f a u = .error e t := by
  show EStateM.bind x f s = .error e t ↔ _
  rw [EStateM.bind]
  cases x s with
  | ok a u => simp [and_assoc]
  | error e u => simp

theorem bind_congr_of_eq {x y : EStateM ε σ α} {f : α → EStateM ε σ β} (h : x s = y s) :
    (x >>= f) s = (y >>= f) s := by
  show EStateM.bind x f s = EStateM.bind y f s
  rw [EStateM.bind, EStateM.bind, h]

/-- What holds when a turn is the last, and is carried back over every other turn, holds whenever
    taking turns succeeds. -/
theorem takeTurns_induction {turn : α → EStateM ε σ (Turn α β)} {stuck : EStateM ε σ β}
    {motive : α → σ → β → σ → Prop} (hstuck : ∀ {s b t}, stuck s ≠ .ok b t)
    (hdone : ∀ {a s b t}, turn a s = .ok (.done b) t → motive a s b t)
    (hagain : ∀ {a s next u b t}, turn a s = .ok (.again next) u → motive next u b t →
      motive a s b t)
    {text : List Char} {a : α} {b : β} (h : takeTurns turn stuck text a s = .ok b t) :
    motive a s b t := by
  induction text generalizing a s with
  | nil =>
    rw [takeTurns, bind_eq_ok_iff] at h
    obtain ⟨found, u, hturn, h⟩ := h
    cases found with
    | done result =>
      obtain ⟨rfl, rfl⟩ := pure_eq_ok_iff.1 h
      exact hdone hturn
    | again next => exact absurd h hstuck
  | cons c fewer ih =>
    rw [takeTurns, bind_eq_ok_iff] at h
    obtain ⟨found, u, hturn, h⟩ := h
    cases found with
    | done result =>
      obtain ⟨rfl, rfl⟩ := pure_eq_ok_iff.1 h
      exact hdone hturn
    | again next => exact hagain hturn (ih h)

theorem takeTurns_of_done {turn : α → EStateM ε σ (Turn α β)} {stuck : EStateM ε σ β}
    {text : List Char} {a : α} {b : β} (h : turn a s = .ok (.done b) t) :
    takeTurns turn stuck text a s = .ok b t := by
  rw [takeTurns.eq_def, bind_eq_ok_iff]
  exact ⟨.done b, t, h, pure_eq_ok_iff.2 ⟨rfl, rfl⟩⟩

theorem takeTurns_of_again {turn : α → EStateM ε σ (Turn α β)} {stuck : EStateM ε σ β}
    {text : List Char} {a next : α} {u : σ} {b : β} (h : turn a s = .ok (.again next) u)
    (hpos : 0 < text.length) (hnext : takeTurns turn stuck text.tail next u = .ok b t) :
    takeTurns turn stuck text a s = .ok b t := by
  cases text with
  | nil => exact absurd hpos (by decide)
  | cons c fewer =>
    rw [takeTurns, bind_eq_ok_iff]
    exact ⟨.again next, u, h, hnext⟩

end Steps

/-! ## 2. Moving a cursor -/

namespace Cursor

open Grammar

theorem take_feeds (text : List Char) : text.take (feeds text) = text.takeWhile (· == '\n') :=
  (run_takeWhile (· == '\n') text).take_length

theorem drop_feeds (text : List Char) : text.drop (feeds text) = dropFeeds text :=
  (run_takeWhile (· == '\n') text).drop_length

@[simp] theorem rest_move (c : Cursor) (n : Nat) : (c.move n).rest = c.rest.drop n := rfl

@[simp] theorem rest_advanceBy (c : Cursor) (n : Nat) :
    (c.advanceBy n).rest = dropFeeds (c.rest.drop n) := by
  rw [advanceBy, rest_move, ← List.drop_drop, drop_feeds]

@[simp] theorem rest_advance (c : Cursor) : c.advance.rest = dropFeeds c.rest.tail := by
  rw [advance, rest_advanceBy, List.drop_one]

@[simp] theorem rest_start (file : String) (text : List Char) :
    (start file text).rest = dropFeeds text := by
  rw [start, rest_move, drop_feeds]

/-- A move over characters of the line passes a line feed exactly when one stands behind them. -/
theorem lineBreak_advanceBy {c : Cursor} {run rest : List Char} (hrest : c.rest = run ++ rest)
    (hline : '\n' ∉ run) : (c.advanceBy run.length).lineBreak = (rest.head? == some '\n') := by
  have htake : c.rest.take (run.length + feeds (c.rest.drop run.length))
      = run ++ rest.takeWhile (· == '\n') := by
    rw [hrest, List.drop_left, List.take_length_add_append, take_feeds]
  show ((c.rest.take _).getLast? == some '\n') = _
  rw [htake, List.getLast?_append]
  by_cases hhead : rest.head? = some '\n'
  · obtain ⟨rest, rfl⟩ := List.head?_eq_some_iff.1 hhead
    have hfeeds := (run_takeWhile (· == '\n') ('\n' :: rest)).all
    -- the feeds behind the run are not empty, and the last of them is a line feed
    cases hlast : (('\n' :: rest).takeWhile (· == '\n')).getLast? with
    | none => simp at hlast
    | some ch =>
      have hch : ch = '\n' := by simpa using hfeeds ch (List.mem_of_getLast? hlast)
      simp [hch]
  · have hnil : rest.takeWhile (· == '\n') = [] := by
      cases rest with
      | nil => rfl
      | cons ch rest => exact List.takeWhile_cons_of_neg (by simpa using hhead)
    rw [hnil, List.getLast?_nil, Option.none_or, beq_eq_false_iff_ne.2 hhead]
    exact beq_eq_false_iff_ne.2 fun h => hline (List.mem_of_getLast? h)

/-- A cursor that has been moved over something and the line feeds behind it, where `rest` begins
    with these line feeds. -/
structure Behind (c : Cursor) (rest : List Char) : Prop where
  rest_eq : c.rest = dropFeeds rest
  lineBreak_eq : c.lineBreak = (rest.head? == some '\n')

theorem behind_advanceBy {c : Cursor} {run rest : List Char} (hrest : c.rest = run ++ rest)
    (hline : '\n' ∉ run) : (c.advanceBy run.length).Behind rest where
  rest_eq := by rw [rest_advanceBy, hrest, List.drop_left]
  lineBreak_eq := lineBreak_advanceBy hrest hline

theorem behind_advance {c : Cursor} {ch : Char} {rest : List Char} (hrest : c.rest = ch :: rest)
    (hline : ch ≠ '\n') : c.advance.Behind rest := by
  have hrun : c.rest = [ch] ++ rest := hrest
  exact behind_advanceBy hrun (by simpa using Ne.symm hline)

theorem Behind.head_ne {c : Cursor} {rest : List Char} (h : c.Behind rest)
    (hbreak : ¬ c.lineBreak = true) : rest.head? ≠ some '\n' := by
  simpa [h.lineBreak_eq] using hbreak

/-- On the same line there are no line feeds to leave out. -/
theorem Behind.rest_of_not {c : Cursor} {rest : List Char} (h : c.Behind rest)
    (hbreak : ¬ c.lineBreak = true) : c.rest = rest := by
  rw [h.rest_eq, dropFeeds_of_head? (h.head_ne hbreak)]

/-- A cursor behind a run of characters; it stays as it is when the run is empty. -/
def past (c : Cursor) (run : List Char) : Cursor :=
  if run = [] then c else c.advanceBy run.length

@[simp] theorem past_nil (c : Cursor) : c.past [] = c := rfl

theorem past_of_ne_nil {run : List Char} (hne : run ≠ []) (c : Cursor) :
    c.past run = c.advanceBy run.length := if_neg hne

theorem Behind.past {c : Cursor} {run rest : List Char} (h : c.Behind (run ++ rest))
    (hbreak : ¬ c.lineBreak = true) (hline : '\n' ∉ run) : (c.past run).Behind rest := by
  by_cases hnil : run = []
  · subst hnil
    exact h
  · rw [past_of_ne_nil hnil]
    exact behind_advanceBy (h.rest_of_not hbreak) hline

/-- A cursor behind the blanks and comments that it stands in front of. -/
def pastBlanks (c : Cursor) : Cursor :=
  match Scan.countBlanks 0 false c.rest with
  | 0 => c
  | n => c.move n

@[simp] theorem rest_pastBlanks (c : Cursor) : c.pastBlanks.rest = trim c.rest := by
  rw [pastBlanks, trim]
  cases Scan.countBlanks 0 false c.rest with
  | zero => rfl
  | succ n => rfl

section Steps

variable {c : Cursor} {ch : Char} {text : List Char}

theorem rest_advance_of (h : c.rest = ch :: text) : c.advance.rest = dropFeeds text := by
  rw [rest_advance, h, List.tail_cons]

theorem trim_rest_advance (h : c.rest = ch :: text) : trim c.advance.rest = trim text := by
  rw [rest_advance_of h, trim_dropFeeds]

theorem rest_pastBlanks_of (h : c.rest = dropFeeds text) : c.pastBlanks.rest = trim text := by
  rw [rest_pastBlanks, h, trim_dropFeeds]

theorem rest_advance_pastBlanks (h : c.rest = ch :: text) :
    c.advance.pastBlanks.rest = trim text := rest_pastBlanks_of (rest_advance_of h)

end Steps

end Cursor

/-! ## 3. Scans of characters, blanks and names -/

namespace Scan

open Grammar

variable {c c' : Cursor}

@[simp] theorem peek_eq_ok_iff {found : Option Char} :
    peek c = .ok found c' ↔ found = c.rest.head? ∧ c' = c := by
  simp only [peek, Cursor.peek, bind_eq_ok_iff, get_eq_ok_iff, pure_eq_ok_iff, and_assoc,
    exists_and_left, exists_eq_left]

@[simp] theorem position_eq_ok_iff {here : Position} :
    position c = .ok here c' ↔ here = c.position ∧ c' = c := by
  simp only [position, bind_eq_ok_iff, get_eq_ok_iff, pure_eq_ok_iff, and_assoc,
    exists_and_left, exists_eq_left]

@[simp] theorem lineBroken_eq_ok_iff {broken : Bool} :
    lineBroken c = .ok broken c' ↔ broken = c.lineBreak ∧ c' = c := by
  simp only [lineBroken, bind_eq_ok_iff, get_eq_ok_iff, pure_eq_ok_iff, and_assoc,
    exists_and_left, exists_eq_left]

@[simp] theorem fail_ne_ok {α : Type} {cause : Cause} {a : α} : fail cause c ≠ .ok a c' := by
  simp [fail]

@[simp] theorem failing_eq_ok_iff {α β : Type} {p : Prop} [Decidable p] {cause : Cause}
    {f : α → Scan β} {x : Scan β} {b : β} :
    (if p then fail cause >>= f else x) c = .ok b c' ↔ ¬ p ∧ x c = .ok b c' := by
  by_cases hp : p
  · simp [hp]
  · simp [hp]

@[simp] theorem current_eq_ok_iff {ch : Char} :
    current c = .ok ch c' ↔ c.rest.head? = some ch ∧ c' = c := by
  rw [current, bind_eq_ok_iff]
  simp only [peek_eq_ok_iff, and_assoc, exists_and_left, exists_eq_left]
  cases c.rest.head? with
  | none => simp
  | some first => simp [eq_comm]

@[simp] theorem advance_eq_ok_iff {u : Unit} : advance c = .ok u c' ↔ c' = c.advance := by
  simp [advance]

@[simp] theorem expect_eq_ok_iff {ch : Char} {u : Unit} :
    expect ch c = .ok u c' ↔ c.rest.head? = some ch ∧ c' = c.advance := by
  rw [expect, bind_eq_ok_iff]
  simp only [current_eq_ok_iff, and_assoc]
  constructor
  · rintro ⟨found, _, hfound, rfl, h⟩
    split at h
    · simp at h
    · rename_i heq
      rw [Decidable.not_not] at heq
      exact ⟨heq ▸ hfound, by simpa using h⟩
  · rintro ⟨hfound, rfl⟩
    exact ⟨ch, c, hfound, rfl, by simp⟩

theorem takeWhile_eq_ok_iff {p : Char → Bool} {run : List Char} :
    Scan.takeWhile p c = .ok run c' ↔ run = c.rest.takeWhile p ∧ c' = c.past run := by
  simp only [Scan.takeWhile, bind_eq_ok_iff, get_eq_ok_iff, and_assoc, exists_and_left,
    exists_eq_left, List.isEmpty_iff]
  split
  · rename_i hnil
    simp only [hnil, pure_eq_ok_iff]
    constructor <;> rintro ⟨rfl, rfl⟩ <;> exact ⟨rfl, rfl⟩
  · rename_i hne
    simp only [bind_eq_ok_iff, modify_eq_ok_iff, pure_eq_ok_iff, exists_eq_left]
    constructor
    · rintro ⟨_, rfl, rfl⟩
      exact ⟨rfl, (Cursor.past_of_ne_nil hne c).symm⟩
    · rintro ⟨rfl, rfl⟩
      exact ⟨⟨⟩, rfl, Cursor.past_of_ne_nil hne c⟩

@[simp] theorem skipBlanks_eq_ok_iff {u : Unit} : skipBlanks c = .ok u c' ↔ c' = c.pastBlanks := by
  rw [skipBlanks, modify_eq_ok_iff]
  rfl

end Scan

end ControlScript
