import ControlScript.Proofs.Movement
import ControlScript.Proofs.Reading

/-!
# Bounds on nesting only refuse

How deep reading has come, how deep it may come and which files are open decide whether an agenda
is refused, and nothing else.  Two runs that differ in these only have the same outcome, unless one
of them is refused; and what is read with some bound and some open files is read with any greater
bound and with fewer open files.
-/

namespace ControlScript

theorem Fault.refuses_tooDeep (limit : Nat) (here : Position) :
    Fault.Refuses ⟨.nestingTooDeep limit, here⟩ := .inl rfl

theorem Fault.refuses_cycle (file : String) (chain : List String) (here : Position) :
    Fault.Refuses ⟨.includeCycle file chain, here⟩ := .inr rfl

namespace Reading

/-! ## 1. Outcomes -/

/-- A context with another bound on nesting. -/
def Context.bounded (ctx : Context) (maxDepth : Nat) : Context :=
  { ctx with settings.maxDepth := maxDepth }

@[simp] theorem Context.bounded_workspace (ctx : Context) (maxDepth : Nat) :
    (ctx.bounded maxDepth).workspace = ctx.workspace := rfl

@[simp] theorem Context.bounded_texts (ctx : Context) (maxDepth : Nat) :
    (ctx.bounded maxDepth).texts = ctx.texts := rfl

/-- A context with other texts to include. -/
def Context.finding (ctx : Context) (texts : TextSource) : Context := { ctx with texts := texts }

/-- What is seen of a run from outside: what was read and where reading ended, or the fault. -/
def outcome {α : Type} : EStateM.Result Fault Progress α → Except Fault (α × Cursor)
  | .ok a s => .ok (a, s.cursor)
  | .error f _ => .error f

/-- An outcome that is a refusal. -/
def Refused {α : Type} : Except Fault α → Prop
  | .ok _ => False
  | .error f => f.Refuses

/-- The outcome of reading the agenda in front of a cursor, as deep as the settings allow. -/
def readAgenda (ctx : Context) (terminator : Terminator) (s : Progress) :
    Except Fault (Agenda × Cursor) :=
  outcome (agenda ctx ctx.settings.maxDepth terminator s)

/-! ## 2. Readers that agree -/

/-- Readers that have the same outcome where their cursors are the same, unless one is refused. -/
def Agree {α : Type} (x y : Read α) : Prop :=
  ∀ s s' : Progress, s.cursor = s'.cursor →
    outcome (x s) = outcome (y s') ∨ Refused (outcome (x s)) ∨ Refused (outcome (y s'))

section Agreement

variable {α β : Type} {x y : Read α}

theorem agree_pure (a : α) : Agree (pure a) (pure a) := by
  intro s s' hs
  apply Or.inl
  show Except.ok (a, s.cursor) = Except.ok (a, s'.cursor)
  rw [hs]

theorem agree_throw (f : Fault) : Agree (throw f : Read α) (throw f) :=
  fun _ _ _ => .inl rfl

theorem agree_scan (x : Scan α) : Agree (scan x) (scan x) := by
  intro s s' hs
  apply Or.inl
  rw [scan, scan, hs]
  cases x.run s'.cursor with
  | ok a c => rfl
  | error f c => rfl

theorem agree_of_refused_left (h : ∀ s, Refused (outcome (x s))) : Agree x y :=
  fun s _ _ => .inr (.inl (h s))

theorem agree_of_refused_right (h : ∀ s, Refused (outcome (y s))) : Agree x y :=
  fun _ s' _ => .inr (.inr (h s'))

theorem Agree.eq_of_ok (h : Agree x y) {s s' t t' : Progress} {a b : α}
    (hs : s.cursor = s'.cursor) (hx : x s = .ok a t) (hy : y s' = .ok b t') :
    a = b ∧ t.cursor = t'.cursor := by
  have hxy := h s s' hs
  rw [hx, hy] at hxy
  rcases hxy with hsame | hrefused | hrefused
  · exact Prod.mk.inj (Except.ok.inj hsame)
  · exact hrefused.elim
  · exact hrefused.elim

theorem Agree.bind {f g : α → Read β} (hx : Agree x y) (hf : ∀ a, Agree (f a) (g a)) :
    Agree (x >>= f) (y >>= g) := by
  intro s s' hs
  have hxy := hx s s' hs
  -- a refusal in the first step is one of the whole
  show outcome (EStateM.bind x f s) = outcome (EStateM.bind y g s') ∨
    Refused (outcome (EStateM.bind x f s)) ∨ Refused (outcome (EStateM.bind y g s'))
  rw [EStateM.bind, EStateM.bind]
  cases hxs : x s with
  | ok a t =>
    cases hys : y s' with
    | ok b t' =>
      obtain ⟨rfl, ht⟩ := hx.eq_of_ok hs hxs hys
      exact hf a t t' ht
    | error f' t' =>
      rw [hxs, hys] at hxy
      have hrefuses : f'.Refuses := by simpa [Refused, outcome] using hxy
      exact .inr (.inr hrefuses)
  | error f t =>
    cases hys : y s' with
    | ok b t' =>
      rw [hxs, hys] at hxy
      have hrefuses : f.Refuses := by simpa [Refused, outcome] using hxy
      exact .inr (.inl hrefuses)
    | error f' t' =>
      rw [hxs, hys] at hxy
      exact hxy.imp (fun h => congrArg Except.error (Except.error.inj h)) id

theorem agree_get {f g : Progress → Read α}
    (hf : ∀ outer outer', outer.cursor = outer'.cursor → Agree (f outer) (g outer')) :
    Agree (get >>= f) (get >>= g) :=
  fun s s' hs => hf s s' hs s s' hs

/-- Checks that refuse may turn out differently. -/
theorem Agree.check {p p' : Prop} [Decidable p] [Decidable p'] {fault fault' : Fault}
    {f g : β → Read α} (hfault : fault.Refuses) (hfault' : fault'.Refuses) (h : Agree x y) :
    Agree (if p then throw fault >>= f else x) (if p' then throw fault' >>= g else y) := by
  by_cases hp : p
  · rw [if_pos hp]
    exact agree_of_refused_left fun _ => hfault
  by_cases hp' : p'
  · rw [if_pos hp']
    exact agree_of_refused_right fun _ => hfault'
  rw [if_neg hp, if_neg hp']
  exact h

theorem agree_modify {f g : Progress → Progress}
    (h : ∀ s s' : Progress, s.cursor = s'.cursor → (f s).cursor = (g s').cursor) :
    Agree (modify f) (modify g) := by
  intro s s' hs
  apply Or.inl
  show Except.ok (PUnit.unit, (f s).cursor) = Except.ok (PUnit.unit, (g s').cursor)
  rw [h s s' hs]

theorem agree_enter (settings settings' : Settings) (here : Position) :
    Agree (enter settings here) (enter settings' here) := by
  refine agree_get fun _ _ _ => ?_
  apply Agree.check (Fault.refuses_tooDeep _ _) (Fault.refuses_tooDeep _ _)
  exact agree_modify fun _ _ hs => hs

theorem agree_leave : Agree leave leave := agree_modify fun _ _ hs => hs

theorem agree_openFile (text : IncludedText) : Agree (openFile text) (openFile text) :=
  agree_modify fun _ _ _ => rfl

theorem agree_takeTurns {σ : Type} {turn turn' : σ → Read (Turn σ β)} {stuck stuck' : Read β}
    (hturn : ∀ a, Agree (turn a) (turn' a)) (hstuck : Agree stuck stuck') (text : List Char)
    (a : σ) : Agree (takeTurns turn stuck text a) (takeTurns turn' stuck' text a) := by
  induction text generalizing a with
  | nil =>
    unfold takeTurns
    apply (hturn a).bind
    rintro (next | result)
    · exact hstuck
    · exact agree_pure result
  | cons _ fewer ih =>
    unfold takeTurns
    apply (hturn a).bind
    rintro (next | result)
    · exact ih next
    · exact agree_pure result

end Agreement

section Levels

variable {ctx : Context} {m m' : Nat} {nested nested' : Terminator → Read Agenda}

theorem agree_statement (hnested : ∀ terminator, Agree (nested terminator) (nested' terminator))
    (call : Call) :
    Agree (statement (ctx.bounded m) nested call) (statement (ctx.bounded m') nested' call) := by
  simp only [statement, Context.bounded_workspace]
  apply (agree_scan _).bind
  intro braced
  cases hagenda : (ctx.workspace.methods.get call.method).takesAgenda with
  | true =>
    cases braced with
    | true =>
      apply (agree_enter _ _ _).bind
      intro _
      apply (hnested .brace).bind
      intro body
      apply agree_leave.bind
      intro _
      apply (agree_pure _).bind
      intro found
      exact (agree_scan _).bind fun _ => agree_pure found
    | false => exact (agree_pure _).bind fun found => agree_pure found
  | false =>
    apply (agree_scan _).bind
    intro values
    apply (agree_pure _).bind
    intro found
    cases braced with
    | true => exact (agree_scan _).bind fun _ => agree_pure found
    | false => exact agree_pure found

theorem agree_inclusion (hnested : ∀ terminator, Agree (nested terminator) (nested' terminator))
    (path : String) (here : Position) :
    Agree (inclusion (ctx.bounded m) nested path here)
      (inclusion (ctx.bounded m') nested' path here) := by
  simp only [inclusion, Context.bounded_texts]
  cases ctx.texts path with
  | error e => exact agree_throw _
  | ok text =>
    refine agree_get fun outer outer' houter => ?_
    apply Agree.check (Fault.refuses_cycle _ _ _) (Fault.refuses_cycle _ _ _)
    apply (agree_enter _ _ _).bind
    intro _
    apply (agree_openFile text).bind
    intro _
    apply (hnested .endOfText).bind
    intro found
    have hclose : Agree (closeFile outer.cursor) (closeFile outer'.cursor) :=
      agree_modify fun _ _ _ => houter
    apply hclose.bind
    intro _
    exact agree_leave.bind fun _ => agree_pure found

theorem agree_agendaTurn (hnested : ∀ terminator, Agree (nested terminator) (nested' terminator))
    (terminator : Terminator) (before : Agenda) :
    Agree (agendaTurn (ctx.bounded m) nested terminator before)
      (agendaTurn (ctx.bounded m') nested' terminator before) := by
  rw [agendaTurn_eq, agendaTurn_eq]
  apply (agree_scan _).bind
  rintro (_ | path | call)
  · exact agree_pure _
  · exact (agree_inclusion hnested path _).bind fun _ => agree_pure _
  · exact (agree_statement hnested call).bind fun _ => agree_pure _

theorem agree_agendaBy (hnested : ∀ terminator, Agree (nested terminator) (nested' terminator))
    (terminator : Terminator) :
    Agree (agendaBy (ctx.bounded m) nested terminator)
      (agendaBy (ctx.bounded m') nested' terminator) := by
  refine agree_get fun outer outer' houter => ?_
  rw [houter]
  exact agree_takeTurns (agree_agendaTurn hnested terminator) (agree_scan _) _ _

/-- Whatever the levels are that two readers have left, they agree: one that runs out of them
    refuses. -/
theorem agree_agenda (levels levels' : Nat) (terminator : Terminator) :
    Agree (agenda (ctx.bounded m) levels terminator)
      (agenda (ctx.bounded m') levels' terminator) := by
  induction levels generalizing levels' terminator with
  | zero =>
    have hbottom : ∀ (x : Terminator → Read Agenda) terminator,
        Agree (scan (Scan.fail (.nestingTooDeep m))) (x terminator) :=
      fun _ _ => agree_of_refused_left fun _ => Fault.refuses_tooDeep m _
    cases levels' with
    | zero => exact agree_agendaBy (hbottom _) terminator
    | succ levels' => exact agree_agendaBy (hbottom _) terminator
  | succ levels ih =>
    cases levels' with
    | zero =>
      apply agree_agendaBy
      exact fun _ => agree_of_refused_right fun s => Fault.refuses_tooDeep m' _
    | succ levels' => exact agree_agendaBy (ih levels') terminator

end Levels

/-! ## 3. More levels, more texts and fewer open files -/

/-- A second run is at the same cursor as a first one, with no fewer levels left and no other files
    open. -/
structure Ahead (m m' : Nat) (s s' : Progress) : Prop where
  cursor : s'.cursor = s.cursor
  depth : m - s.nesting.depth ≤ m' - s'.nesting.depth
  files : s'.nesting.files ⊆ s.nesting.files

/-- What a reader reads, a second reader reads as well wherever it is ahead, if its depth fits; both
    leave as many levels and files as they have entered and opened. -/
structure Follows (m m' : Nat) (fits : Nat → Prop) (x y : Terminator → Read Agenda) : Prop where
  ok : ∀ {terminator s s' a t}, Ahead m m' s s' → fits s'.nesting.depth →
    x terminator s = .ok a t → t.nesting = s.nesting ∧ y terminator s' = .ok a ⟨t.cursor, s'.nesting⟩

/-- Turns that are taken in one state are taken in a related one. -/
theorem takeTurns_related {ε σ α β : Type} {turn turn' : α → EStateM ε σ (Turn α β)}
    {stuck stuck' : EStateM ε σ β} {r : σ → σ → Prop} (hstuck : ∀ {s b t}, stuck s ≠ .ok b t)
    (hturn : ∀ {a s s' found t}, r s s' → turn a s = .ok found t →
      ∃ t', r t t' ∧ turn' a s' = .ok found t')
    {text : List Char} {a : α} {s s' t : σ} {b : β} (hs : r s s')
    (h : takeTurns turn stuck text a s = .ok b t) :
    ∃ t', r t t' ∧ takeTurns turn' stuck' text a s' = .ok b t' := by
  -- the text bounds the turns of both loops, so they stop at the same one
  induction text generalizing a s s' with
  | nil =>
    rw [takeTurns, bind_eq_ok_iff] at h
    obtain ⟨found, u, hfound, h⟩ := h
    obtain ⟨u', hu, hfound'⟩ := hturn hs hfound
    cases found with
    | done result =>
      obtain ⟨rfl, rfl⟩ := pure_eq_ok_iff.1 h
      exact ⟨u', hu, takeTurns_of_done hfound'⟩
    | again next => exact absurd h hstuck
  | cons _ fewer ih =>
    rw [takeTurns, bind_eq_ok_iff] at h
    obtain ⟨found, u, hfound, h⟩ := h
    obtain ⟨u', hu, hfound'⟩ := hturn hs hfound
    cases found with
    | done result =>
      obtain ⟨rfl, rfl⟩ := pure_eq_ok_iff.1 h
      exact ⟨u', hu, takeTurns_of_done hfound'⟩
    | again next =>
      obtain ⟨t', ht, hrest⟩ := ih hu h
      exact ⟨t', ht, takeTurns_of_again hfound' (Nat.succ_pos _) hrest⟩

section Levels

variable {ctx : Context} {texts' : TextSource} {m m' : Nat}
  {nested nested' : Terminator → Read Agenda} {fits fits' : Nat → Prop} {s s' t : Progress}

theorem Follows.statement (texts' : TextSource) (hnested : Follows m m' fits nested nested')
    (hfits : ∀ {d}, d < m' → fits' d → fits (d + 1)) (hs : Ahead m m' s s')
    (hdepth : fits' s'.nesting.depth) {call : Call} {found : Statement}
    (h : statement (ctx.bounded m) nested call s = .ok found t) :
    t.nesting = s.nesting ∧
      statement ((ctx.finding texts').bounded m') nested' call s'
        = .ok found ⟨t.cursor, s'.nesting⟩ := by
  obtain ⟨braced, u, hopen, h⟩ := statement_eq_ok_iff.1 h
  rw [statement_eq_ok_iff, hs.cursor]
  rcases h with ⟨hagenda, hbraced, hlevel, body, v, hbody, hclose, rfl, rfl⟩ |
    ⟨hagenda, hbraced, rfl, rfl⟩ | ⟨hagenda, values, v, hbind, rfl, hend⟩
  · -- the only case in which something is read on the level below
    have hlevel : s.nesting.depth < m := hlevel
    have hlevel' : s'.nesting.depth < m' := by
      have := hs.depth
      omega
    have hahead : Ahead m m' ⟨u, { s.nesting with depth := s.nesting.depth + 1 }⟩
        ⟨u, { s'.nesting with depth := s'.nesting.depth + 1 }⟩ := by
      refine ⟨rfl, ?_, hs.files⟩
      have := hs.depth
      show m - (s.nesting.depth + 1) ≤ m' - (s'.nesting.depth + 1)
      omega
    obtain ⟨hnesting, hbody'⟩ := hnested.ok hahead (hfits hlevel' hdepth) hbody
    refine ⟨by rw [hnesting, Nat.add_sub_cancel], braced, u, hopen, .inl ?_⟩
    exact ⟨hagenda, hbraced, hlevel', body, _, hbody', hclose, rfl, rfl⟩
  · exact ⟨rfl, braced, u, hopen, .inr (.inl ⟨hagenda, hbraced, rfl, rfl⟩)⟩
  · rcases hend with ⟨hbraced, hclose, rfl⟩ | ⟨hbraced, rfl⟩
    · exact ⟨rfl, braced, u, hopen, .inr (.inr ⟨hagenda, values, v, hbind, rfl,
        .inl ⟨hbraced, hclose, rfl⟩⟩)⟩
    · exact ⟨rfl, braced, u, hopen, .inr (.inr ⟨hagenda, values, v, hbind, rfl,
        .inr ⟨hbraced, rfl⟩⟩)⟩

theorem Follows.inclusion (hnested : Follows m m' fits nested nested')
    (htexts : ∀ {path text}, ctx.texts path = .ok text → texts' path = .ok text)
    (hfits : ∀ {d}, d < m' → fits' d → fits (d + 1)) (hs : Ahead m m' s s')
    (hdepth : fits' s'.nesting.depth) {path : String} {here : Position} {found : Agenda}
    (h : inclusion (ctx.bounded m) nested path here s = .ok found t) :
    t.nesting = s.nesting ∧
      inclusion ((ctx.finding texts').bounded m') nested' path here s'
        = .ok found ⟨t.cursor, s'.nesting⟩ := by
  obtain ⟨text, v, htext, hnew, hlevel, hread, rfl⟩ := inclusion_eq_ok_iff.1 h
  have hlevel : s.nesting.depth < m := hlevel
  have hlevel' : s'.nesting.depth < m' := by
    have := hs.depth
    omega
  -- both readers are one level deeper in the included text and have opened one more file
  have hahead : Ahead m m'
      ⟨.start text.name text.text.toList, ⟨s.nesting.depth + 1, s.nesting.files ++ [text.name]⟩⟩
      ⟨.start text.name text.text.toList,
        ⟨s'.nesting.depth + 1, s'.nesting.files ++ [text.name]⟩⟩ := by
    refine ⟨rfl, ?_, List.append_subset.2 ⟨?_, List.subset_append_right _ _⟩⟩
    case refine_2 => exact List.Subset.trans hs.files (List.subset_append_left _ _)
    have := hs.depth
    show m - (s.nesting.depth + 1) ≤ m' - (s'.nesting.depth + 1)
    omega
  obtain ⟨hnesting, hread'⟩ := hnested.ok hahead (hfits hlevel' hdepth) hread
  constructor
  · rw [hnesting, Nat.add_sub_cancel, List.dropLast_concat]
  · rw [inclusion_eq_ok_iff]
    refine ⟨text, _, htexts htext, fun hmem => hnew (hs.files hmem), hlevel', hread', ?_⟩
    rw [hs.cursor, Nat.add_sub_cancel, List.dropLast_concat]

/-- A reader that follows another one gives one that does on the level above. -/
theorem Follows.agendaBy (hnested : Follows m m' fits nested nested')
    (htexts : ∀ {path text}, ctx.texts path = .ok text → texts' path = .ok text)
    (hfits : ∀ {d}, d < m' → fits' d → fits (d + 1)) :
    Follows m m' fits' (agendaBy (ctx.bounded m) nested)
      (agendaBy ((ctx.finding texts').bounded m') nested') := by
  refine ⟨fun {terminator s s' found t} hs hdepth h => ?_⟩
  simp only [Reading.agendaBy, bind_eq_ok_iff, get_eq_ok_iff, and_assoc, exists_and_left,
    exists_eq_left] at h ⊢
  rw [hs.cursor]
  -- turns keep both nestings and move both cursors to the same place
  let kept : Progress → Progress → Prop := fun u u' =>
    u'.cursor = u.cursor ∧ u.nesting = s.nesting ∧ u'.nesting = s'.nesting
  have hturn : ∀ {before u u' found v}, kept u u' →
      agendaTurn (ctx.bounded m) nested terminator before u = .ok found v →
      ∃ v', kept v v' ∧
        agendaTurn ((ctx.finding texts').bounded m') nested' terminator before u' = .ok found v' := by
    rintro before u u' found v ⟨hu, hnesting, hnesting'⟩ hturn
    have hahead : ∀ c, Ahead m m' ⟨c, u.nesting⟩ ⟨c, u'.nesting⟩ := by
      intro c
      refine ⟨rfl, ?_, ?_⟩
      · show m - u.nesting.depth ≤ m' - u'.nesting.depth
        rw [hnesting, hnesting']
        exact hs.depth
      · show u'.nesting.files ⊆ u.nesting.files
        rw [hnesting, hnesting']
        exact hs.files
    have hdepth' : fits' u'.nesting.depth := by rwa [hnesting']
    refine ⟨⟨v.cursor, u'.nesting⟩, ?_, ?_⟩
    all_goals rw [agendaTurn_eq_ok_iff] at hturn
    · refine ⟨rfl, ?_, hnesting'⟩
      rw [← hnesting]
      rcases hturn with ⟨_, _, rfl⟩ |
        ⟨_, _, ⟨_, _, c, _, _, hread, _⟩ | ⟨_, c, _, _, hread, _⟩⟩
      · rfl
      · exact (hnested.inclusion htexts hfits (hahead c) hdepth' hread).1
      · exact (hnested.statement texts' hfits (hahead c) hdepth' hread).1
    · rw [agendaTurn_eq_ok_iff, hu]
      rcases hturn with ⟨hend, rfl, rfl⟩ |
        ⟨hend, hrest, ⟨path, here, c, a, hhead, hread, rfl⟩ | ⟨call, c, a, hhead, hread, rfl⟩⟩
      · exact .inl ⟨hend, rfl, rfl⟩
      · refine .inr ⟨hend, hrest, .inl ⟨path, here, c, a, hhead, ?_, rfl⟩⟩
        exact (hnested.inclusion htexts hfits (hahead c) hdepth' hread).2
      · refine .inr ⟨hend, hrest, .inr ⟨call, c, a, hhead, ?_, rfl⟩⟩
        exact (hnested.statement texts' hfits (hahead c) hdepth' hread).2
  have hstart : kept s s' := ⟨hs.cursor, rfl, rfl⟩
  obtain ⟨t', ⟨hcursor, hnesting, hnesting'⟩, hturns⟩ :=
    takeTurns_related (fun h => by simp at h) hturn hstart h
  refine ⟨hnesting, ?_⟩
  rw [hturns, ← hcursor, ← hnesting']

theorem follows_agenda
    (htexts : ∀ {path text}, ctx.texts path = .ok text → texts' path = .ok text)
    (levels levels' : Nat) :
    Follows m m' (fun d => m' ≤ levels' + d) (agenda (ctx.bounded m) levels)
      (agenda ((ctx.finding texts').bounded m') levels') := by
  induction levels generalizing levels' with
  | zero =>
    have hbottom : ∀ x, Follows m m' (fun _ => True)
        (fun _ => scan (Scan.fail (.nestingTooDeep m))) x := by
      refine fun x => ⟨fun {terminator s s' a t} _ _ h => ?_⟩
      simp at h
    cases levels' with
    | zero => exact (hbottom _).agendaBy htexts fun _ _ => trivial
    | succ levels' => exact (hbottom _).agendaBy htexts fun _ _ => trivial
  | succ levels ih =>
    cases levels' with
    | zero =>
      -- the first reader has entered a level, so the second one has levels left
      have hnever : Follows m m' (fun _ => False) (agenda (ctx.bounded m) levels)
          (fun _ => scan (Scan.fail (.nestingTooDeep m'))) := ⟨fun _ hfalse => hfalse.elim⟩
      apply hnever.agendaBy htexts
      intro d hd hfits
      omega
    | succ levels' =>
      apply (ih levels').agendaBy htexts
      intro d hd hfits
      omega

end Levels

/-! ## 4. Scripts -/

theorem readAgenda_eq_ok_iff {ctx : Context} {terminator : Terminator} {s : Progress} {a : Agenda}
    {c : Cursor} : readAgenda ctx terminator s = .ok (a, c) ↔
      ∃ t, agenda ctx ctx.settings.maxDepth terminator s = .ok a t ∧ t.cursor = c := by
  rw [readAgenda]
  cases agenda ctx ctx.settings.maxDepth terminator s with
  | ok b t => simp [outcome, and_comm]
  | error f t => simp [outcome]

theorem readAgenda_of_ahead {ctx : Context} {terminator : Terminator} {m m' : Nat}
    {s s' : Progress} (hs : Ahead m m' s s') {a : Agenda} {c : Cursor}
    (h : readAgenda (ctx.bounded m) terminator s = .ok (a, c)) :
    readAgenda (ctx.bounded m') terminator s' = .ok (a, c) := by
  obtain ⟨t, hread, rfl⟩ := readAgenda_eq_ok_iff.1 h
  have hfits : m' ≤ m' + s'.nesting.depth := Nat.le_add_right _ _
  exact readAgenda_eq_ok_iff.2 ⟨_, ((follows_agenda id m m').ok hs hfits hread).2, rfl⟩

/-- What is read is read with more levels as well, and where all texts are found that were found. -/
theorem parse_of_finding {ctx : Context} {texts' : TextSource} {m m' : Nat}
    (htexts : ∀ {path text}, ctx.texts path = .ok text → texts' path = .ok text) (hm : m ≤ m')
    {file source : String} {found : Agenda} (h : parse (ctx.bounded m) file source = .ok found) :
    parse ((ctx.finding texts').bounded m') file source = .ok found := by
  obtain ⟨_, h⟩ := parse_eq_ok_iff.1 h
  obtain ⟨call, u, t, hhead, hread, hname, hend, -⟩ := script_eq_ok_iff.1 h
  have hstart : Ahead m m' ⟨u, ⟨0, [file]⟩⟩ ⟨u, ⟨0, [file]⟩⟩ :=
    ⟨rfl, Nat.sub_le_sub_right hm 0, List.Subset.refl _⟩
  have hfollows : Follows m m' (fun d => m' ≤ m' + d) (agenda (ctx.bounded m) m)
    (agenda ((ctx.finding texts').bounded m') m') := follows_agenda htexts m m'
  have hfits : ∀ {d}, d < m' → m' ≤ m' + d → m' ≤ m' + (d + 1) :=
    fun _ _ => Nat.le_add_right _ _
  have hread' := (hfollows.statement texts' hfits hstart (Nat.le_add_right m' 0) hread).2
  exact parse_eq_ok_iff.2 ⟨_, script_eq_ok_iff.2 ⟨call, u, _, hhead, hread', hname, hend, rfl⟩⟩

theorem parse_of_le {ctx : Context} {m m' : Nat} (hm : m ≤ m') {file source : String}
    {found : Agenda} (h : parse (ctx.bounded m) file source = .ok found) :
    parse (ctx.bounded m') file source = .ok found := parse_of_finding id hm h

/-- Texts that are the same have the same statements wherever they are included. -/
theorem included_eq {ctx : Context} {levels levels' : Nat} {path path' : String}
    {here here' : Position} {s s' t t' : Progress} {a b : Agenda}
    (hpath : ctx.texts path = ctx.texts path')
    (h : inclusion ctx (agenda ctx levels) path here s = .ok a t)
    (h' : inclusion ctx (agenda ctx levels') path' here' s' = .ok b t') : a = b := by
  obtain ⟨text, u, htext, -, -, hread, -⟩ := inclusion_eq_ok_iff.1 h
  obtain ⟨text', u', htext', -, -, hread', -⟩ := inclusion_eq_ok_iff.1 h'
  obtain rfl : text = text' := by
    rw [hpath, htext', Except.ok.injEq] at htext
    exact htext.symm
  have hagree : Agree (agenda ctx levels .endOfText) (agenda ctx levels' .endOfText) :=
    @agree_agenda ctx ctx.settings.maxDepth ctx.settings.maxDepth levels levels' _
  refine (hagree.eq_of_ok ?_ hread hread').1
  rfl

/-- Bounds on nesting and open files only refuse. -/
theorem nesting_only_refuses (ctx : Context) :
    (∀ (terminator : Terminator) (c : Cursor) (m m' : Nat) (n n' : Nesting),
      readAgenda (ctx.bounded m) terminator ⟨c, n⟩ ≠ readAgenda (ctx.bounded m') terminator ⟨c, n'⟩ →
        Refused (readAgenda (ctx.bounded m) terminator ⟨c, n⟩) ∨
          Refused (readAgenda (ctx.bounded m') terminator ⟨c, n'⟩)) ∧
    (∀ (terminator : Terminator) (c : Cursor) (m m' : Nat) (n n' : Nesting) (a : Agenda)
      (c' : Cursor), readAgenda (ctx.bounded m) terminator ⟨c, n⟩ = .ok (a, c') →
        m - n.depth ≤ m' - n'.depth → n'.files ⊆ n.files →
          readAgenda (ctx.bounded m') terminator ⟨c, n'⟩ = .ok (a, c')) ∧
    (∀ (file source : String) (m m' : Nat) (a : Agenda),
      parse (ctx.bounded m) file source = .ok a → m ≤ m' →
        parse (ctx.bounded m') file source = .ok a) ∧
    ∀ (path path' : String) (here here' : Position) (s s' t t' : Progress) (levels levels' : Nat)
      (a b : Agenda), ctx.texts path = ctx.texts path' →
        inclusion ctx (agenda ctx levels) path here s = .ok a t →
          inclusion ctx (agenda ctx levels') path' here' s' = .ok b t' → a = b := by
  refine ⟨?outcomes, ?ahead, ?parse, ?included⟩
  case outcomes =>
    intro terminator c m m' n n' hne
    have hagree : Agree (agenda (ctx.bounded m) m terminator)
      (agenda (ctx.bounded m') m' terminator) := agree_agenda m m' terminator
    exact (hagree ⟨c, n⟩ ⟨c, n'⟩ rfl).resolve_left hne
  case ahead =>
    intro terminator c m m' n n' a c' h hdepth hfiles
    have hahead : Ahead m m' ⟨c, n⟩ ⟨c, n'⟩ := ⟨rfl, hdepth, hfiles⟩
    exact readAgenda_of_ahead hahead h
  case parse => exact fun _ _ _ _ _ h hm => parse_of_le hm h
  case included => exact fun _ _ _ _ _ _ _ _ _ _ _ _ hpath h h' => included_eq hpath h h'

end Reading

end ControlScript
