import ControlScript.Proofs.Runs
import ControlScript.Proofs.Session
import Mathlib.Data.List.Chain

/-!
# Included files and cycles

The files that are open at a place are a chain: each but the first is included by the one before it.
No file is in the chain twice.  In a script that is accepted no file includes itself either, not
even through other files.  For this it is enough that a file is read in the same way wherever it is
included: a cycle could be followed as often as one likes, and the chain would become longer with
every step and come back to a file that is in it.
-/

namespace ControlScript.Reading

variable {ctx : Context} {file source : String} {terminator inner : Terminator} {s u : Progress}
  {a : Agenda}

/-! ## 1. The chain of open files -/

/-- Reading comes to a directive in the text of `outer` and from there to the text of `path`. -/
def Expands (ctx : Context) (file source outer path : String) : Prop :=
  ∃ terminator s u, Visits ctx file source terminator s ∧ s.cursor.file = outer ∧
    s.nesting.depth < ctx.settings.maxDepth ∧ directive? ctx.workspace s = some path ∧
    included? ctx s = some u

/-- Texts have the paths as names that they are found for. -/
def NamedByPath (texts : TextSource) : Prop :=
  ∀ {path text}, texts path = .ok text → text.name = path

theorem namedByPath_ofList (texts : List (String × String)) : NamedByPath (.ofList texts) := by
  intro path text h
  rw [TextSource.ofList] at h
  split at h
  · rw [← Except.ok.inj h]
  · cases h

/-- The open files of a place: the script and what is included from it, down to the file that is
    read there, and none of them twice. -/
structure IncludeChain (ctx : Context) (file source : String) (s : Progress) : Prop where
  outermost : s.nesting.files.head? = some file
  innermost : s.nesting.files.getLast? = some s.cursor.file
  links : s.nesting.files.IsChain (Expands ctx file source)
  distinct : s.nesting.files.Nodup

theorem Visits.links (hnamed : NamedByPath ctx.texts) (h : Visits ctx file source terminator s) :
    s.nesting.files.IsChain (Expands ctx file source) := by
  induction h with
  | outermost _ hinside =>
    rw [nesting_of_inside? hinside]
    exact List.isChain_singleton file
  | next _ hturn ih => rwa [nesting_of_turn hturn]
  | inside _ _ hinside ih => rwa [nesting_of_inside? hinside]
  | @included _ s _ hs hlevel hincluded ih =>
    obtain ⟨path, text, hdirective, htext, hnew, rfl⟩ := included?_eq_some_iff.1 hincluded
    obtain rfl := hnamed htext
    have hlink : Expands ctx file source s.cursor.file text.name :=
      ⟨_, s, _, hs, rfl, hlevel, hdirective, hincluded⟩
    refine List.isChain_append.2 ⟨ih, List.isChain_singleton _, ?_⟩
    intro outer houter path hpath
    rw [hs.innermost] at houter
    obtain rfl := Option.some.inj houter
    obtain rfl := Option.some.inj hpath
    exact hlink

theorem Visits.includeChain (hnamed : NamedByPath ctx.texts)
    (h : Visits ctx file source terminator s) : IncludeChain ctx file source s where
  outermost := by
    obtain ⟨-, names, hfiles, -⟩ := h.opened
    rw [hfiles, List.head?_cons]
  innermost := h.innermost
  links := h.links hnamed
  distinct := h.opened.nodup

/-! ## 2. Accepted scripts -/

section Accepted

variable (hparse : parse ctx file source = .ok a)

include hparse

/-- At every place of an accepted script a turn is taken. -/
theorem Visits.exists_turn (h : Visits ctx file source terminator s) :
    ∃ turn u, agendaTurn ctx (reader ctx) terminator [] s = .ok turn u := by
  cases hturn : agendaTurn ctx (reader ctx) terminator [] s with
  | ok turn u => exact ⟨turn, u, rfl⟩
  | error f u =>
    rw [h.parse_eq ⟨u, hturn⟩] at hparse
    cases hparse

theorem Visits.level_of_inside? (h : Visits ctx file source terminator s)
    (hinside : inside? ctx s = some u) : s.nesting.depth < ctx.settings.maxDepth := by
  obtain ⟨turn, t, hturn⟩ := h.exists_turn hparse
  obtain ⟨call, c, v, hhead, hopen, hagenda, -⟩ := inside?_eq_some_iff.1 hinside
  rw [agendaTurn_of_head hhead] at hturn
  obtain ⟨found, w, hread, -⟩ := bind_eq_ok_iff.1 hturn
  exact (agenda_of_statement hread hopen hagenda).1

/-- The text of a directive in an accepted script is found and not open, and there is a level for
    it. -/
theorem Visits.text_of_directive (h : Visits ctx file source terminator s) {path : String}
    (hdirective : directive? ctx.workspace s = some path) :
    s.nesting.depth < ctx.settings.maxDepth ∧ ∃ text, ctx.texts path = .ok text ∧
      included? ctx s = some ⟨.start text.name text.text.toList,
        ⟨s.nesting.depth + 1, s.nesting.files ++ [text.name]⟩⟩ := by
  obtain ⟨turn, t, hturn⟩ := h.exists_turn hparse
  obtain ⟨c, hhead⟩ := directive?_eq_some_iff.1 hdirective
  rw [agendaTurn_of_head hhead] at hturn
  obtain ⟨found, w, hread, -⟩ := bind_eq_ok_iff.1 hturn
  obtain ⟨text, v, htext, hnew, hlevel, -⟩ := inclusion_eq_ok_iff.1 hread
  exact ⟨hlevel, text, htext, included?_eq_some_iff.2 ⟨path, text, hdirective, htext, hnew, rfl⟩⟩

end Accepted

/-! ## 3. Reading a file again -/

theorem inside?_of_cursor {s' : Progress} (hcursor : s'.cursor = s.cursor)
    (h : inside? ctx s = some u) :
    inside? ctx s' = some ⟨u.cursor, { s'.nesting with depth := s'.nesting.depth + 1 }⟩ := by
  obtain ⟨call, c, v, hhead, hopen, hagenda, rfl⟩ := inside?_eq_some_iff.1 h
  rw [← hcursor] at hhead
  exact inside?_eq_some_iff.2 ⟨call, c, v, hhead, hopen, hagenda, rfl⟩

/-- What is read at a place does not depend on the nesting. -/
theorem cursor_of_turns {s' t t' : Progress} {turn turn' : Turn Agenda Agenda}
    (hcursor : s'.cursor = s.cursor)
    (h : agendaTurn ctx (reader ctx) terminator [] s = .ok turn t)
    (h' : agendaTurn ctx (reader ctx) terminator [] s' = .ok turn' t') :
    turn' = turn ∧ t'.cursor = t.cursor := by
  have hreader : ∀ inner, Agree (reader ctx inner) (reader ctx inner) :=
    fun inner => @agree_agenda ctx ctx.settings.maxDepth ctx.settings.maxDepth _ _ inner
  have hagree : Agree (agendaTurn ctx (reader ctx) terminator [])
      (agendaTurn ctx (reader ctx) terminator []) :=
    @agree_agendaTurn ctx ctx.settings.maxDepth ctx.settings.maxDepth _ _ hreader terminator []
  exact hagree.eq_of_ok hcursor h' h

/-- A place in a file other than the script has come from the beginning of the file. -/
theorem Visits.exists_start (h : Visits ctx file source terminator s) :
    s.nesting.files = [file] ∨ ∃ path text depth, ctx.texts path = .ok text ∧
      text.name = s.cursor.file ∧ Visits ctx file source .endOfText
        ⟨.start text.name text.text.toList, ⟨depth, s.nesting.files⟩⟩ := by
  induction h with
  | outermost _ hinside =>
    rw [nesting_of_inside? hinside]
    exact .inl rfl
  | next _ hturn ih =>
    rw [nesting_of_turn hturn, ((agenda_onward ctx _).turn_reaches hturn).file]
    exact ih
  | inside _ _ hinside ih =>
    rw [nesting_of_inside? hinside, (reaches_of_inside? hinside).file]
    exact ih
  | included hs hlevel hincluded _ =>
    obtain ⟨path, text, _, htext, _, rfl⟩ := included?_eq_some_iff.1 hincluded
    exact .inr ⟨path, text, _, htext, rfl, hs.included hlevel hincluded⟩

/-- Wherever a file is read in an accepted script, reading comes to the same places of it. -/
theorem Visits.again (hnamed : NamedByPath ctx.texts) (hparse : parse ctx file source = .ok a)
    (hs : Visits ctx file source terminator s) {r : Progress}
    (hr : Visits ctx file source inner r) (hfile : s.cursor.file = r.cursor.file) :
    ∃ s', Visits ctx file source terminator s' ∧ s'.cursor = s.cursor ∧
      s'.nesting.files = r.nesting.files := by
  induction hs with
  | @outermost u hlevel hinside =>
    refine ⟨u, .outermost hlevel hinside, rfl, ?_⟩
    rw [nesting_of_inside? hinside]
    -- the script is the last of its open files, so it is the only one
    obtain ⟨-, names, hfiles, -⟩ := hr.opened
    have hdistinct := hr.opened.nodup
    have hlast := hr.innermost
    rw [← hfile, (reaches_of_inside? hinside).file] at hlast
    rw [hfiles] at hdistinct hlast ⊢
    cases names with
    | nil => rfl
    | cons name names =>
      rw [List.getLast?_cons_cons] at hlast
      exact absurd (List.mem_of_getLast? hlast) (List.nodup_cons.1 hdistinct).1
  | @next _ _ t _ _ hturn ih =>
    rw [((agenda_onward ctx _).turn_reaches hturn).file] at hfile
    obtain ⟨s', hs', hcursor, hfiles⟩ := ih hfile
    obtain ⟨turn, t', hturn'⟩ := hs'.exists_turn hparse
    obtain ⟨rfl, ht⟩ := cursor_of_turns hcursor hturn hturn'
    refine ⟨t', hs'.next hturn', ht, ?_⟩
    rw [nesting_of_turn hturn', hfiles]
  | inside _ _ hinside ih =>
    rw [(reaches_of_inside? hinside).file] at hfile
    obtain ⟨s', hs', hcursor, hfiles⟩ := ih hfile
    have hinside' := inside?_of_cursor hcursor hinside
    exact ⟨_, hs'.inside (hs'.level_of_inside? hparse hinside') hinside', rfl, hfiles⟩
  | included hs _ hincluded _ =>
    obtain ⟨path, text, _, htext, hnew, rfl⟩ := included?_eq_some_iff.1 hincluded
    -- the file is not the script, so it is read from its beginning, which is the same everywhere
    rcases hr.exists_start with hscript | ⟨path', text', depth, htext', hname, hstart⟩
    · have hlast := hr.innermost
      rw [hscript] at hlast
      obtain ⟨-, names, hfiles, -⟩ := hs.opened
      have hopen : text.name = file := hfile.trans (Option.some.inj hlast).symm
      rw [hfiles, hopen] at hnew
      exact absurd List.mem_cons_self hnew
    · have hpath : path' = path := by rw [← hnamed htext', hname, ← hfile]; exact hnamed htext
      rw [hpath, htext] at htext'
      obtain rfl := Except.ok.inj htext'
      exact ⟨_, hstart, rfl, rfl⟩

/-! ## 4. No cycles -/

/-- A link can be followed from every place of a file, and makes the chain longer. -/
theorem Expands.follow (hnamed : NamedByPath ctx.texts) (hparse : parse ctx file source = .ok a)
    {path : String} (h : Expands ctx file source s.cursor.file path)
    (hs : Visits ctx file source terminator s) :
    ∃ u, Visits ctx file source .endOfText u ∧ u.cursor.file = path ∧
      u.nesting.files = s.nesting.files ++ [path] := by
  obtain ⟨_, v, _, hv, hfile, _, hdirective, _⟩ := h
  obtain ⟨v', hv', hcursor, hfiles⟩ := hv.again hnamed hparse hs hfile
  have hdirective' : directive? ctx.workspace v' = some path := by
    rwa [directive?, hcursor]
  obtain ⟨hlevel, text, htext, hincluded⟩ := hv'.text_of_directive hparse hdirective'
  obtain rfl := hnamed htext
  exact ⟨_, hv'.included hlevel hincluded, rfl, congrArg (· ++ [text.name]) hfiles⟩

theorem follow_links (hnamed : NamedByPath ctx.texts) (hparse : parse ctx file source = .ok a)
    {outer path : String} (h : Relation.TransGen (Expands ctx file source) outer path)
    (hs : Visits ctx file source terminator s) (hfile : s.cursor.file = outer) :
    ∃ u more, Visits ctx file source .endOfText u ∧ u.cursor.file = path ∧
      u.nesting.files = s.nesting.files ++ more ++ [path] := by
  induction h with
  | single hlink =>
    obtain ⟨u, hu, hpath, hfiles⟩ := Expands.follow hnamed hparse (hfile ▸ hlink) hs
    refine ⟨u, [], hu, hpath, ?_⟩
    rw [hfiles, List.append_nil]
  | @tail between _ _ hlink ih =>
    obtain ⟨v, more, hv, hbetween, hfiles⟩ := ih
    obtain ⟨u, hu, hpath, hfiles'⟩ := Expands.follow hnamed hparse (hbetween ▸ hlink) hv
    refine ⟨u, more ++ [between], hu, hpath, ?_⟩
    rw [hfiles', hfiles, List.append_assoc s.nesting.files]

/-- In an accepted script no file is included from itself. -/
theorem acyclic_of_parse (hnamed : NamedByPath ctx.texts) (hparse : parse ctx file source = .ok a)
    (path : String) : ¬ Relation.TransGen (Expands ctx file source) path path := by
  intro hcycle
  obtain ⟨_, ⟨_, s, _, hs, hfile, _⟩, _⟩ := Relation.TransGen.head'_iff.1 hcycle
  obtain ⟨u, more, hu, -, hfiles⟩ := follow_links hnamed hparse hcycle hs hfile
  -- the file would be open twice
  have hdistinct := hu.opened.nodup
  have hopen : path ∈ s.nesting.files := by
    rw [← hfile]
    exact List.mem_of_getLast? hs.innermost
  rw [hfiles] at hdistinct
  exact (List.disjoint_of_nodup_append hdistinct) (List.mem_append_left _ hopen)
    List.mem_cons_self

/-! ## 5. What is reported as a cycle -/

/-- A directive for an open file is in front of a place, and the fault of a cycle says so. -/
structure CycleAt (ctx : Context) (s : Progress) (path : String) (f : Fault) : Prop where
  directive : directive? ctx.workspace s = some path
  opened : path ∈ s.nesting.files
  fault : f = ⟨.includeCycle path (s.nesting.files ++ [path]), s.cursor.pastBlanks.position⟩

theorem exists_cycleAt (hnamed : NamedByPath ctx.texts) {f : Fault}
    (h : parse ctx file source = .error f) (hkind : f.cause.kind = .includeCycle) :
    ∃ terminator s path, Visits ctx file source terminator s ∧ CycleAt ctx s path f := by
  obtain ⟨t, ht⟩ := parse_eq_error_iff.1 h
  rcases script_stops ht with hhere | ⟨terminator, u, hu, -, -, hcycle⟩
  · exact absurd hkind hhere.kind
  · obtain ⟨path, text, hdirective, htext, hopen, hfault⟩ := hcycle hkind
    obtain rfl := hnamed htext
    exact ⟨terminator, u, text.name, hu, hdirective, hopen, hfault⟩

/-- Cycles are found out exactly. -/
structure CyclesExact (ctx : Context) (file source : String) : Prop where
  chain : ∀ {terminator s}, Visits ctx file source terminator s →
    IncludeChain ctx file source s
  -- a fault leaves open what was open at the place where it was found
  stopped : ∀ {s f t}, script ctx file source s = .error f t → t.nesting.files = [file] ∨
    ∃ terminator u, Visits ctx file source terminator u ∧ t.nesting.files = u.nesting.files
  ended : ∀ {s a t}, script ctx file source s = .ok a t → t.nesting.files = [file]
  acyclic : ∀ {a}, parse ctx file source = .ok a →
    ∀ path, ¬ Relation.TransGen (Expands ctx file source) path path
  raised : ∀ {f}, parse ctx file source = .error f → f.cause.kind = .includeCycle →
    ∃ terminator s path, Visits ctx file source terminator s ∧ CycleAt ctx s path f
  detected : ∀ {terminator s path text}, Visits ctx file source terminator s →
    directive? ctx.workspace s = some path → ctx.texts path = .ok text →
      path ∈ s.nesting.files → ∃ f, parse ctx file source = .error f ∧ CycleAt ctx s path f
  -- a file that is not open is read again, whether it was read before or not
  reopened : ∀ {terminator s path text}, Visits ctx file source terminator s →
    directive? ctx.workspace s = some path → ctx.texts path = .ok text →
      path ∉ s.nesting.files → s.nesting.depth < ctx.settings.maxDepth →
        Visits ctx file source .endOfText ⟨.start path text.text.toList,
          ⟨s.nesting.depth + 1, s.nesting.files ++ [path]⟩⟩

/-- With texts that are kept in memory, a file is refused as a cycle exactly when it is open. -/
theorem cycles_exact (w : Workspace) (texts : List (String × String)) (settings : Settings)
    (file source : String) : CyclesExact ⟨w, .ofList texts, settings⟩ file source where
  chain := fun h => h.includeChain (namedByPath_ofList texts)
  stopped := by
    intro s f t h
    rcases script_stops h with hhere | ⟨terminator, u, hu, hfiles, -⟩
    · exact .inl hhere.files
    · exact .inr ⟨terminator, u, hu, hfiles⟩
  ended := by
    intro s a t h
    rw [nesting_of_script h]
  acyclic := fun h => acyclic_of_parse (namedByPath_ofList texts) h
  raised := fun h hkind => exists_cycleAt (namedByPath_ofList texts) h hkind
  detected := by
    intro terminator s path text hs hdirective htext hopen
    obtain rfl := namedByPath_ofList texts htext
    exact ⟨_, hs.parse_of_cycle hdirective htext hopen, hdirective, hopen, rfl⟩
  reopened := by
    intro terminator s path text hs hdirective htext hnew hlevel
    obtain rfl := namedByPath_ofList texts htext
    exact hs.included hlevel (included?_eq_some_iff.2 ⟨_, text, hdirective, htext, hnew, rfl⟩)

/-- A workspace with an entry method, and texts that include each other. -/
def Context.linked (texts : List (String × String)) : Context :=
  { workspace := ⟨⟨[⟨Workspace.arts, none⟩]⟩, {}⟩, texts := .ofList texts }

-- a text may be included twice, but not from itself
example : (parse (.linked [("a", "INCLUDE \"c\""), ("b", "INCLUDE \"c\""), ("c", "")]) "main"
    "Arts \x7b INCLUDE \"a\" INCLUDE \"b\" \x7d").isOk = true := by decide +kernel

example : (parse (.linked [("a", "INCLUDE \"b\""), ("b", "INCLUDE \"a\"")]) "main"
    "Arts \x7b INCLUDE \"a\" \x7d").isOk = false := by decide +kernel

end ControlScript.Reading
