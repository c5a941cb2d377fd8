import ControlScript.Manifest
import ControlScript.Proofs.Canonical
import ControlScript.Proofs.Registration.Manifest

/-!
# Canonical texts and entry methods

A canonical text begins with the name of the entry method and a brace, so it says neither which
variables the entry method was called with nor through which generic method it was found.  It is a
script again exactly when the entry method needs neither: when it is an ordinary method without
slots.
-/

namespace ControlScript

open Grammar Canonical

/-! ## 1. Methods that are called by their name alone -/

/-- A name that can be read finds a method without slots that takes an agenda. -/
structure Enterable (w : Workspace) (entry : String) : Prop where
  nonempty : entry ≠ ""
  isName : ∀ c ∈ entry.toList, Scan.isNameChar c = true
  notDirective : entry ≠ includeDirective
  found : ∃ base, w.methods.find? entry = some base ∧ (w.methods.get base).slotCount = 0 ∧
    (w.methods.get base).takesAgenda = true

section Texts

variable {w : Workspace} {entry : String}

/-- A call of a method without slots is its name. -/
theorem Enterable.call (h : Enterable w entry) :
    ∃ call, (∃ base, (CallText w base).Stands (Canonical.head w call).toList call) ∧
      Canonical.head w call = entry ∧ (w.methods.get call.method).name = entry ∧
      (w.methods.get call.method).takesAgenda = true := by
  obtain ⟨base, hfind, hcount, hagenda⟩ := h.found
  have hresolves := Reading.resolves_slotless hcount
  have hhead : Canonical.head w ⟨base, .nowhere, [], []⟩ = entry := by
    simp [Canonical.head, calledAs_of_resolves hfind hresolves]
  obtain ⟨m, hm, hname⟩ := MethodRegistry.entry_of_find? hfind
  refine ⟨⟨base, .nowhere, [], []⟩, ⟨base, ?_⟩, hhead, ?_, hagenda⟩
  · intro rest hrest
    rw [hhead]
    have hcall : CallText w base (entry.toList ++ rest) rest
        ⟨base, .nowhere, [].take _, [].drop _⟩ :=
      .mk (nameText_stands h.nonempty h.isName hrest) h.notDirective hfind .none (.none hcount)
        hresolves
    rwa [List.take_nil, List.drop_nil] at hcall
  · rw [MethodRegistry.get_of_entry hm, hname]

/-- A canonical text begins with the name of the entry method and a brace. -/
theorem exists_text_eq (w : Workspace) (layout : Layout) (entry : String) (a : Agenda) :
    ∃ more, (Canonical.text w layout entry a).toList = entry.toList ++ ' ' :: '\x7b' :: more := by
  rw [toList_text, Canonical.lines, agendaBlock]
  split
  · exact ⟨'\x7d' :: '\n' :: [], by simp [written, Layout.render]⟩
  · refine ⟨'\n' :: written layout (agendaLines w layout 1 a ++ [⟨0, "\x7d"⟩]), ?_⟩
    simp [written, Layout.render, block]

/-- Where a text begins with a name, that is the name, and behind it is the rest of the text. -/
theorem eq_of_nameText {name : String} {more text rest : List Char}
    (hblanks : Blanks (name.toList ++ more) text) (h : NameText text rest name) : rest = more := by
  obtain ⟨c, t, ht, hc⟩ := h.head
  have hspelled := h.run.spelled
  obtain ⟨n, hn⟩ : ∃ n, name.toList = c :: n := by
    cases hname : name.toList with
    | nil => exact absurd (String.toList_inj.1 hname) h.nonempty
    | cons d n =>
      rw [ht, hname, List.cons_append] at hspelled
      exact ⟨n, by rw [(List.cons.inj hspelled).1]⟩
  -- neither text begins with blanks
  have hsolid : trim (name.toList ++ more) = name.toList ++ more := by
    rw [hn, List.cons_append]
    exact trim_solid (isBlank_of_isNameChar hc).1 (isBlank_of_isNameChar hc).2 _
  rw [hblanks.trim_eq, nameText_solid h, hspelled] at hsolid
  exact List.append_cancel_left hsolid

/-- In front of a brace, the name that is read is all of an entry that is a name. -/
theorem eq_entry_of_nameText (hentry : ∀ c ∈ entry.toList, Scan.isNameChar c = true) {name : String}
    {more text rest : List Char} (hblanks : Blanks (entry.toList ++ ' ' :: '\x7b' :: more) text)
    (h : NameText text rest name) : name = entry := by
  obtain ⟨c, t, ht, hc⟩ := h.head
  have htext : text = trim (entry.toList ++ ' ' :: '\x7b' :: more) := by
    rw [hblanks.trim_eq, nameText_solid h]
  cases hname : entry.toList with
  | nil =>
    -- no name begins with a brace
    rw [hname, List.nil_append, trim_blank (by decide), trim_solid (by decide) (by decide), ht]
      at htext
    obtain rfl := (List.cons.inj htext).1
    exact absurd hc (by decide)
  | cons d n =>
    have hd := isBlank_of_isNameChar (hentry d (by rw [hname]; exact List.mem_cons_self))
    rw [hname, List.cons_append, trim_solid hd.1 hd.2, ← List.cons_append, ← hname] at htext
    have hrun : Run Scan.isNameChar text (' ' :: '\x7b' :: more) entry.toList :=
      ⟨htext, hentry, by simp; decide⟩
    exact String.toList_inj.1 (h.run.eq_takeWhile.1.trans hrun.eq_takeWhile.1.symm)

/-- Variables begin with a parenthesis, so in front of a brace there are none. -/
theorem slotCount_of_brace {base : MethodId} {more text rest : List Char} {ids : List VariableId}
    (hblanks : Blanks (' ' :: '\x7b' :: more) text) (h : ArgumentsText w base text rest ids) :
    (w.methods.get base).slotCount = 0 := by
  cases h with
  | none hcount => exact hcount
  | empty hcount _ => exact hcount
  | bound _ _ _ _ =>
    have hbrace := hblanks.trim_eq
    rw [trim_blank (by decide), trim_solid (by decide) (by decide),
      trim_solid (by decide) (by decide)] at hbrace
    cases hbrace

/-- Where a call is the entry and a brace, and takes an agenda, the entry is enough for it. -/
theorem enterable_of_callText {base : MethodId} {more text rest : List Char} {call : Call}
    (hentry : ∀ c ∈ entry.toList, Scan.isNameChar c = true)
    (hblanks : Blanks (entry.toList ++ ' ' :: '\x7b' :: more) text)
    (h : CallText w base text rest call) (hagenda : (w.methods.get call.method).takesAgenda = true) :
    Enterable w entry := by
  cases h with
  | @mk _ t₁ t₂ _ name ids method hname hdirective hfind hbehind hargs hres =>
    obtain rfl := eq_entry_of_nameText hentry hblanks hname
    obtain rfl := eq_of_nameText hblanks hname
    have hcount := slotCount_of_brace hbehind hargs
    -- a method without slots is not generic
    obtain rfl : method = base := by
      apply hres.ordinary
      have hnone := hres.count.trans hcount
      rw [List.length_eq_zero_iff] at hnone
      subst hnone
      cases hgeneric : (w.methods.get base).isGeneric with
      | false => rfl
      | true =>
        obtain ⟨_, hid, -⟩ := hres.specialized hgeneric
        cases hid
    exact ⟨hname.nonempty, hname.run.all, hdirective, method, hfind, hcount, hagenda⟩

/-- Where a script begins like a canonical text, its call has no variables, so it does not resolve a
    generic method: it is found by the name of the entry method. -/
theorem enterable_of_scriptText (hlisted : w.methods.Listed) {nested : Phrase Agenda}
    {more : List Char} {a : Agenda}
    (h : ScriptText w nested entry (entry.toList ++ ' ' :: '\x7b' :: more) a) : Enterable w entry := by
  have hr := hlisted.built.sound
  cases h with
  | @mk text _ call hblanks hstatement _ hentry =>
    cases hstatement with
    | @mk _ _ _ _ base call' _ hcall _ hbody =>
      obtain ⟨rfl, hagenda⟩ : call' = call ∧ (w.methods.get call'.method).takesAgenda = true := by
        cases hbody with
        | bareAgenda hagenda _ _ => exact ⟨rfl, hagenda⟩
        | agenda hagenda _ => exact ⟨rfl, hagenda⟩
      -- the entry is a name, because it is the name that the call was found by
      refine enterable_of_callText ?_ hblanks hcall hagenda
      cases hcall with
      | @mk _ t₁ t₂ _ name ids method hname hdirective hfind hbehind hargs hres =>
        obtain ⟨m, hm, hbase⟩ := MethodRegistry.entry_of_find? hfind
        have hget : (w.methods.get base).name = name := by rw [MethodRegistry.get_of_entry hm, hbase]
        cases hgeneric : (w.methods.get base).isGeneric with
        | true =>
          -- a specialization is named after its generic method, but a longer name was read
          obtain ⟨id, -, hresolve⟩ := hres.specialized hgeneric
          obtain ⟨special, he⟩ := MethodRegistry.entry_of_resolve? hresolve
          have hspecial := hlisted.named _ (List.mem_of_getElem? he) _ rfl
          rw [← MethodRegistry.get_of_entry he, hentry, hget] at hspecial
          have hspelled : entry.toList ++ ' ' :: '\x7b' :: more = name.toList ++
              '_' :: ((w.vars.get id).group.name.toList ++ ' ' :: '\x7b' :: more) := by
            rw [hspecial]
            simp [Method.specializedName]
          rw [hspelled] at hblanks
          obtain rfl := eq_of_nameText hblanks hname
          exact absurd (hname.run.stops '_' rfl) (by decide)
        | false =>
          obtain rfl := hres.ordinary hgeneric
          have hentry : (w.methods.get method).name = entry := hentry
          rw [← hentry, hget]
          exact hname.run.all

end Texts

/-! ## 2. Scripts of manifests -/

namespace Reading

/-- What was read can be written, and takes no more levels than there were. -/
theorem writable_of_parse {ctx : Context} (hr : ctx.workspace.methods.Sound) {file source : String}
    {a : Agenda} (h : parse ctx file source = .ok a) :
    Agenda.Writable ctx.workspace (Agenda.unplaced a) ∧ Agenda.depth a ≤ ctx.settings.maxDepth := by
  rw [← Agenda.depth_unplaced]
  cases scriptText_of_ok hr h with
  | mk _ hstatement _ _ =>
    obtain ⟨hwritable, hdepth⟩ := writable_of_statementText writable_of_agendaText hstatement
    exact ⟨hwritable.2.2, Nat.le_of_succ_le_succ hdepth⟩

/-- Behind the name of an entry method that needs no more than its name, the canonical text of an
    agenda is read, if there are more levels than the agenda has. -/
theorem parse_of_enterable {ctx : Context} (hr : ctx.workspace.methods.Sound)
    (hnamed : ∀ e ∈ ctx.workspace.methods.entries, e.method.KeywordsNamed)
    (henterable : Enterable ctx.workspace ctx.settings.entry) {a : Agenda}
    (hwritable : Agenda.Writable ctx.workspace (Agenda.unplaced a))
    (hlevels : Agenda.depth a < ctx.settings.maxDepth) (layout : Layout) (file : String) :
    ∃ b, parse ctx file (Canonical.text ctx.workspace layout ctx.settings.entry a) = .ok b ∧
      Agenda.unplaced b = Agenda.unplaced a := by
  obtain ⟨call, hstands, hhead, hname, hagenda⟩ := henterable.call
  rw [← text_unplaced]
  rw [← Agenda.depth_unplaced] at hlevels
  have hstatement : (Statement.agenda call (Agenda.unplaced a)).Writable ctx.workspace :=
    ⟨hstands, hagenda, hwritable⟩
  apply ok_of_scriptText hr
  exact scriptText_of_writable hr hnamed hstatement hlevels hhead hname layout

/-- Only an entry method that is found by its name and has no slots is read from a canonical text. -/
theorem enterable_of_parse {ctx : Context} (hlisted : ctx.workspace.methods.Listed) {layout : Layout}
    {file : String} {a b : Agenda}
    (h : parse ctx file (Canonical.text ctx.workspace layout ctx.settings.entry a) = .ok b) :
    Enterable ctx.workspace ctx.settings.entry := by
  obtain ⟨more, htext⟩ := exists_text_eq ctx.workspace layout ctx.settings.entry a
  have hscript := scriptText_of_ok hlisted.built.sound h
  rw [htext] at hscript
  exact enterable_of_scriptText hlisted hscript

/-- Read against the workspace of a manifest, the canonical text of an agenda is accepted exactly
    when the entry method is found by its name and has no slots; then the text has the same agenda. -/
theorem canonical_text_accepted_iff {m : Manifest} {ctx : Context} {file source : String} {a : Agenda}
    (hbuild : m.build = .ok ctx.workspace)
    (hnamed : ∀ e ∈ ctx.workspace.methods.entries, e.method.KeywordsNamed)
    (h : parse ctx file source = .ok a) (layout : Layout) (texts : TextSource) {maxDepth : Nat}
    (hdepth : ctx.settings.maxDepth < maxDepth) (file' : String) :
    ((∃ b, parse ((ctx.finding texts).bounded maxDepth) file'
        (Canonical.text ctx.workspace layout ctx.settings.entry a) = .ok b) ↔
      Enterable ctx.workspace ctx.settings.entry) ∧
    ∀ b, parse ((ctx.finding texts).bounded maxDepth) file'
        (Canonical.text ctx.workspace layout ctx.settings.entry a) = .ok b →
      Agenda.unplaced b = Agenda.unplaced a := by
  have hlisted := Manifest.listed_of_build hbuild
  have hr := hlisted.built.sound
  obtain ⟨hwritable, hlevels⟩ := writable_of_parse hr h
  let again : Context := (ctx.finding texts).bounded maxDepth
  -- a text that is accepted begins with an entry method that is called by its name, and then the
  -- name is enough
  have haccepted : Enterable ctx.workspace ctx.settings.entry →
      ∃ b, parse again file' (Canonical.text ctx.workspace layout ctx.settings.entry a) = .ok b ∧
        Agenda.unplaced b = Agenda.unplaced a := by
    intro henterable
    exact @parse_of_enterable again hr hnamed henterable a hwritable (by
      show _ < maxDepth
      omega) layout file'
  have henterable : ∀ b, parse again file'
      (Canonical.text ctx.workspace layout ctx.settings.entry a) = .ok b →
      Enterable ctx.workspace ctx.settings.entry := by
    intro b hb
    exact @enterable_of_parse again hlisted _ _ _ _ hb
  refine ⟨⟨fun ⟨b, hb⟩ => henterable b hb, fun he => ?_⟩, fun b hb => ?_⟩
  · obtain ⟨b, hb, -⟩ := haccepted he
    exact ⟨b, hb⟩
  · obtain ⟨b', hb', hsame⟩ := haccepted (henterable b hb)
    obtain rfl := Except.ok.inj (hb'.symm.trans hb)
    exact hsame

/-- A manifest with an entry method without slots, one with a slot, and a generic one. -/
def slottedManifest : Manifest where
  groups := ["real"]
  vars := [⟨"x", "real"⟩]
  methods := [⟨"Arts", [], [], [], true, []⟩, ⟨"Main", [], ["real"], [], true, []⟩,
    ⟨"Loop", [], ["*"], [], true, [⟨"real", [], ["real"], none⟩]⟩]

/-- The workspace of the manifest. -/
def slotted : Workspace where
  methods := ⟨[⟨Workspace.arts, none⟩,
    ⟨{ name := "Main", inputs := [.only Workspace.real], takesAgenda := true }, none⟩,
    ⟨{ name := "Loop", inputs := [.anyGroup], takesAgenda := true }, none⟩,
    ⟨{ name := "Loop_real", inputs := [.only Workspace.real], takesAgenda := true },
      some ⟨⟨2⟩, Workspace.real⟩⟩]⟩
  vars := ⟨[⟨"x", Workspace.real⟩]⟩

/-- Reading against the workspace, with a given entry method and no texts to include. -/
def Context.entering (entry : String) : Context := ⟨slotted, .ofList [], { entry := entry }⟩

/-- The canonical text of a script of an entry method without slots is accepted. -/
theorem canonical_text_accepted_arts : slottedManifest.build = .ok slotted ∧
    (∀ e ∈ slotted.methods.entries, e.method.KeywordsNamed) ∧ Enterable slotted "Arts" ∧
    ∃ a b, parse (Context.entering "Arts") "main" "Arts \x7b Main(x) Loop(x) \x7d" = .ok a ∧
      parse ((Context.entering "Arts").bounded 65) "again" (Canonical.text slotted {} "Arts" a) = .ok b ∧
      Agenda.unplaced b = Agenda.unplaced a := by
  have hbuild : slottedManifest.build = .ok slotted := by decide +kernel
  have hnamed : ∀ e ∈ slotted.methods.entries, e.method.KeywordsNamed := by decide
  have henterable : Enterable slotted "Arts" :=
    ⟨by decide, List.all_eq_true.1 (by decide), by decide, ⟨0⟩, by decide, by decide, by decide⟩
  have hread : acceptsWith (Context.entering "Arts") "main" "Arts \x7b Main(x) Loop(x) \x7d"
      (fun _ => true) = true := by decide +kernel
  obtain ⟨a, ha, -⟩ := acceptsWith_iff.1 hread
  obtain ⟨haccepted, hsame⟩ := @canonical_text_accepted_iff slottedManifest (Context.entering "Arts")
    _ _ _ hbuild hnamed ha {} (.ofList []) 65 (by decide) "again"
  obtain ⟨b, hb⟩ := haccepted.2 henterable
  exact ⟨hbuild, hnamed, henterable, a, b, ha, hb, hsame b hb⟩

/-- Scripts of an entry method with a slot, called by its own name or as a specialization, are
    accepted, but their canonical texts are not, with however many levels. -/
theorem canonical_text_refused : slottedManifest.build = .ok slotted ∧
    (∀ e ∈ slotted.methods.entries, e.method.KeywordsNamed) ∧
    (∃ a, parse (Context.entering "Main") "main" "Main(x) \x7b\x7d" = .ok a ∧
      ∀ maxDepth b, parse ((Context.entering "Main").bounded maxDepth) "again"
        (Canonical.text slotted {} "Main" a) ≠ .ok b) ∧
    ∃ a, parse (Context.entering "Loop_real") "main" "Loop(x) \x7b\x7d" = .ok a ∧
      ∀ maxDepth b, parse ((Context.entering "Loop_real").bounded maxDepth) "again"
        (Canonical.text slotted {} "Loop_real" a) ≠ .ok b := by
  have hbuild : slottedManifest.build = .ok slotted := by decide +kernel
  have hlisted := Manifest.listed_of_build hbuild
  have hmain : ¬ Enterable slotted "Main" := by
    rintro ⟨-, -, -, base, hfind, hcount, -⟩
    obtain rfl : (⟨1⟩ : MethodId) = base := Option.some.inj hfind
    exact absurd hcount (by decide)
  have hloop : ¬ Enterable slotted "Loop_real" := by
    rintro ⟨-, -, -, base, hfind, -, -⟩
    cases hfind
  have hread : acceptsWith (Context.entering "Main") "main" "Main(x) \x7b\x7d" (fun _ => true) = true := by
    decide +kernel
  have hread' : acceptsWith (Context.entering "Loop_real") "main" "Loop(x) \x7b\x7d" (fun _ => true)
      = true := by decide +kernel
  obtain ⟨a, ha, -⟩ := acceptsWith_iff.1 hread
  obtain ⟨a', ha', -⟩ := acceptsWith_iff.1 hread'
  refine ⟨hbuild, by decide, ⟨a, ha, fun maxDepth b hb => hmain ?_⟩, a', ha', fun maxDepth b hb => hloop ?_⟩
  · exact @enterable_of_parse ((Context.entering "Main").bounded maxDepth) hlisted _ _ _ _ hb
  · exact @enterable_of_parse ((Context.entering "Loop_real").bounded maxDepth) hlisted _ _ _ _ hb

end Reading

end ControlScript
