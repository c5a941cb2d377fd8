import ControlScript.Proofs.Growth
import ControlScript.Proofs.Json
import ControlScript.Proofs.Registration.Names
import Mathlib.Data.List.Forall2

/-!
# Agendas known by their JSON

The JSON of an agenda has names in place of ids, a text in place of a position, and the values of
keywords in the order of their names, without their kinds.  Nothing is lost: agendas that were read
against the registries of one manifest, from whatever texts and with whatever settings, agree
exactly when their JSON does.
-/

namespace ControlScript

/-! ## 1. Positions -/

/-- A text is cut in one way only at the last of its separators. -/
theorem append_separator_inj {separator : Char} {s t a b : List Char} (ha : separator ∉ a)
    (hb : separator ∉ b) (h : s ++ separator :: a = t ++ separator :: b) : s = t ∧ a = b := by
  have hcut : ∀ {s t a b : List Char}, separator ∉ a → ∀ between, t = s ++ between →
      separator :: a = between ++ separator :: b → s = t ∧ a = b := by
    intro s t a b ha between ht h
    cases between with
    | nil => exact ⟨(ht.trans (List.append_nil s)).symm, (List.cons.inj h).2⟩
    | cons c between =>
      -- the other separator would be behind this one
      refine absurd ?_ ha
      rw [(List.cons.inj h).2]
      exact List.mem_append_right _ List.mem_cons_self
  rcases List.append_eq_append_iff.1 h with ⟨between, ht, h⟩ | ⟨between, hs, h⟩
  · exact hcut ha between ht h
  · obtain ⟨hst, hab⟩ := hcut hb between hs h
    exact ⟨hst.symm, hab.symm⟩

namespace Position

theorem toList_text (p : Position) : p.text.toList =
    (p.file.toList ++ ':' :: Decimal.digitsOf p.line) ++ ':' :: Decimal.digitsOf p.column := by
  have htext : p.text = p.file ++ ":" ++ p.line.repr ++ ":" ++ p.column.repr := rfl
  simp [htext, Nat.toList_repr, Decimal.digitsOf]

/-- Positions are known by their texts, whatever the names of the files are. -/
theorem text_injective {p q : Position} (h : p.text = q.text) : p = q := by
  have hcolon : ∀ n, ':' ∉ Decimal.digitsOf n := fun n hmem =>
    absurd (Decimal.isDigit_of_mem_digitsOf hmem) (by decide)
  have hdigits : ∀ {m n}, Decimal.digitsOf m = Decimal.digitsOf n → m = n := fun {m n} h => by
    rw [← Decimal.ofDigits_digitsOf m, h, Decimal.ofDigits_digitsOf]
  have htext := congrArg String.toList h
  rw [toList_text, toList_text] at htext
  obtain ⟨hfront, hcolumn⟩ := append_separator_inj (hcolon _) (hcolon _) htext
  obtain ⟨hfile, hline⟩ := append_separator_inj (hcolon _) (hcolon _) hfront
  obtain ⟨file, line, column⟩ := p
  obtain ⟨file', line', column'⟩ := q
  rw [Position.mk.injEq]
  exact ⟨String.toList_inj.1 hfile, hdigits hline, hdigits hcolumn⟩

end Position

/-! ## 2. Values -/

namespace Value

/-- The form in which values and statements compare their lists: item by item. -/
theorem all_zip_iff {α : Type} {p : α → α → Bool} {items others : List α} :
    (items.length == others.length && (items.zip others).all fun (a, b) => p a b) = true ↔
      List.Forall₂ (fun a b => p a b = true) items others := by
  rw [Bool.and_eq_true, beq_iff_eq, List.all_eq_true, List.forall₂_iff_zip]
  exact and_congr_right fun _ => ⟨fun h _ _ hmem => h _ hmem, fun h (_, _) hmem => h hmem⟩

/-- Values of one kind that have literals are known by their JSON. -/
theorem agrees_toJson {v w : Value} (hkind : v.kind = w.kind) (hv : v.Literate) (hw : w.Literate) :
    v.toJson.agrees w.toJson = true ↔ v.agrees w = true := by
  cases v with
  | string s =>
    cases w with
    | string t => simp [toJson, agrees]
    | _ => cases hkind
  | integer m =>
    cases w with
    | integer n => simp [toJson, agrees, Int64.toInt_inj]
    | _ => cases hkind
  | float x =>
    cases w with
    | float y => exact Json.agrees_ofBinary64 hv hw
    | _ => cases hkind
  | stringList items =>
    cases w with
    | stringList others => simp [toJson, agrees, Json.agrees_strings]
    | _ => cases hkind
  | integerList items =>
    cases w with
    | integerList others =>
      rw [toJson, toJson, Json.agrees_array_map]
      simp only [Json.agrees_integer, Int64.toInt_inj, List.forall₂_eq_eq_eq, agrees,
        decide_eq_true_eq, integerList.injEq]
    | _ => cases hkind
  | floatList items =>
    cases w with
    | floatList others =>
      rw [toJson, toJson, Json.agrees_array_map, agrees, all_zip_iff, List.forall₂_iff_zip,
        List.forall₂_iff_zip]
      refine and_congr_right fun _ => forall_congr' fun x => forall_congr' fun y => ?_
      refine forall_congr' fun hmem => ?_
      obtain ⟨hx, hy⟩ := List.of_mem_zip hmem
      exact Json.agrees_ofBinary64 (hv x hx) (hw y hy)
    | _ => cases hkind

end Value

/-! ## 3. Keywords -/

section Keywords

variable {keywords : List Keyword} {values others : List Value}

theorem names_of_values (h : keywords.length = values.length) :
    (List.zipWith (fun keyword value => (keyword.name, value.toJson)) keywords values).map (·.1)
      = keywords.map (·.name) := by
  induction keywords generalizing values with
  | nil => rfl
  | cons keyword keywords ih =>
    cases values with
    | nil => cases h
    | cons value values =>
      rw [List.zipWith_cons_cons, List.map_cons, List.map_cons, ih (Nat.succ.inj h)]

/-- The values of the keywords of a method are known by their JSON. -/
theorem agrees_valuesToJson {m : Method} (hm : m.check = .ok ())
    (hvalues : List.Forall₂ (fun keyword value => value.kind = keyword.kind ∧ value.Literate)
      m.keywords values)
    (hothers : List.Forall₂ (fun keyword value => value.kind = keyword.kind ∧ value.Literate)
      m.keywords others) :
    (m.valuesToJson values).agrees (m.valuesToJson others) = true ↔
      List.Forall₂ (fun v w => v.agrees w = true) values others := by
  have hnames := names_of_values hvalues.length_eq
  rw [Method.valuesToJson, Method.valuesToJson, Json.agrees_ofFields_iff
    (hnames.trans (names_of_values hothers.length_eq).symm)
    (hnames ▸ Method.nodup_keywords_of_check hm)]
  -- the two lists have the same keywords in front of their values
  clear hnames hm
  generalize m.keywords = keywords at hvalues hothers
  induction hvalues generalizing others with
  | nil =>
    cases hothers
    exact iff_of_true .nil .nil
  | @cons keyword v keywords values hv _ ih =>
    cases hothers with
    | cons hw hothers =>
      rw [List.zipWith_cons_cons, List.zipWith_cons_cons, List.forall₂_cons, List.forall₂_cons]
      exact and_congr (Value.agrees_toJson (hv.1.trans hw.1.symm) hv.2 hw.2) (ih hothers)

end Keywords

/-! ## 4. Statements -/

section Statements

variable {w : Workspace} {c d : Call}

/-- Two calls show the same: the names of what they refer to, and where they stand. -/
structure Call.ShowsLike (w : Workspace) (c d : Call) : Prop where
  method : (w.methods.get c.method).name = (w.methods.get d.method).name
  generic : (w.methods.baseOf? c.method).map (fun id => (w.methods.get id).name)
    = (w.methods.baseOf? d.method).map fun id => (w.methods.get id).name
  position : c.position.text = d.position.text
  outputs : c.outputs.map (fun id => (w.vars.get id).name)
    = d.outputs.map fun id => (w.vars.get id).name
  inputs : c.inputs.map (fun id => (w.vars.get id).name)
    = d.inputs.map fun id => (w.vars.get id).name

/-- Calls in a workspace of a manifest are known by what they show. -/
theorem Call.ShowsLike.eq (h : c.ShowsLike w d) (hmethods : w.methods.Listed)
    (hvars : w.vars.Built) (hc : c.Known w) (hd : d.Known w) : c = d := by
  obtain ⟨e, he⟩ := hc.method
  obtain ⟨e', he'⟩ := hd.method
  have hmethod := hmethods.eq_of_names_eq he he' h.method h.generic
  have hposition := Position.text_injective h.position
  have houtputs := hvars.eq_of_names_eq (fun id hid => hc.vars id (List.mem_append_left _ hid))
    (fun id hid => hd.vars id (List.mem_append_left _ hid)) h.outputs
  have hinputs := hvars.eq_of_names_eq (fun id hid => hc.vars id (List.mem_append_right _ hid))
    (fun id hid => hd.vars id (List.mem_append_right _ hid)) h.inputs
  obtain ⟨method, position, outputs, inputs⟩ := c
  obtain ⟨method', position', outputs', inputs'⟩ := d
  rw [Call.mk.injEq]
  exact ⟨hmethod, hposition, houtputs, hinputs⟩

theorem VariableRegistry.agrees_namesToJson {r : VariableRegistry} {ids ids' : List VariableId} :
    (r.namesToJson ids).agrees (r.namesToJson ids') = true ↔
      ids.map (fun id => (r.get id).name) = ids'.map fun id => (r.get id).name := by
  rw [← Json.agrees_strings, List.map_map, List.map_map]
  rfl

/-- The two names under which a statement shows its body. -/
def bodyNames : List String := ["keywords", "agenda"]

theorem nodup_fields : ∀ name ∈ bodyNames,
    ["method", "generic", "position", "outputs", "inputs", name].Nodup := by decide

/-- Statements with bodies of one form agree in their JSON when their calls are equal and their
    bodies agree. -/
theorem Call.agrees_fields (hmethods : w.methods.Listed) (hvars : w.vars.Built)
    (hc : c.Known w) (hd : d.Known w) {name : String} {body body' : Json}
    (hname : name ∈ bodyNames) :
    (Json.ofFields (c.fields w ++ [(name, body)])).agrees
        (Json.ofFields (d.fields w ++ [(name, body')])) = true ↔
      c = d ∧ body.agrees body' = true := by
  have hnames : ((c.fields w ++ [(name, body)]).map (·.1)).Nodup := nodup_fields name hname
  have hsame : (c.fields w ++ [(name, body)]).map (·.1)
      = (d.fields w ++ [(name, body')]).map (·.1) := rfl
  rw [Json.agrees_ofFields_iff hsame hnames]
  simp only [fields, List.cons_append, List.nil_append, List.forall₂_cons, Json.agrees_string,
    Json.agrees_ofString?, VariableRegistry.agrees_namesToJson]
  constructor
  · rintro ⟨hmethod, hgeneric, hposition, houtputs, hinputs, hbody, -⟩
    have hshows : c.ShowsLike w d := ⟨hmethod, hgeneric, hposition, houtputs, hinputs⟩
    exact ⟨hshows.eq hmethods hvars hc hd, hbody⟩
  · rintro ⟨rfl, hbody⟩
    exact ⟨rfl, rfl, rfl, rfl, rfl, hbody, .nil⟩

/-- Statements with bodies of different forms do not agree in their JSON. -/
theorem Call.not_agrees_fields {name name' : String} {body body' : Json}
    (hname : name ∈ bodyNames) (hname' : name' ∈ bodyNames) (hne : name ≠ name') :
    ¬ (Json.ofFields (c.fields w ++ [(name, body)])).agrees
        (Json.ofFields (d.fields w ++ [(name', body')])) = true := by
  intro h
  have hapart : ∀ name ∈ bodyNames, ∀ name' ∈ bodyNames,
      name ∈ ["method", "generic", "position", "outputs", "inputs", name'] → name = name' := by
    decide
  have hmem := Json.names_of_agrees h (nodup_fields name hname) name (by simp)
  exact hne (hapart name hname name' hname' hmem)

/-- A statement that fits a workspace: its call is known there, and its body fits the method. -/
structure Statement.Fits (w : Workspace) (s : Statement) : Prop where
  call : s.call.Known w
  body : s.BodyFits (w.methods.get s.call.method)

end Statements

/-! ## 5. Agendas -/

section Agendas

variable {w : Workspace}

mutual

/-- Statements that fit the workspace of a manifest are known by their JSON. -/
theorem Statement.agrees_toJson (hmethods : w.methods.Listed) (hvars : w.vars.Built)
    {s t : Statement} (hs : ∀ u ∈ s.preorder, u.Fits w) (ht : ∀ u ∈ t.preorder, u.Fits w) :
    (s.toJson w).agrees (t.toJson w) = true ↔ s.agreesBy (fun c d => c = d) t = true := by
  match s, t with
  | .keywords c values, .keywords d others =>
    have hc : c.Known w := (hs _ List.mem_cons_self).call
    have hd : d.Known w := (ht _ List.mem_cons_self).call
    have hvalues := (hs _ List.mem_cons_self).body.2
    have hothers := (ht _ List.mem_cons_self).body.2
    have hname : "keywords" ∈ bodyNames := by decide
    rw [Statement.toJson, Statement.toJson, Call.agrees_fields hmethods hvars hc hd hname,
      Statement.agreesBy, Bool.and_assoc, Bool.and_eq_true, decide_eq_true_eq, Value.all_zip_iff]
    -- equal calls have the same keywords
    refine and_congr_right ?_
    rintro rfl
    exact agrees_valuesToJson (hmethods.built.sound.check_get _) hvalues hothers
  | .agenda c body, .agenda d other =>
    have hc : c.Known w := (hs _ List.mem_cons_self).call
    have hd : d.Known w := (ht _ List.mem_cons_self).call
    have hname : "agenda" ∈ bodyNames := by decide
    rw [Statement.toJson, Statement.toJson, Call.agrees_fields hmethods hvars hc hd hname,
      Statement.agreesBy, Bool.and_eq_true, decide_eq_true_eq, Json.agrees_array]
    exact and_congr_right fun _ => Agenda.agrees_toJsonItems hmethods hvars
      (fun u hu => hs u (List.mem_cons_of_mem _ hu)) (fun u hu => ht u (List.mem_cons_of_mem _ hu))
  -- the bodies are shown under different names
  | .keywords _ _, .agenda _ _ =>
    rw [Statement.toJson, Statement.toJson]
    exact iff_of_false (Call.not_agrees_fields (by decide) (by decide) (by decide))
      (by simp [Statement.agreesBy])
  | .agenda _ _, .keywords _ _ =>
    rw [Statement.toJson, Statement.toJson]
    exact iff_of_false (Call.not_agrees_fields (by decide) (by decide) (by decide))
      (by simp [Statement.agreesBy])

/-- Agendas that fit the workspace of a manifest are known by their JSON. -/
theorem Agenda.agrees_toJsonItems (hmethods : w.methods.Listed) (hvars : w.vars.Built)
    {a b : List Statement} (ha : ∀ u ∈ Agenda.preorder a, u.Fits w)
    (hb : ∀ u ∈ Agenda.preorder b, u.Fits w) :
    List.Forall₂ (fun x y => x.agrees y = true) (Agenda.toJsonItems w a) (Agenda.toJsonItems w b) ↔
      Agenda.agreesBy (fun c d => c = d) a b = true := by
  match a, b with
  | [], [] => exact iff_of_true .nil rfl
  | s :: a, t :: b =>
    rw [Agenda.toJsonItems, Agenda.toJsonItems, List.forall₂_cons, Agenda.agreesBy,
      Bool.and_eq_true,
      Statement.agrees_toJson hmethods hvars (fun u hu => ha u (List.mem_append_left _ hu))
        (fun u hu => hb u (List.mem_append_left _ hu)),
      Agenda.agrees_toJsonItems hmethods hvars (fun u hu => ha u (List.mem_append_right _ hu))
        (fun u hu => hb u (List.mem_append_right _ hu))]
  | [], _ :: _ => simp [Agenda.toJsonItems, Agenda.agreesBy]
  | _ :: _, [] => simp [Agenda.toJsonItems, Agenda.agreesBy]

end

end Agendas

/-! ## 6. Control scripts -/

namespace Reading

/-- All statements of an agenda that is read fit the workspace. -/
theorem fits_of_parse {ctx : Context} (hmethods : ctx.workspace.methods.Sound)
    {file source : String} {a : Agenda} (h : parse ctx file source = .ok a) :
    ∀ s ∈ Agenda.preorder a, s.Fits ctx.workspace := by
  intro s hs
  obtain ⟨base, m, -, hbound, hbody⟩ := readInside_of_parse hmethods h s hs
  have hm : ctx.workspace.methods.get s.call.method = m := by
    rw [MethodRegistry.get, hbound.registered, Option.getD_some]
  exact ⟨hbound.known, hm.symm ▸ hbody⟩

/-- The JSON of an agenda loses nothing.  Two agendas that were read against the registries of one
    manifest, from any texts and with any settings, have JSON that agrees exactly when they agree:
    they call the same methods at the same positions, with the same variables and values, in the
    same nesting. -/
theorem agrees_iff_toJson_agrees {m : Manifest} {w : Workspace} (hbuild : m.build = .ok w)
    {texts texts' : TextSource} {settings settings' : Settings}
    {file source file' source' : String} {a b : Agenda}
    (ha : parse ⟨w, texts, settings⟩ file source = .ok a)
    (hb : parse ⟨w, texts', settings'⟩ file' source' = .ok b) :
    (Agenda.toJson w a).agrees (Agenda.toJson w b) = true ↔ Agenda.agrees a b = true := by
  have hmethods := Manifest.listed_of_build hbuild
  have hvars := Manifest.built_vars_of_build hbuild
  rw [Agenda.toJson, Agenda.toJson, Json.agrees_array]
  exact Agenda.agrees_toJsonItems hmethods hvars (fits_of_parse hmethods.built.sound ha)
    (fits_of_parse hmethods.built.sound hb)

/-- A manifest in which a method is named like a specialization of another one. -/
def namesakeManifest : Manifest where
  groups := ["real"]
  vars := [⟨"x", "real"⟩]
  methods := [⟨"Arts", [], [], [], true, []⟩,
    ⟨"Clear", ["*"], [], [], false, [⟨"real", ["real"], [], none⟩]⟩,
    ⟨"Clear_real", ["real"], [], [⟨"level", "Float", none⟩], false, []⟩]

/-- The workspace of the manifest. -/
def namesakes : Workspace where
  methods := ⟨[⟨Workspace.arts, none⟩,
    ⟨{ name := "Clear", outputs := [.anyGroup] }, none⟩,
    ⟨{ name := "Clear_real", outputs := [.only Workspace.real] }, some ⟨⟨1⟩, Workspace.real⟩⟩,
    ⟨{ name := "Clear_real", outputs := [.only Workspace.real],
       keywords := [⟨"level", .float, none⟩] }, none⟩]⟩
  vars := ⟨[⟨"x", Workspace.real⟩]⟩

/-- A script is read, and then a script that includes the statements of the first one from a text of
    its name, with the other zero. -/
theorem agrees_included_zeros : namesakeManifest.build = .ok namesakes ∧ ∃ a b,
    parse ⟨namesakes, .ofList [], {}⟩ "main"
      "Arts \x7b\n Clear(x)\n Clear_real(x) \x7b level = 0.0 \x7d\n\x7d" = .ok a ∧
    parse ⟨namesakes, .ofList [("main", "\n Clear(x)\n Clear_real(x) \x7b level = -0.0 \x7d")],
      { maxDepth := 2 }⟩ "start" "Arts \x7b INCLUDE \"main\" \x7d" = .ok b ∧
    (Agenda.toJson namesakes a).agrees (Agenda.toJson namesakes b) = true ∧
    Agenda.count a = 2 ∧ Agenda.agrees a b = true := by
  have hbuild : namesakeManifest.build = .ok namesakes := by decide +kernel
  have hread : acceptsWith ⟨namesakes, .ofList [], {}⟩ "main"
      "Arts \x7b\n Clear(x)\n Clear_real(x) \x7b level = 0.0 \x7d\n\x7d" (fun a =>
        acceptsWith ⟨namesakes,
            .ofList [("main", "\n Clear(x)\n Clear_real(x) \x7b level = -0.0 \x7d")],
            { maxDepth := 2 }⟩ "start" "Arts \x7b INCLUDE \"main\" \x7d" (fun b =>
          (Agenda.toJson namesakes a).agrees (Agenda.toJson namesakes b) && Agenda.count a = 2))
        = true := by
    decide +kernel
  obtain ⟨a, ha, hread⟩ := acceptsWith_iff.1 hread
  obtain ⟨b, hb, hboth⟩ := acceptsWith_iff.1 hread
  obtain ⟨hjson, hcount⟩ := Bool.and_eq_true_iff.1 hboth
  exact ⟨hbuild, a, b, ha, hb, hjson, of_decide_eq_true hcount,
    (agrees_iff_toJson_agrees hbuild ha hb).1 hjson⟩

end Reading

end ControlScript
