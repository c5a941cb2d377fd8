import ControlScript.Proofs.Binding
import ControlScript.Proofs.Grammar.Respelling

/-!
# Blanks and comments are insignificant

Two scripts that are spelled with the same tokens are accepted alike, however they are laid out, and
their agendas are the same up to the positions of the statements.
-/

namespace ControlScript.Reading

open Grammar

variable {ctx : Context} {file source source' : String}

/-- Another spelling of a script that is read is read as well, as the same agenda elsewhere. -/
theorem exists_parse_of_alike (hr : ctx.workspace.methods.Sound)
    (halike : Alike source.toList source'.toList) {found : Agenda}
    (h : parse ctx file source = .ok found) :
    ∃ found', parse ctx file source' = .ok found' ∧
      Agenda.unplaced found' = Agenda.unplaced found :=
  ok_of_scriptText hr ((scriptText_of_ok hr h).respells (agendaText_respells _ _) halike)

/-- Scripts that consist of the same tokens are accepted alike and bind alike. -/
theorem accepts_iff_of_written (hmethods : ctx.workspace.methods.Built) {tokens : List Token}
    (htokens : ∀ t ∈ tokens, t.WellFormed) (h : Written tokens source.toList)
    (h' : Written tokens source'.toList) :
    ((∃ a, parse ctx file source = .ok a) ↔ ∃ b, parse ctx file source' = .ok b) ∧
      ∀ a b, parse ctx file source = .ok a → parse ctx file source' = .ok b →
        Agenda.bindsLike a b = true := by
  have hr := hmethods.sound
  have halike := alike_of_written (fun t ht => (htokens t ht).coarse) h h'
  constructor
  · constructor
    · rintro ⟨a, ha⟩
      obtain ⟨b, hb, -⟩ := exists_parse_of_alike hr halike ha
      exact ⟨b, hb⟩
    · rintro ⟨b, hb⟩
      obtain ⟨a, ha, -⟩ := exists_parse_of_alike hr halike.symm hb
      exact ⟨a, ha⟩
  · intro a b ha hb
    obtain ⟨b', hb', hsame⟩ := exists_parse_of_alike hr halike ha
    obtain rfl := Except.ok.inj (hb.symm.trans hb')
    exact Agenda.bindsLike_of_unplaced_eq hsame.symm (literate_of_parse hr ha)

/-- The tokens of a small script. -/
def waitTokens : List Token :=
  [.word "Arts".toList, .mark '\x7b', .word "Wait".toList, .mark '\x7d']

/-- A script of the small workspace that is laid out in two ways. -/
theorem accepts_both_layouts : Workspace.small.methods.Built ∧
    (∀ t ∈ waitTokens, t.WellFormed) ∧ Written waitTokens "Arts\x7bWait\x7d".toList ∧
    Written waitTokens "Arts \x7b # wait\n\tWait \x7d".toList ∧
    ∃ a b, parse .small "main" "Arts\x7bWait\x7d" = .ok a ∧
      parse .small "main" "Arts \x7b # wait\n\tWait \x7d" = .ok b ∧ Agenda.count a = 1 ∧
      Agenda.bindsLike a b = true := by
  have htokens : ∀ t ∈ waitTokens, t.WellFormed :=
    List.forall_mem_cons.2 ⟨.name (by decide) (List.all_eq_true.1 (by decide)),
      List.forall_mem_cons.2 ⟨.mark (by decide), List.forall_mem_cons.2
        ⟨.name (by decide) (List.all_eq_true.1 (by decide)),
          List.forall_mem_singleton.2 (.mark (by decide))⟩⟩⟩
  -- a gap may be missing only beside a mark, and a brace is next to every word here
  have hmark : ∀ {c : Char} {gap : List Char} {others : List Token}, gap = [] →
      (Token.mark c).isMark = true ∨ ∀ next ∈ others.head?, next.isMark = true :=
    fun _ => .inl rfl
  have hnext : ∀ {t : Token} {gap : List Char} {c : Char} {others : List Token}, gap = [] →
      t.isMark = true ∨ ∀ next ∈ (Token.mark c :: others).head?, next.isMark = true :=
    fun _ => .inr (by rintro _ ⟨⟩; rfl)
  have hclose : Spells [.mark '\x7d'] ['\x7d'] := @Spells.cons _ _ [] _ .nil hmark .nil
  have hdense : Written waitTokens "Arts\x7bWait\x7d".toList := by
    have hwait := @Spells.cons (.word "Wait".toList) _ [] _ .nil hnext hclose
    have hopen := @Spells.cons (.mark '\x7b') _ [] _ .nil hmark hwait
    exact ⟨[], _, rfl, .nil, @Spells.cons (.word "Arts".toList) _ [] _ .nil hnext hopen⟩
  have hwide : Written waitTokens "Arts \x7b # wait\n\tWait \x7d".toList := by
    have hspace : Gap [' '] := .blank (by decide) .nil
    have hcomment : Gap " # wait\n\t".toList :=
      .blank (by decide) (@Gap.comment " wait".toList ['\t'] (by decide) (.blank (by decide) .nil))
    have hwait := @Spells.cons (.word "Wait".toList) _ [' '] _ hspace hnext hclose
    have hopen := @Spells.cons (.mark '\x7b') _ " # wait\n\t".toList _ hcomment hmark hwait
    exact ⟨[], _, rfl, .nil, @Spells.cons (.word "Arts".toList) _ [' '] _ hspace hnext hopen⟩
  have hread : acceptsWith .small "main" "Arts\x7bWait\x7d" (fun a => Agenda.count a = 1) = true := by
    decide +kernel
  obtain ⟨a, ha, hcount⟩ := acceptsWith_iff.1 hread
  obtain ⟨haccepts, hbinds⟩ := @accepts_iff_of_written .small "main" _ _
    Workspace.small_methods_built _ htokens hdense hwide
  obtain ⟨b, hb⟩ := haccepts.1 ⟨a, ha⟩
  exact ⟨Workspace.small_methods_built, htokens, hdense, hwide, a, b, ha, hb,
    of_decide_eq_true hcount, hbinds a b ha hb⟩

end ControlScript.Reading
