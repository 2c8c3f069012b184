import PhpOutline.Proofs.Lexing.Lines

/-!
# The order of diagnostics

Behind a character that begins no token the reading goes on, but a token without its end takes all
the rest of the source. So the diagnostics report any number of such characters, and behind them at
most one token without its end, which is the last token of all.

## Main definitions

* `Lexed.LacksEnd`: a diagnostic about a last token without its end.

## Main statements

* `exists_faults_eq_append`: the order of the faults among pieces.
* `lex_diagnostics_ordered`: the order of the diagnostics of a source.
-/

namespace PhpOutline

theorem Fault.Spoils.ne_unexpected {fault : Fault} {kind : Kind} (h : fault.Spoils kind)
    (c : Char) : fault ≠ .unexpectedCharacter c := by
  rintro rfl
  exact h

/-- The diagnostic reports that the last token has no end: the token reaches the end of the source,
begins on the line of the diagnostic and is of a kind that the fault is about. -/
def Lexed.LacksEnd (l : Lexed) (source : Text) (d : Diagnostic) : Prop :=
  ∃ t, l.tokens.getLast? = some t ∧ t.stop = source.byteSize ∧ t.line = d.line ∧
    d.fault.Spoils t.kind

/-- Where nothing follows a token without its end, the stray characters are reported first. -/
theorem exists_faults_eq_append {line : Nat} {ps : List Piece}
    (h : ∀ before kind text fault after, ps = before ++ .token kind text (some fault) :: after →
      after = [] ∧ fault.Spoils kind) :
    ∃ strays : List Diagnostic, ∃ last? : Option Diagnostic,
      faults line ps = strays ++ last?.toList ∧
      (∀ d ∈ strays, ∃ c, d.fault = .unexpectedCharacter c) ∧
      ∀ d ∈ last?, ∀ c, d.fault ≠ .unexpectedCharacter c := by
  induction ps generalizing line with
  | nil => exact ⟨[], none, rfl, by simp, by simp⟩
  | cons p ps ih =>
    have hrest : ∀ before kind text fault after,
        ps = before ++ .token kind text (some fault) :: after →
          after = [] ∧ fault.Spoils kind := by
      intro before kind text fault after heq
      exact h (p :: before) kind text fault after (by rw [heq, List.cons_append])
    obtain ⟨strays, last?, hfaults, hstrays, hlast⟩ := @ih (line + p.text.newlines) hrest
    cases p with
    | stray c =>
      refine ⟨⟨.unexpectedCharacter c, line⟩ :: strays, last?, ?_, ?_, hlast⟩
      · rw [faults, hfaults]
        rfl
      · intro d hd
        rcases List.mem_cons.1 hd with rfl | hd
        · exact ⟨c, rfl⟩
        · exact hstrays d hd
    | token kind text fault =>
      cases fault with
      | none => exact ⟨strays, last?, hfaults, hstrays, hlast⟩
      | some fault =>
        -- nothing follows, so that this is the only one
        obtain ⟨rfl, hspoils⟩ := h [] kind text fault ps rfl
        refine ⟨[], some ⟨fault, line⟩, rfl, by simp, ?_⟩
        intro d hd
        obtain rfl := Option.some.inj hd
        exact hspoils.ne_unexpected

/-- The diagnostics of a source are any number of stray characters, and behind them at most one
token without its end, which is the last one. -/
theorem lex_diagnostics_ordered (o : Options) (source : Text) :
    ∃ strays : List Diagnostic, ∃ last? : Option Diagnostic,
      (lex o source).diagnostics = strays ++ last?.toList ∧
      (∀ d ∈ strays, ∃ c, d.fault = .unexpectedCharacter c) ∧
      ∀ d ∈ last?, (lex o source).LacksEnd (unmarked source) d := by
  have hpieces : ∀ before kind text fault after,
      pieces o.shortOpenTags (.initial o) (unmarked source) =
        before ++ .token kind text (some fault) :: after → after = [] ∧ fault.Spoils kind :=
    fun _ _ _ _ _ h => after_eq_nil_of_unterminated h
  obtain ⟨strays, last?, hfaults, hstrays, hlast⟩ := @exists_faults_eq_append 1 _ hpieces
  refine ⟨strays, last?, hfaults, hstrays, ?_⟩
  intro d hd
  have hmem : d ∈ faults 1 (pieces o.shortOpenTags (.initial o) (unmarked source)) := by
    rw [hfaults]
    exact List.mem_append_right strays (Option.mem_toList.2 hd)
  have hnone : d.unexpected? = none := Diagnostic.unexpected?_eq_none (hlast d hd)
  obtain ⟨t, ht, hstop, hspoils, hline⟩ := exists_getLast?_of_mem_faults hmem hnone
  refine ⟨t, ht, hstop, ?_, hspoils⟩
  have htoken : t ∈ (lex o source).tokens := List.mem_of_getLast? ht
  rw [hline, line_of_mem_lex htoken]

example : (lex {} "<?php \x01;\n\x02 $a = 'b".toList).diagnostics =
    [⟨.unexpectedCharacter '\x01', 1⟩, ⟨.unexpectedCharacter '\x02', 2⟩,
      ⟨.unterminatedString, 2⟩] := by
  decide +kernel

end PhpOutline
