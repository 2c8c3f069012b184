import PhpOutline.Proofs.Lexing.Lossless

/-!
# Lines are exact

Lines are counted along the pieces of a source, from the text of each piece that is finished. The
count is the one that the source itself gives: a token or a diagnostic stands on the line that the
line ends before its first byte determine.

## Main definitions

* `Text.lineAt`: the line of a byte of a source.
* `Fault.Spoils`: the kinds of tokens that a fault is about.
* `Lexed.LinesExact`: what it means that all lines are exact.

## Main statements

* `after_eq_nil_of_unterminated`: a token without its end is the last piece of a source.
* `lex_linesExact`: the lines of tokens and diagnostics are exact, and never decrease.
-/

namespace PhpOutline

/-! ## Line ends among bytes -/

namespace Text

/-- The byte that ends a line. -/
def newlineByte : UInt8 := 0x0A

/-- The line, from one, of the byte at place `i`. -/
def lineAt (s : Text) (i : Nat) : Nat := 1 + (s.bytes.take i).count newlineByte

/-- Only the line end itself has its byte; every byte of a character beyond ASCII is higher. -/
theorem newlineByte_notMem {c : Char} (h : c ≠ '\n') : newlineByte ∉ String.utf8EncodeChar c := by
  intro hmem
  rcases Nat.lt_or_ge c.toNat 128 with hc | hc
  · rw [utf8EncodeChar_of_lt hc, List.mem_singleton] at hmem
    exact h ((toUInt8_inj hc (by decide)).1 hmem.symm)
  · have := le_of_mem_utf8EncodeChar hc hmem
    exact absurd this (by decide)

/-- Lines can be counted in bytes as well as in characters. -/
theorem count_newlineByte (s : Text) : s.bytes.count newlineByte = s.newlines := by
  induction s with
  | nil => rfl
  | cons c s ih =>
    rw [bytes_cons, List.count_append, ih, newlines, newlines, List.count_cons]
    by_cases hc : c = '\n'
    · subst hc
      have : (String.utf8EncodeChar '\n').count newlineByte = 1 := by decide
      simp [this, Nat.add_comm]
    · simp [List.count_eq_zero.2 (newlineByte_notMem hc), hc]

/-- Behind a leading part of a text, its line ends have been counted. -/
theorem lineAt_byteSize (a b : Text) : (a ++ b).lineAt a.byteSize = 1 + a.newlines := by
  rw [lineAt, bytes_append, ← length_bytes, List.take_left, count_newlineByte]

theorem lineAt_mono (s : Text) {i j : Nat} (h : i ≤ j) : s.lineAt i ≤ s.lineAt j := by
  have := (List.take_sublist_take_left h : (s.bytes.take i).Sublist (s.bytes.take j))
  have := this.count_le newlineByte
  simp only [lineAt]
  omega

end Text

/-! ## Tokens without their end -/

/-- A fault is about tokens of one kind: strings and heredocs are strings, and a block comment may
be a doc comment. A stray character is no token. -/
def Fault.Spoils : Fault → Kind → Prop
  | unterminatedString, kind => kind = .string
  | unterminatedHeredoc _, kind => kind = .string
  | unterminatedComment, kind => kind = .comment ∨ kind = .docComment
  | unexpectedCharacter _, _ => False

/-- A reading without its end names a fault of its kind. -/
def Reading.NamesFault : Reading → Prop
  | unterminated kind fault => fault.Spoils kind
  | _ => True

namespace Lexeme

theorem namesFault_readSign (c : Char) (s : Text) : (readSign c s).NamesFault := by
  rw [readSign]
  split <;> trivial

theorem namesFault_readBlockComment (s : Text) : (readBlockComment s).NamesFault := by
  rw [readBlockComment]
  cases blockEnd? s with
  | some n => trivial
  | none =>
    by_cases h : isDocOpening s = true
    · simp [h, Reading.NamesFault, Fault.Spoils]
    · simp [h, Reading.NamesFault, Fault.Spoils]

theorem namesFault_readQuoted (frame : Frame) (s : Text) : (readQuoted frame s).NamesFault := by
  rw [readQuoted]
  cases quotedEnd? [frame] s with
  | some n => trivial
  | none => rfl

theorem namesFault_readHeredoc? (s : Text) :
    ((readHeredoc? s).getD (.lexeme .other 0)).NamesFault := by
  rw [readHeredoc?]
  rcases heredocOpening? s with _ | ⟨marker, body⟩
  · trivial
  · cases h : heredocEnd? marker true body <;> simp [h, Reading.NamesFault, Fault.Spoils]

theorem namesFault_readMark (a : Bool) (c : Char) (s : Text) : (readMark a c s).NamesFault := by
  unfold readMark
  split
  case h_2 => split <;> trivial
  case h_3 =>
    split
    · trivial
    split
    · exact namesFault_readBlockComment _
    · exact namesFault_readSign _ _
  case h_7 | h_8 | h_9 => exact namesFault_readQuoted _ _
  case h_10 =>
    split
    · exact namesFault_readHeredoc? _
    · exact namesFault_readSign _ _
  case h_11 => exact namesFault_readSign _ _
  all_goals
    split
    · trivial
    · exact namesFault_readSign _ _

theorem namesFault_read (short : Bool) (m : Mode) (c : Char) (s : Text) :
    (read short m c s).NamesFault := by
  cases m with
  | html =>
    simp only [read, readHtml]
    split <;> trivial
  | code a =>
    simp only [read, readCode]
    split
    · trivial
    split
    · trivial
    split
    · trivial
    · exact namesFault_readMark a c s

end Lexeme

/-- A token without its end takes the rest of the source, so that it is the last piece, and its
fault is one of its kind. -/
theorem after_eq_nil_of_unterminated {short : Bool} {m : Mode} {s : Text}
    {before after : List Piece} {kind : Kind} {text : Text} {fault : Fault}
    (h : pieces short m s = before ++ .token kind text (some fault) :: after) :
    after = [] ∧ fault.Spoils kind := by
  induction m, s using pieces_induction short generalizing before with
  | nil m => simp at h
  | cons m c s ih =>
    rw [pieces_cons] at h
    cases before with
    | nil =>
      have hspoils := Lexeme.namesFault_read short m c s
      rw [List.nil_append, List.cons.injEq] at h
      cases hr : Lexeme.read short m c s with
      | unterminated kind' fault' =>
        rw [hr] at h hspoils
        have hpiece := Piece.token.inj h.1
        constructor
        · rw [← h.2, Reading.claims, List.drop_length, pieces_nil]
        · rw [← hpiece.1, ← Option.some.inj hpiece.2.2]
          exact hspoils
      | lexeme kind' n => simp [hr, Reading.piece] at h
      | stray => simp [hr, Reading.piece] at h
    | cons p before =>
      rw [List.cons_append, List.cons.injEq] at h
      exact ih h.2

/-! ## Lines of tokens and diagnostics -/

/-- A token stands on the line that the text before it determines. -/
theorem line_of_mem_placed {ps : List Piece} {pre : Text} {t : Token}
    (h : t ∈ placed (1 + pre.newlines) pre.byteSize ps) :
    t.line = (pre ++ textOf ps).lineAt t.offset := by
  induction ps generalizing pre with
  | nil => simp [placed] at h
  | cons p ps ih =>
    rw [textOf_cons, ← List.append_assoc]
    cases p with
    | token kind text fault =>
      rw [placed, List.mem_cons] at h
      rcases h with rfl | h
      · rw [List.append_assoc, Text.lineAt_byteSize]
      · rw [Nat.add_assoc, ← Text.newlines_append, ← Text.byteSize_append] at h
        exact ih h
    | stray c =>
      rw [placed, Nat.add_assoc, ← Text.newlines_append] at h
      have hsize : pre.byteSize + c.utf8Size = (pre ++ [c]).byteSize := by simp
      rw [hsize] at h
      exact ih h

/-- The characters that are left out, each with the line that a diagnostic gives it. -/
def Diagnostic.unexpectedLine? (d : Diagnostic) : Option (Char × Nat) :=
  d.unexpected?.map fun c => (c, d.line)

/-- A character that is left out is reported on the line that the text before it determines. -/
theorem filterMap_unexpectedLine?_faults {ps : List Piece} {pre : Text}
    (hp : ∀ kind text fault, .token kind text (some fault) ∈ ps →
      ∀ c, fault ≠ .unexpectedCharacter c) :
    (faults (1 + pre.newlines) ps).filterMap Diagnostic.unexpectedLine? =
      (strayPlaces pre.byteSize ps).map fun p => (p.1, (pre ++ textOf ps).lineAt p.2) := by
  induction ps generalizing pre with
  | nil => rfl
  | cons p ps ih =>
    have hps : ∀ kind text fault, .token kind text (some fault) ∈ ps →
        ∀ c, fault ≠ .unexpectedCharacter c := by
      intro kind text fault h
      exact hp kind text fault (by simp [h])
    have hrest := @ih (pre ++ p.text) hps
    rw [Text.newlines_append, ← Nat.add_assoc] at hrest
    rw [faults, List.filterMap_append, hrest, textOf_cons, ← List.append_assoc,
      Text.byteSize_append]
    cases p with
    | stray c =>
      have hline : (pre ++ c :: textOf ps).lineAt pre.byteSize = 1 + pre.newlines :=
        Text.lineAt_byteSize pre (c :: textOf ps)
      simp [Piece.fault?, Piece.text, strayPlaces, Diagnostic.unexpectedLine?,
        Diagnostic.unexpected?, hline]
    | token kind text fault =>
      have hfault : ∀ f, fault = some f → ∀ c, f ≠ .unexpectedCharacter c := by
        rintro f rfl
        exact hp kind text f List.mem_cons_self
      have hnone : ∀ d ∈ (Piece.token kind text fault).fault?.toList.map
          (Diagnostic.mk · (1 + pre.newlines)), d.unexpectedLine? = none := by
        intro d hd
        rw [Diagnostic.unexpectedLine?, Piece.unexpected?_eq_none hfault hd]
        rfl
      rw [List.filterMap_eq_nil_iff.2 hnone]
      rfl

/-- A diagnostic comes from a piece, and stands on the line on which the piece begins. -/
theorem mem_faults {line : Nat} {ps : List Piece} {d : Diagnostic} (h : d ∈ faults line ps) :
    ∃ before p after, ps = before ++ p :: after ∧ p.fault? = some d.fault ∧
      d.line = line + (textOf before).newlines := by
  induction ps generalizing line with
  | nil => simp [faults] at h
  | cons p ps ih =>
    rw [faults, List.mem_append] at h
    rcases h with h | h
    · obtain ⟨fault, hfault, rfl⟩ := List.mem_map.1 h
      exact ⟨[], p, ps, rfl, by simpa using hfault, rfl⟩
    · obtain ⟨before, q, after, rfl, hq, hline⟩ := ih h
      exact ⟨p :: before, q, after, rfl, hq, by simp [hline, Nat.add_assoc]⟩

theorem pairwise_line_faults (line : Nat) (ps : List Piece) :
    (faults line ps).Pairwise fun d e => d.line ≤ e.line := by
  induction ps generalizing line with
  | nil => simp [faults]
  | cons p ps ih =>
    have hfirst : ∀ d ∈ p.fault?.toList.map (Diagnostic.mk · line), d.line = line := by
      intro d hd
      obtain ⟨fault, -, rfl⟩ := List.mem_map.1 hd
      rfl
    rw [faults, List.pairwise_append]
    refine ⟨?_, ih _, ?_⟩
    · cases p.fault? <;> simp
    · intro d hd e he
      obtain ⟨before, q, after, -, -, hline⟩ := mem_faults he
      have := hfirst d hd
      omega

/-- A fault other than a stray character is that of the last token, which reaches the end of the
source, and is reported on the line of its first byte. -/
theorem exists_getLast?_of_mem_faults {short : Bool} {m : Mode} {s : Text} {d : Diagnostic}
    (h : d ∈ faults 1 (pieces short m s)) (hd : d.unexpected? = none) :
    ∃ t, (placed 1 0 (pieces short m s)).getLast? = some t ∧ t.stop = s.byteSize ∧
      d.fault.Spoils t.kind ∧ d.line = s.lineAt t.offset := by
  obtain ⟨before, p, after, hps, hfault, hline⟩ := mem_faults h
  cases p with
  | stray c =>
    have hc : d.fault = .unexpectedCharacter c := (Option.some.inj hfault).symm
    simp [Diagnostic.unexpected?, hc] at hd
  | token kind text fault =>
    have hf : fault = some d.fault := hfault
    rw [hf] at hps
    obtain ⟨rfl, hspoils⟩ := after_eq_nil_of_unterminated hps
    have hs : s = textOf before ++ text := by
      rw [← textOf_pieces short m s, hps]
      simp [Piece.text]
    rw [hps, placed_append, Nat.zero_add]
    refine ⟨⟨kind, text, 1 + (textOf before).newlines, (textOf before).byteSize⟩, ?_, ?_, hspoils,
      ?_⟩
    · simp [placed]
    · rw [hs, Text.byteSize_append]
      rfl
    · rw [hs, Text.lineAt_byteSize]
      exact hline

/-! ## The whole source -/

/-- The lines of tokens and diagnostics are those that the source gives. -/
structure Lexed.LinesExact (source : Text) (l : Lexed) : Prop where
  /-- A token stands on the line of its first byte. -/
  token : ∀ t ∈ l.tokens, t.line = source.lineAt t.offset
  /-- The bytes that lie in no token are reported in order, each on its own line. -/
  unexpected : l.diagnostics.filterMap Diagnostic.unexpectedLine? =
    (uncoveredIn l.tokens 0 source.bytes).map fun p => (Char.ofNat p.1.toNat, source.lineAt p.2)
  /-- A token without its end is the last one, runs to the end of the source, and is reported on
  the line of its first byte. -/
  unterminated : ∀ d ∈ l.diagnostics, d.unexpected? = none →
    ∃ t, l.tokens.getLast? = some t ∧ t.stop = source.byteSize ∧ d.fault.Spoils t.kind ∧
      d.line = source.lineAt t.offset
  /-- Lines never decrease from token to token. -/
  tokens_le : l.tokens.Pairwise fun t u => t.line ≤ u.line
  /-- Lines never decrease from diagnostic to diagnostic. -/
  diagnostics_le : l.diagnostics.Pairwise fun d e => d.line ≤ e.line

theorem pairwise_line_placed {line offset : Nat} {ps : List Piece} {s : Text}
    (hp : ∀ p ∈ ps, p.text ≠ [])
    (hline : ∀ t ∈ placed line offset ps, t.line = s.lineAt t.offset) :
    (placed line offset ps).Pairwise fun t u => t.line ≤ u.line := by
  have hordered : (placed line offset ps).Pairwise fun t u => t.offset < u.offset ∧
      t.stop ≤ u.offset := pairwise_placed hp
  refine hordered.imp_of_mem ?_
  intro t u ht hu hlt
  rw [hline t ht, hline u hu]
  exact Text.lineAt_mono s (Nat.le_of_lt hlt.1)

theorem line_of_mem_lex {o : Options} {source : Text} {t : Token}
    (ht : t ∈ (lex o source).tokens) : t.line = (unmarked source).lineAt t.offset := by
  have h := @line_of_mem_placed _ [] t ht
  rwa [textOf_pieces] at h

theorem pairwise_line_lex (o : Options) (source : Text) :
    (lex o source).tokens.Pairwise fun t u => t.line ≤ u.line :=
  pairwise_line_placed (fun _ hp => text_ne_nil_of_mem_pieces hp) fun _ ht => line_of_mem_lex ht

/-- Every token and every diagnostic of a source stands on its line. -/
theorem lex_linesExact (o : Options) (source : Text) :
    (lex o source).LinesExact (unmarked source) := by
  have hstray : ∀ c, .stray c ∈ pieces o.shortOpenTags (.initial o) (unmarked source) →
      Lexeme.isControl c = true := by
    intro c hc
    exact isControl_of_stray_mem hc
  constructor
  case token =>
    intro t ht
    exact line_of_mem_lex ht
  case unexpected =>
    have hplaces := uncoveredIn_placed 1 0 hstray
    have hfaults := @filterMap_unexpectedLine?_faults
      (pieces o.shortOpenTags (.initial o) (unmarked source)) []
      fun _ _ _ h => fault_ne_unexpected h
    rw [textOf_pieces] at hplaces hfaults
    rw [lex, hplaces, List.map_map]
    refine hfaults.trans (List.map_congr_left ?_)
    intro p hp
    -- a control character is found again from its byte
    have hmem : p.1 ∈ strays (pieces o.shortOpenTags (.initial o) (unmarked source)) := by
      rw [← map_fst_strayPlaces 0]
      exact List.mem_map_of_mem hp
    have hcontrol := (isControlByte_toUInt8 (isControl_of_mem_strays hmem)).2
    simp only [Function.comp_apply, hcontrol, List.nil_append]
  case unterminated =>
    intro d hd hnone
    exact exists_getLast?_of_mem_faults hd hnone
  case tokens_le => exact pairwise_line_lex o source
  case diagnostics_le => exact pairwise_line_faults 1 _

end PhpOutline
