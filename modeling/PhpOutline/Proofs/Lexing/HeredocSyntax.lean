import PhpOutline.Proofs.Lexing.Runs

/-!
# The syntax of heredocs

A heredoc has an opening line with a marker, some lines, and a line that begins with the marker.
Here the two lines are described as they are written. The reader takes the opening line apart as it
was put together, and finds the first line of the rest that closes the heredoc.

## Main definitions

* `Lexeme.OpensHeredoc`: what opens a heredoc behind its three angle brackets.
* `Lexeme.ClosesHeredoc`: a line that closes a heredoc, and `Lexeme.FirstCloses`, the first one.

## Main statements

* `Lexeme.heredocOpening?_eq_some_iff`: the reader of opening lines.
* `Lexeme.closingLine?_eq_some_iff`: the reader of closing lines.
* `Lexeme.exists_firstCloses`, `Lexeme.not_closesHeredoc`: where the reader of heredocs finds an end
  and where it finds none.
* `Lexeme.heredocEnd?_of_firstCloses`: it ends with the first closing line.
-/

namespace PhpOutline.Lexeme

/-! ## The opening line -/

/-- What opens a heredoc behind its three angle brackets: the marker, which is an identifier, bare
or between equal quotes, with blanks in front of it and directly behind it the end of the line. -/
structure OpeningParts (marker line indent : Text) (quote : Option Char) (lineEnd : Text) :
    Prop where
  line_eq : line = indent ++ (quote.toList ++ (marker ++ (quote.toList ++ lineEnd)))
  isIndent : ∀ c ∈ indent, isIndent c = true
  isQuote : ∀ q ∈ quote, q = '\'' ∨ q = '"'
  isIdentifier : isIdentifier marker = true
  isLineEnd : lineEnd = ['\n'] ∨ lineEnd = ['\r', '\n']

/-- The rest of a heredoc's opening line, with its end. -/
def OpensHeredoc (marker line : Text) : Prop :=
  ∃ indent quote lineEnd, OpeningParts marker line indent quote lineEnd

theorem OpensHeredoc.isIdentifier {marker line : Text} (h : OpensHeredoc marker line) :
    isIdentifier marker = true := by
  obtain ⟨_, _, _, h⟩ := h
  exact h.isIdentifier

theorem afterLineEnd?_eq_some_iff {s body : Text} :
    afterLineEnd? s = some body ↔ s = ['\n'] ++ body ∨ s = ['\r', '\n'] ++ body := by
  constructor
  · intro h
    unfold afterLineEnd? at h
    split at h
    · obtain rfl := Option.some.inj h
      exact .inl rfl
    · obtain rfl := Option.some.inj h
      exact .inr rfl
    · cases h
  · rintro (rfl | rfl) <;> rfl

theorem afterQuote?_eq_some_iff {quote : Option Char} {s rest : Text} :
    afterQuote? quote s = some rest ↔ s = quote.toList ++ rest := by
  cases quote with
  | none => simp [afterQuote?]
  | some q =>
    cases s with
    | nil => simp [afterQuote?, Text.stripOne]
    | cons c s => by_cases hc : c = q <;> simp [afterQuote?, Text.stripOne, hc]

theorem openingQuote_eq {s rest : Text} {quote : Option Char}
    (h : openingQuote s = (quote, rest)) :
    s = quote.toList ++ rest ∧ ∀ q ∈ quote, q = '\'' ∨ q = '"' := by
  unfold openingQuote at h
  split at h <;> cases h <;> simp

/-- In front of a marker, the quote is found if there is one. -/
theorem openingQuote_append {quote : Option Char} (hquote : ∀ q ∈ quote, q = '\'' ∨ q = '"')
    {marker : Text} (hmarker : isIdentifier marker = true) (rest : Text) :
    openingQuote (quote.toList ++ (marker ++ rest)) = (quote, marker ++ rest) := by
  cases quote with
  | some q => rcases hquote q rfl with rfl | rfl <;> rfl
  | none =>
    obtain ⟨c, r, rfl, hc, -⟩ := exists_cons_of_isIdentifier hmarker
    have hsingle : c ≠ '\'' := by rintro rfl; cases hc
    have hdouble : c ≠ '"' := by rintro rfl; cases hc
    simp [openingQuote, hsingle, hdouble]

theorem OpeningParts.dropWhile_isIndent {marker line indent lineEnd : Text}
    {quote : Option Char} (h : OpeningParts marker line indent quote lineEnd) (body : Text) :
    (line ++ body).dropWhile Lexeme.isIndent =
      quote.toList ++ (marker ++ (quote.toList ++ (lineEnd ++ body))) := by
  have hstop : startsWith Lexeme.isIndent
      (quote.toList ++ (marker ++ (quote.toList ++ (lineEnd ++ body)))) = false := by
    cases quote with
    | some q => rcases h.isQuote q rfl with rfl | rfl <;> rfl
    | none =>
      exact startsWith_append_of_isIdentifier (fun _ => isIndent_of_isIdentStart) h.isIdentifier _
  rw [h.line_eq]
  simpa using dropWhile_run h.isIndent hstop

/-- The reader of opening lines finds what was written. -/
theorem OpeningParts.heredocOpening? {marker line indent lineEnd : Text} {quote : Option Char}
    (h : OpeningParts marker line indent quote lineEnd) (body : Text) :
    heredocOpening? (line ++ body) = some (marker, body) := by
  have hstop : startsWith isIdentChar (quote.toList ++ (lineEnd ++ body)) = false := by
    cases quote with
    | some q => rcases h.isQuote q rfl with rfl | rfl <;> rfl
    | none => rcases h.isLineEnd with rfl | rfl <;> rfl
  have hmarker := dropWhile_run (fun _ => isIdentChar_of_mem h.isIdentifier) hstop
  have hquote : afterQuote? quote (quote.toList ++ (lineEnd ++ body)) = some (lineEnd ++ body) :=
    afterQuote?_eq_some_iff.2 rfl
  have hline : afterLineEnd? (lineEnd ++ body) = some body := by
    rw [afterLineEnd?_eq_some_iff]
    exact h.isLineEnd.imp (congrArg (· ++ body)) (congrArg (· ++ body))
  rw [Lexeme.heredocOpening?, h.dropWhile_isIndent, openingQuote_append h.isQuote h.isIdentifier]
  simp only [startsWith_isIdentStart_append h.isIdentifier, if_true, hmarker, hquote, hline,
    identAt_append h.isIdentifier hstop, Option.bind_eq_bind, Option.bind_some, Option.pure_def]

/-- The reader of opening lines takes apart what is one, and nothing else. -/
theorem heredocOpening?_eq_some_iff {s marker body : Text} :
    heredocOpening? s = some (marker, body) ↔
      ∃ line, s = line ++ body ∧ OpensHeredoc marker line := by
  constructor
  · intro h
    rw [heredocOpening?] at h
    obtain ⟨⟨quote, rest⟩, hquote⟩ : ∃ p, openingQuote (s.dropWhile isIndent) = p := ⟨_, rfl⟩
    simp only [hquote] at h
    split at h
    · rename_i hstart
      simp only [Option.bind_eq_bind, Option.bind_eq_some_iff, Option.pure_def, Option.some.injEq,
        Prod.mk.injEq] at h
      obtain ⟨afterMarker, hafter, body', hline, rfl, rfl⟩ := h
      obtain ⟨hdrop, hisQuote⟩ := openingQuote_eq hquote
      rw [afterQuote?_eq_some_iff] at hafter
      have hrest : rest = identAt rest ++ (quote.toList ++ afterMarker) := by
        rw [← hafter, identAt, List.takeWhile_append_dropWhile]
      obtain ⟨lineEnd, hlineEnd, hisLineEnd⟩ : ∃ lineEnd, afterMarker = lineEnd ++ body' ∧
          (lineEnd = ['\n'] ∨ lineEnd = ['\r', '\n']) := by
        rcases afterLineEnd?_eq_some_iff.1 hline with h | h
        · exact ⟨_, h, .inl rfl⟩
        · exact ⟨_, h, .inr rfl⟩
      refine ⟨_, ?_, s.takeWhile isIndent, quote, lineEnd, rfl,
        List.all_eq_true.1 List.all_takeWhile, hisQuote, isIdentifier_identAt hstart, hisLineEnd⟩
      calc s = s.takeWhile isIndent ++ (quote.toList ++ rest) := by
            rw [← hdrop, List.takeWhile_append_dropWhile]
        _ = s.takeWhile isIndent ++ (quote.toList ++ (identAt rest ++ (quote.toList ++
              (lineEnd ++ body')))) := by rw [← hlineEnd, ← hrest]
        _ = _ := by simp only [List.append_assoc]
    · cases h
  · rintro ⟨line, rfl, indent, quote, lineEnd, h⟩
    exact h.heredocOpening? body

/-! ## Closing lines -/

/-- The body of a heredoc has, behind the full lines `lines`, a line that closes it: after some
blanks it begins with the marker, and no byte of an identifier follows. -/
structure ClosesHeredoc (marker body lines indent behind : Text) : Prop where
  body_eq : body = lines ++ (indent ++ (marker ++ behind))
  fullLines : lines = [] ∨ lines.getLast? = some '\n'
  isIndent : ∀ c ∈ indent, isIndent c = true
  ends : behind.bytes.head?.any isIdentByte = false

/-- That line is the first one to close the heredoc. -/
structure FirstCloses (marker body lines indent behind : Text) : Prop where
  closes : ClosesHeredoc marker body lines indent behind
  first : ∀ lines' indent' behind', ClosesHeredoc marker body lines' indent' behind' →
    lines.length ≤ lines'.length

theorem closingLine?_eq_some_iff {marker s : Text} (hmarker : isIdentifier marker = true)
    {n : Nat} :
    closingLine? marker s = some n ↔ ∃ indent behind, s = indent ++ (marker ++ behind) ∧
      (∀ c ∈ indent, isIndent c = true) ∧ startsWith isIdentChar behind = false ∧
      n = indent.length + marker.length := by
  constructor
  · intro h
    rw [closingLine?] at h
    simp only [Bool.and_eq_true, List.isPrefixOf_iff_prefix, Bool.not_eq_true'] at h
    split at h
    · rename_i hline
      obtain ⟨⟨behind, hbehind⟩, hends⟩ := hline
      rw [← hbehind, List.drop_left] at hends
      refine ⟨s.takeWhile isIndent, behind, ?_, List.all_eq_true.1 List.all_takeWhile, hends,
        (Option.some.inj h).symm⟩
      rw [hbehind, List.takeWhile_append_dropWhile]
    · cases h
  · rintro ⟨indent, behind, rfl, hindent, hends, rfl⟩
    have hstop : startsWith isIndent (marker ++ behind) = false :=
      startsWith_append_of_isIdentifier (fun _ => isIndent_of_isIdentStart) hmarker behind
    rw [closingLine?, dropWhile_run hindent hstop, runLength, takeWhile_run hindent hstop,
      List.drop_left]
    simp [hends]

/-- Whether a line begins behind a part of a text, given whether one begins in front of it. -/
def beginsLine (fresh : Bool) (part : Text) : Bool := (part.getLast?.map (· == '\n')).getD fresh

theorem beginsLine_cons (fresh : Bool) (c : Char) (part : Text) :
    beginsLine fresh (c :: part) = beginsLine (c == '\n') part := by
  rw [beginsLine, beginsLine, List.getLast?_cons]
  cases part.getLast? <;> rfl

theorem beginsLine_true {part : Text} :
    beginsLine true part = true ↔ part = [] ∨ part.getLast? = some '\n' := by
  cases h : part.getLast? with
  | none =>
    obtain rfl := List.getLast?_eq_none_iff.1 h
    simp [beginsLine]
  | some c =>
    have hne : part ≠ [] := by
      rintro rfl
      cases h
    simp [beginsLine, h, hne]

section Ends

variable {marker : Text}

/-- What the reader of heredocs does at one character. -/
theorem heredocEnd?_cons (marker : Text) (fresh : Bool) (c : Char) (s : Text) :
    heredocEnd? marker fresh (c :: s) =
      if fresh = true ∧ (closingLine? marker (c :: s)).isSome then closingLine? marker (c :: s)
      else (heredocEnd? marker (c == '\n') s).map (· + 1) := by
  rw [heredocEnd?]
  cases fresh with
  | false => simp
  | true => cases h : closingLine? marker (c :: s) <;> simp

/-- Where the reader finds no end, no line closes the heredoc. -/
theorem closingLine?_eq_none_of_heredocEnd? (hmarker : marker ≠ []) {fresh : Bool} {s : Text}
    (h : heredocEnd? marker fresh s = none) {part rest : Text} (hs : s = part ++ rest)
    (hpart : beginsLine fresh part = true) : closingLine? marker rest = none := by
  induction s generalizing fresh part with
  | nil =>
    obtain ⟨rfl, rfl⟩ := List.append_eq_nil_iff.1 hs.symm
    simp [closingLine?, hmarker]
  | cons c s ih =>
    rw [heredocEnd?_cons] at h
    split at h
    · rename_i hfound
      rw [h] at hfound
      cases hfound.2
    · rename_i hnot
      cases part with
      | nil =>
        rw [List.nil_append] at hs
        have hfresh : fresh = true := hpart
        subst hs
        simpa [hfresh] using hnot
      | cons d part =>
        rw [List.cons_append, List.cons.injEq] at hs
        obtain ⟨rfl, hs⟩ := hs
        rw [beginsLine_cons] at hpart
        exact ih (by simpa using h) hs hpart

/-- Where it finds one, that is the end of the first closing line. -/
theorem exists_part_of_heredocEnd? {fresh : Bool} {s : Text} {n : Nat}
    (h : heredocEnd? marker fresh s = some n) :
    ∃ part rest m, s = part ++ rest ∧ beginsLine fresh part = true ∧
      closingLine? marker rest = some m ∧ n = part.length + m ∧
      ∀ part' rest', s = part' ++ rest' → beginsLine fresh part' = true →
        (closingLine? marker rest').isSome → part.length ≤ part'.length := by
  induction s generalizing fresh n with
  | nil => cases h
  | cons c s ih =>
    rw [heredocEnd?_cons] at h
    split at h
    · rename_i hfound
      refine ⟨[], c :: s, n, rfl, hfound.1, h, by simp, ?_⟩
      intro part' _ _ _ _
      exact Nat.zero_le _
    · rename_i hnot
      obtain ⟨m, hm, rfl⟩ := Option.map_eq_some_iff.1 h
      obtain ⟨part, rest, k, rfl, hpart, hclose, rfl, hfirst⟩ := ih hm
      refine ⟨c :: part, rest, k, rfl, by rwa [beginsLine_cons], hclose, ?_, ?_⟩
      · rw [List.length_cons]
        omega
      · intro part' rest' hs hpart' hclose'
        cases part' with
        | nil =>
          -- the line at the head of the text was looked at already
          rw [List.nil_append] at hs
          subst hs
          exact absurd ⟨hpart', hclose'⟩ hnot
        | cons d part' =>
          rw [List.cons_append, List.cons.injEq] at hs
          obtain ⟨rfl, hs⟩ := hs
          rw [beginsLine_cons] at hpart'
          exact Nat.succ_le_succ (hfirst part' rest' hs hpart' hclose')

variable {body : Text} (hmarker : isIdentifier marker = true)

include hmarker

theorem ne_nil_of_isIdentifier : marker ≠ [] := by
  rintro rfl
  cases hmarker

theorem ClosesHeredoc.closingLine? {lines indent behind : Text}
    (h : ClosesHeredoc marker body lines indent behind) :
    Lexeme.closingLine? marker (indent ++ (marker ++ behind)) =
      some (indent.length + marker.length) := by
  rw [closingLine?_eq_some_iff hmarker]
  exact ⟨indent, behind, rfl, h.isIndent, by rw [startsWith_isIdentChar]; exact h.ends, rfl⟩

/-- A line closes a heredoc as the first one when the reader of closing lines finds none at the
places in front of it. -/
theorem ClosesHeredoc.firstCloses {lines indent behind : Text}
    (h : ClosesHeredoc marker body lines indent behind)
    (hnone : ∀ n < lines.length, beginsLine true (body.take n) = true →
      Lexeme.closingLine? marker (body.drop n) = none) :
    FirstCloses marker body lines indent behind := by
  refine ⟨h, fun lines' indent' behind' h' => ?_⟩
  by_contra hlt
  have hfound := h'.closingLine? hmarker
  have hnot := hnone lines'.length (by omega)
  rw [h'.body_eq, List.take_left, List.drop_left] at hnot
  rw [hnot (beginsLine_true.2 h'.fullLines)] at hfound
  cases hfound

/-- Where the reader finds no end, no line closes the heredoc. -/
theorem not_closesHeredoc (h : heredocEnd? marker true body = none) (lines indent behind : Text) :
    ¬ ClosesHeredoc marker body lines indent behind := by
  intro hcloses
  have hnone := closingLine?_eq_none_of_heredocEnd? (ne_nil_of_isIdentifier hmarker) h
    hcloses.body_eq (beginsLine_true.2 hcloses.fullLines)
  rw [hcloses.closingLine? hmarker] at hnone
  cases hnone

/-- Where it finds one, that is the end of the marker on the first closing line. -/
theorem exists_firstCloses {n : Nat} (h : heredocEnd? marker true body = some n) :
    ∃ lines indent behind, FirstCloses marker body lines indent behind ∧
      n = (lines ++ (indent ++ marker)).length := by
  obtain ⟨lines, rest, m, rfl, hlines, hclose, rfl, hfirst⟩ := exists_part_of_heredocEnd? h
  obtain ⟨indent, behind, rfl, hindent, hends, rfl⟩ := (closingLine?_eq_some_iff hmarker).1 hclose
  rw [startsWith_isIdentChar] at hends
  refine ⟨lines, indent, behind, ⟨⟨rfl, beginsLine_true.1 hlines, hindent, hends⟩, ?_⟩, by simp⟩
  intro lines' indent' behind' h'
  refine hfirst lines' _ h'.body_eq (beginsLine_true.2 h'.fullLines) ?_
  rw [h'.closingLine? hmarker]
  rfl

/-- A heredoc ends with the marker on the first line that closes it. -/
theorem heredocEnd?_of_firstCloses {lines indent behind : Text}
    (h : FirstCloses marker body lines indent behind) :
    heredocEnd? marker true body = some (lines ++ (indent ++ marker)).length := by
  cases hend : heredocEnd? marker true body with
  | none => exact absurd h.closes (not_closesHeredoc hmarker hend lines indent behind)
  | some n =>
    obtain ⟨lines', indent', behind', h', rfl⟩ := exists_firstCloses hmarker hend
    -- two first lines are the same, and a line closes a heredoc at one place only
    have hlength : lines.length = lines'.length :=
      Nat.le_antisymm (h.first _ _ _ h'.closes) (h'.first _ _ _ h.closes)
    have hsplit := h.closes.body_eq
    rw [h'.closes.body_eq] at hsplit
    obtain ⟨-, hrest⟩ := List.append_inj hsplit hlength.symm
    have hline := h'.closes.closingLine? hmarker
    rw [hrest, h.closes.closingLine? hmarker] at hline
    have hsame := Option.some.inj hline
    simp only [List.length_append]
    rw [hlength, hsame]

end Ends

end PhpOutline.Lexeme
