import PhpOutline.Proofs.Lexing.Placement

/-!
# Lexemes end inside the text

Every reader says how many of the characters behind the first one belong to a lexeme. It never
claims more of them than there are.

## Main statements

* `Lexeme.claims_read_le`: what is read at a place is a part of the text.
-/

namespace PhpOutline.Lexeme

theorem runLength_le (p : Char → Bool) (s : Text) : runLength p s ≤ s.length :=
  (List.takeWhile_prefix p).length_le

theorem nameTail_le (s : Text) : nameTail s ≤ s.length := by
  induction s with
  | nil => simp [nameTail]
  | cons c s ih =>
    simp only [nameTail, List.length_cons]
    split
    · omega
    split
    · split
      · omega
      split <;> omega
    · omega

theorem numberTail_le (hex : Bool) (prev : Char) (s : Text) :
    numberTail hex prev s ≤ s.length := by
  induction s generalizing prev with
  | nil => simp [numberTail]
  | cons c s ih =>
    have := ih c
    simp only [numberTail, List.length_cons]
    split <;> omega

theorem lineCommentTail_le (s : Text) : lineCommentTail s ≤ s.length := by
  fun_induction lineCommentTail s with
  | case4 c s _ _ ih => simp only [List.length_cons]; omega
  | _ => simp

theorem blockEnd?_le {s : Text} {n : Nat} (h : blockEnd? s = some n) : n ≤ s.length := by
  fun_induction blockEnd? s generalizing n with
  | case1 => simp at h
  | case2 s => simp at h; simp; omega
  | case3 c s _ ih =>
    obtain ⟨m, hm, rfl⟩ := Option.map_eq_some_iff.1 h
    have := ih hm
    simp only [List.length_cons]
    omega

theorem quotedEnd?_le {frames : List Frame} {s : Text} {n : Nat}
    (h : quotedEnd? frames s = some n) : n ≤ s.length := by
  fun_induction quotedEnd? frames s generalizing n
  case case1 => simp at h; omega
  case case2 | case3 | case7 => simp at h
  all_goals
    rename_i ih
    obtain ⟨m, hm, rfl⟩ := Option.map_eq_some_iff.1 h
    have := ih hm
    simp only [List.length_cons]
    omega

theorem length_takeWhile_add_length_dropWhile (p : Char → Bool) (s : Text) :
    runLength p s + (s.dropWhile p).length = s.length := by
  rw [runLength, ← List.length_append, List.takeWhile_append_dropWhile]

theorem closingLine?_le {marker s : Text} {n : Nat} (h : closingLine? marker s = some n) :
    n ≤ s.length := by
  rw [closingLine?] at h
  simp only [Bool.and_eq_true, List.isPrefixOf_iff_prefix] at h
  split at h
  · rename_i hm
    have hlen := hm.1.length_le
    have := length_takeWhile_add_length_dropWhile isIndent s
    simp only [Option.some.injEq] at h
    omega
  · simp at h

theorem heredocEnd?_le {marker : Text} {fresh : Bool} {s : Text} {n : Nat}
    (h : heredocEnd? marker fresh s = some n) : n ≤ s.length := by
  induction s generalizing fresh n with
  | nil => simp [heredocEnd?] at h
  | cons c s ih =>
    rw [heredocEnd?] at h
    split at h
    · rename_i m hm
      cases fresh with
      | false => simp at hm
      | true =>
        have := closingLine?_le hm
        simp only [Option.some.injEq] at h
        omega
    · obtain ⟨m, hm, rfl⟩ := Option.map_eq_some_iff.1 h
      have := ih hm
      simp only [List.length_cons]
      omega

/-! ## The opening line of a heredoc -/

theorem afterLineEnd?_suffix {s body : Text} (h : afterLineEnd? s = some body) : body <:+ s := by
  unfold afterLineEnd? at h
  split at h
  · simp only [Option.some.injEq] at h
    exact h ▸ List.suffix_cons _ _
  · simp only [Option.some.injEq] at h
    exact h ▸ (List.suffix_cons _ _).trans (List.suffix_cons _ _)
  · simp at h

theorem afterQuote?_suffix {quote : Option Char} {s rest : Text}
    (h : afterQuote? quote s = some rest) : rest <:+ s := by
  cases quote with
  | none =>
    simp only [afterQuote?, Option.some.injEq] at h
    exact h ▸ List.suffix_refl s
  | some q =>
    cases s with
    | nil => simp [afterQuote?, Text.stripOne] at h
    | cons c s =>
      simp only [afterQuote?, Text.stripOne] at h
      split at h
      · simp only [Option.some.injEq] at h
        exact h ▸ List.suffix_cons c s
      · simp at h

theorem openingQuote_suffix (s : Text) : (openingQuote s).2 <:+ s := by
  unfold openingQuote
  split
  · exact List.suffix_cons _ _
  · exact List.suffix_cons _ _
  · exact List.suffix_refl _

theorem heredocOpening?_suffix {s marker body : Text}
    (h : heredocOpening? s = some (marker, body)) : body <:+ s := by
  rw [heredocOpening?] at h
  simp only at h
  split at h
  · simp only [Option.bind_eq_bind, Option.bind_eq_some_iff, Option.pure_def, Option.some.injEq,
      Prod.mk.injEq] at h
    obtain ⟨afterMarker, hq, body', hl, -, rfl⟩ := h
    exact (afterLineEnd?_suffix hl).trans ((afterQuote?_suffix hq).trans
      ((List.dropWhile_suffix _).trans ((openingQuote_suffix _).trans (List.dropWhile_suffix _))))
  · simp at h

/-! ## Every reading -/

theorem closeTagTail_le (s : Text) : closeTagTail s ≤ s.length := by
  unfold closeTagTail
  split <;> simp

theorem htmlTail_le (short : Bool) (s : Text) : htmlTail short s ≤ s.length := by
  induction s with
  | nil => simp [htmlTail]
  | cons c s ih =>
    simp only [htmlTail, List.length_cons]
    split <;> omega

theorem longTagSize?_le {s : Text} {n : Nat} (h : longTagSize? s = some n) : n ≤ 5 + s.length := by
  unfold longTagSize? at h
  split at h
  · simp at h; omega
  · simp at h; simp; omega
  · split at h
    · simp at h; simp; omega
    · simp at h

theorem openTag?_le {short : Bool} {s : Text} {n : Nat} (h : openTag? short s = some n) :
    n ≤ s.length := by
  unfold openTag? at h
  split at h
  case h_2 => simp at h
  case h_1 s =>
    simp only [List.length_cons]
    split at h
    · rename_i hw
      have hword : (s.take 3).length = 3 := Text.length_eq_of_sameWord hw
      have htag := longTagSize?_le h
      simp only [List.length_take, List.length_drop] at hword htag
      omega
    · split at h
      · rename_i heq
        cases s with
        | nil => simp at heq
        | cons c s => simp at h; simp; omega
      · split at h
        · simp at h; omega
        · simp at h

theorem sign_le (c : Char) (s : Text) : (sign c s).2 ≤ s.length := by
  rw [sign]
  split
  · rename_i p hp
    have hprefix := List.find?_some hp
    exact (List.isPrefixOf_iff_prefix.1 hprefix).length_le
  · simp

theorem claims_readSign_le (c : Char) (s : Text) : (readSign c s).claims s ≤ s.length := by
  rw [readSign]
  split
  · simp [Reading.claims]
  · exact sign_le c s

theorem claims_readQuoted_le (frame : Frame) (s : Text) :
    (readQuoted frame s).claims s ≤ s.length := by
  rw [readQuoted]
  split
  · rename_i n hn
    exact quotedEnd?_le hn
  · simp [Reading.claims]

theorem claims_readBlockComment_le {s : Text} (hs : s ≠ []) :
    (readBlockComment (s.drop 1)).claims s ≤ s.length := by
  unfold readBlockComment
  simp only
  split
  · rename_i n hn
    have hle := blockEnd?_le hn
    have hpos := List.length_pos_iff.2 hs
    simp only [List.length_drop] at hle
    simp only [Reading.claims]
    omega
  · simp [Reading.claims]

theorem claims_readHeredoc?_le {s : Text} (hs : 2 ≤ s.length) :
    ((readHeredoc? (s.drop 2)).getD (.lexeme .other 0)).claims s ≤ s.length := by
  rw [readHeredoc?]
  cases hopen : heredocOpening? (s.drop 2) with
  | none => simp [Reading.claims]
  | some p =>
    obtain ⟨marker, body⟩ := p
    have hbody := (heredocOpening?_suffix hopen).length_le
    cases hend : heredocEnd? marker true body with
    | none => simp [hend, Reading.claims]
    | some n =>
      have := heredocEnd?_le hend
      simp only [List.length_drop] at hbody
      simp only [hend, Option.map_some, Option.getD_some, Reading.claims, List.length_drop]
      omega

theorem ne_nil_of_startsWith {p : Char → Bool} {s : Text} (h : startsWith p s = true) :
    s ≠ [] := by
  rintro rfl
  simp [startsWith] at h

/-- A lexeme that goes on for `n` characters behind the second one stays inside the text. -/
theorem one_add_le {s : Text} (hs : s ≠ []) {n : Nat} (hn : n ≤ (s.drop 1).length) :
    1 + n ≤ s.length := by
  have := List.length_pos_iff.2 hs
  simp only [List.length_drop] at hn
  omega

theorem claims_readMark_le (a : Bool) (c : Char) (s : Text) :
    (readMark a c s).claims s ≤ s.length := by
  unfold readMark
  split
  case h_1 =>
    split
    · rename_i hs
      exact one_add_le (ne_nil_of_startsWith hs) (closeTagTail_le _)
    · exact claims_readSign_le _ _
  case h_2 =>
    split
    · rename_i hs
      exact List.length_pos_iff.2 (ne_nil_of_startsWith hs)
    · exact lineCommentTail_le _
  case h_3 =>
    split
    · rename_i hs
      exact one_add_le (ne_nil_of_startsWith hs) (lineCommentTail_le _)
    split
    · rename_i hs
      exact claims_readBlockComment_le (ne_nil_of_startsWith hs)
    · exact claims_readSign_le _ _
  case h_4 =>
    split
    · exact runLength_le _ _
    · exact claims_readSign_le _ _
  case h_5 =>
    split
    · exact nameTail_le _
    · exact claims_readSign_le _ _
  case h_6 =>
    split
    · exact numberTail_le _ _ _
    · exact claims_readSign_le _ _
  case h_7 | h_8 | h_9 => exact claims_readQuoted_le _ _
  case h_10 =>
    split
    · rename_i hs
      exact claims_readHeredoc?_le (List.isPrefixOf_iff_prefix.1 hs).length_le
    · exact claims_readSign_le _ _
  case h_11 => exact claims_readSign_le _ _

theorem claims_readCode_le (a : Bool) (c : Char) (s : Text) :
    (readCode a c s).claims s ≤ s.length := by
  rw [readCode]
  split
  · exact runLength_le _ s
  split
  · exact nameTail_le s
  split
  · exact numberTail_le _ _ s
  · exact claims_readMark_le a c s

/-- What is read at a place is a part of the text. -/
theorem claims_read_le (short : Bool) (m : Mode) (c : Char) (s : Text) :
    (read short m c s).claims s ≤ s.length := by
  cases m with
  | html =>
    simp only [read, readHtml]
    split
    · rename_i n hn
      have := openTag?_le hn
      simp only [List.length_cons] at this
      simp only [Reading.claims]
      omega
    · exact htmlTail_le short s
  | code a => exact claims_readCode_le a c s

end PhpOutline.Lexeme
