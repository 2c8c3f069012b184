import PhpOutline.Proofs.Lexing.Continuation
import PhpOutline.Proofs.TokenTable.Parts

/-!
# A line end behind a text

A text that is cut without faults and ends in code is cut in the same way when a line end follows
it: the line end is a token of its own, or it joins the white space or the opening tag in front of
it. Behind a closing tag and outside the tags this is different, and so it is where the line end
opens a heredoc that nothing closes.

## Main statements

* `Lexeme.readCode_newline`, `Lexeme.readHtml_newline`: what stands at a place when a line end
  follows the text.
* `pieces_newline`: the pieces of a text that a line end follows.
-/

namespace PhpOutline

/-- What stands at a place when a line end follows the text `s`: the same, or an insignificant token
that reached the end of the text and takes the line end with it. -/
def Reading.Joined (s : Text) (r r' : Reading) : Prop :=
  r' = r ∨ ∃ kind, kind.isInsignificant = true ∧ r = .lexeme kind s.length ∧
    r' = .lexeme kind (s.length + 1)

namespace Lexeme

/-! ## Words, comments and signs -/

theorem joined_runLength (s : Text) :
    (Reading.lexeme .whitespace (runLength isSpace s)).Joined s
      (.lexeme .whitespace (runLength isSpace (s ++ ['\n']))) := by
  by_cases hs : (s.takeWhile isSpace).length = s.length
  · right
    refine ⟨.whitespace, rfl, by rw [runLength, hs], ?_⟩
    rw [runLength, List.takeWhile_append, if_pos hs, List.length_append]
    rfl
  · left
    rw [runLength, runLength, List.takeWhile_append, if_neg hs]

theorem enumFollows_newline (s : Text) : enumFollows (s ++ ['\n']) = enumFollows s := by
  have hnil : ∀ s : Text, s.dropWhile isGap = [] → enumFollows s = false := by
    intro s hs
    simp [enumFollows, hs, startsWith]
  by_cases hs : s.dropWhile isGap = []
  · have hs' : (s ++ ['\n']).dropWhile isGap = [] := by
      rw [List.dropWhile_append, hs]
      rfl
    rw [hnil _ hs, hnil _ hs']
  · have hdrop : (s ++ ['\n']).dropWhile isGap = s.dropWhile isGap ++ ['\n'] := by
      rw [List.dropWhile_append, if_neg (by simpa using hs)]
    have hhead : startsWith isGap (s ++ ['\n']) = startsWith isGap s := by
      cases s with
      | nil => simp at hs
      | cons c s => rfl
    simp only [enumFollows, identAt, hdrop, hhead,
      @startsWith_append_cons isIdentStart '\n' rfl, @takeWhile_append_cons isIdentChar '\n' rfl]

theorem readName_newline (a : Bool) (c : Char) (s : Text) :
    readName a c (s ++ ['\n']) = readName a c s := by
  have hle := nameTail_le s
  simp only [readName, @nameTail_append_cons '\n' rfl (by decide) (by decide)]
  rw [List.take_append_of_le_length hle, List.drop_append_of_le_length hle,
    wordKind_congr (enumFollows_newline _)]

theorem lineCommentTail_newline (s : Text) :
    lineCommentTail (s ++ ['\n']) = lineCommentTail s := by
  fun_induction lineCommentTail s with
  | case1 => rfl
  | case2 s => simp [lineCommentTail]
  | case3 s => simp [lineCommentTail]
  | case4 c s hn hc ih =>
    rw [List.cons_append, lineCommentTail, ih]
    · exact hn
    · rintro s' rfl hs'
      cases s with
      | nil => simp at hs'
      | cons d s =>
        simp only [List.cons_append, List.cons.injEq] at hs'
        exact hc s rfl (by rw [hs'.1])

theorem readSign_newline (c : Char) (s : Text) : readSign c (s ++ ['\n']) = readSign c s := by
  simp only [readSign, @sign_append_cons '\n' (by decide)]

/-- A line end joins a closing tag only at the end of the text or behind a carriage return. -/
theorem closeTagTail_newline (s : Text) :
    closeTagTail (s ++ ['\n']) = closeTagTail s ∨
      s.drop (closeTagTail s) = [] ∨ s.drop (closeTagTail s) = ['\r'] := by
  match s with
  | [] => exact .inr (.inl rfl)
  | [c] =>
    by_cases hr : c = '\r'
    · exact .inr (.inr (by simp [closeTagTail, hr]))
    · by_cases hn : c = '\n'
      · exact .inl (by simp [closeTagTail, hn])
      · exact .inl (by simp [closeTagTail, hr, hn])
  | c :: e :: s =>
    left
    by_cases hn : c = '\n'
    · simp [closeTagTail, hn]
    · by_cases hr : c = '\r'
      · by_cases he : e = '\n'
        · simp [closeTagTail, hr, he]
        · simp [closeTagTail, hr, he]
      · simp [closeTagTail, hn, hr]

/-! ## Heredocs -/

theorem afterLineEnd?_newline (s : Text) :
    afterLineEnd? (s ++ ['\n']) = (afterLineEnd? s).map (· ++ ['\n']) ∨
      afterLineEnd? (s ++ ['\n']) = some [] := by
  match s with
  | [] => exact .inr rfl
  | [c] =>
    by_cases hr : c = '\r'
    · exact .inr (by simp [afterLineEnd?, hr])
    · by_cases hn : c = '\n'
      · exact .inl (by simp [afterLineEnd?, hn])
      · exact .inl (by simp [afterLineEnd?, hr, hn])
  | c :: e :: s =>
    left
    by_cases hn : c = '\n'
    · simp [afterLineEnd?, hn]
    · by_cases hr : c = '\r'
      · by_cases he : e = '\n'
        · simp [afterLineEnd?, hr, he]
        · simp [afterLineEnd?, hr, he]
      · simp [afterLineEnd?, hn, hr]

/-- A line end leaves the opening of a heredoc as it is, or completes one without a body. -/
theorem heredocOpening?_newline (s : Text) :
    heredocOpening? (s ++ ['\n']) = (heredocOpening? s).map (fun p => (p.1, p.2 ++ ['\n'])) ∨
      ∃ marker, heredocOpening? (s ++ ['\n']) = some (marker, []) := by
  rw [heredocOpening?_eq_bind, heredocOpening?_eq_bind,
    heredocHead?_append_cons rfl rfl (by decide) (by decide)]
  cases heredocHead? s with
  | none => exact .inl rfl
  | some p =>
    simp only [Option.map_some, Option.bind_some]
    rcases afterLineEnd?_newline p.2 with hrest | hrest
    · left
      rw [hrest, Option.map_map, Option.map_map]
      rfl
    · right
      rw [hrest]
      exact ⟨p.1, rfl⟩

/-- A heredoc that has its end, or is none, stays the same, unless the line end opens one. -/
theorem readHeredoc?_newline {s : Text}
    (h : ∀ kind fault, (readHeredoc? s).getD (.lexeme .other 0) ≠ .unterminated kind fault)
    (h' : ∀ kind fault,
      (readHeredoc? (s ++ ['\n'])).getD (.lexeme .other 0) ≠ .unterminated kind fault) :
    (readHeredoc? (s ++ ['\n'])).getD (.lexeme .other 0) =
      (readHeredoc? s).getD (.lexeme .other 0) := by
  rw [readHeredoc?] at h h' ⊢
  rcases heredocOpening?_newline s with hopen | ⟨marker, hopen⟩
  · rw [hopen, readHeredoc?]
    cases hs : heredocOpening? s with
    | none => rfl
    | some p =>
      obtain ⟨marker, body⟩ := p
      cases hend : heredocEnd? marker true body with
      | none =>
        refine absurd ?_ (h .string (.unterminatedHeredoc marker))
        simp [hs, hend]
      | some n =>
        have hend' := @heredocEnd?_append_cons marker '\n' (isIdentChar_of_mem_marker hs) rfl rfl
          true body n hend []
        have hlen : s.length + 1 - (body.length + 1) = s.length - body.length := by omega
        simp [hend, hend', hlen]
  · refine absurd ?_ (h' .string (.unterminatedHeredoc marker))
    simp [hopen, heredocEnd?]

/-! ## Code -/

/-- Where a mark and its end stand, a line end changes nothing, unless it joins a closing tag. -/
theorem readMark_newline {a : Bool} {c : Char} {s : Text}
    (h : ∀ kind fault, readMark a c s ≠ .unterminated kind fault)
    (h' : ∀ kind fault, readMark a c (s ++ ['\n']) ≠ .unterminated kind fault) :
    readMark a c (s ++ ['\n']) = readMark a c s ∨
      ∃ n, readMark a c s = .lexeme .closeTag n ∧ (s.drop n = [] ∨ s.drop n = ['\r']) := by
  have hdrop : ∀ {p : Char → Bool}, startsWith p s = true →
      (s ++ ['\n']).drop 1 = s.drop 1 ++ ['\n'] := by
    intro p hp
    exact List.drop_append_of_le_length (List.length_pos_iff.2 (ne_nil_of_startsWith hp))
  unfold readMark at h h' ⊢
  split at h
  case h_1 =>
    rw [startsWith_append_cons (by decide)]
    split
    · rename_i hs
      rw [hdrop hs]
      rcases closeTagTail_newline (s.drop 1) with htail | htail
      · exact .inl (by rw [htail])
      · refine .inr ⟨_, rfl, ?_⟩
        rwa [List.drop_drop] at htail
    · exact .inl (readSign_newline _ _)
  case h_2 =>
    left
    rw [startsWith_append_cons (by decide), lineCommentTail_newline]
  case h_3 =>
    left
    rw [startsWith_append_cons (by decide)]
    split
    · rename_i hs
      rw [hdrop hs, lineCommentTail_newline]
    · rename_i hs
      rw [if_neg hs] at h
      rw [startsWith_append_cons (by decide)]
      split
      · rename_i hstar
        rw [if_pos hstar] at h
        rw [hdrop hstar]
        exact Reading.eq_of_lexeme h (fits_readBlockComment '/' _) rfl
          fun kind n hr => readBlockComment_append hr _
      · exact readSign_newline _ _
  case h_4 =>
    left
    rw [startsWith_append_cons rfl, identTail, identTail, runLength_append_cons rfl,
      readSign_newline]
  case h_5 =>
    left
    rw [startsWith_append_cons rfl, readSign_newline, readName_newline]
  case h_6 =>
    left
    rw [startsWith_append_cons rfl, readSign_newline,
      numberTail_append_cons rfl (by decide) (by decide) (by decide) (by decide)]
  case h_7 | h_8 | h_9 =>
    left
    exact Reading.eq_of_lexeme h (fits_readQuoted _ '"' _) rfl
      fun kind n hr => readQuoted_append hr (by decide) []
  case h_10 =>
    left
    rw [isPrefixOf_append_cons (by decide)] at h' ⊢
    split
    · rename_i hs
      have hlen : 2 ≤ s.length := (List.isPrefixOf_iff_prefix.1 hs).length_le
      rw [if_pos hs] at h h'
      rw [List.drop_append_of_le_length hlen] at h' ⊢
      exact readHeredoc?_newline h h'
    · exact readSign_newline _ _
  case h_11 => exact .inl (readSign_newline _ _)

/-- In code, a line end changes nothing, unless it joins white space or a closing tag. -/
theorem readCode_newline {a : Bool} {c : Char} {s : Text}
    (h : ∀ kind fault, readCode a c s ≠ .unterminated kind fault)
    (h' : ∀ kind fault, readCode a c (s ++ ['\n']) ≠ .unterminated kind fault) :
    (readCode a c s).Joined s (readCode a c (s ++ ['\n'])) ∨
      ∃ n, readCode a c s = .lexeme .closeTag n ∧ (s.drop n = [] ∨ s.drop n = ['\r']) := by
  unfold readCode at h h' ⊢
  by_cases hspace : isSpace c = true
  · left
    simp only [if_pos hspace]
    exact joined_runLength s
  by_cases hident : isIdentStart c = true
  · left
    simp only [if_neg hspace, if_pos hident]
    exact .inl (readName_newline a c s)
  by_cases hdigit : c.isDigit = true
  · left
    simp only [if_neg hspace, if_neg hident, if_pos hdigit, isHexadecimal]
    rw [startsWith_append_cons (by decide),
      numberTail_append_cons rfl (by decide) (by decide) (by decide) (by decide)]
    exact .inl rfl
  · rw [if_neg hspace, if_neg hident, if_neg hdigit] at h h'
    rw [if_neg hspace, if_neg hident, if_neg hdigit, if_neg hspace, if_neg hident, if_neg hdigit]
    exact (readMark_newline h h').imp_left .inl

/-! ## Outside the tags -/

/-- A line end joins the long tag only at the end of the text or behind a carriage return. -/
theorem longTagSize?_newline (s : Text) :
    longTagSize? (s ++ ['\n']) = longTagSize? s ∨
      longTagSize? s = some (5 + s.length) ∧
        longTagSize? (s ++ ['\n']) = some (5 + s.length + 1) := by
  match s with
  | [] => exact .inr ⟨rfl, rfl⟩
  | [c] =>
    by_cases hr : c = '\r'
    · exact .inr (by simp [longTagSize?, hr])
    · exact .inl (by simp [longTagSize?, hr])
  | c :: e :: s =>
    left
    by_cases hr : c = '\r'
    · by_cases he : e = '\n'
      · simp [longTagSize?, hr, he]
      · simp [longTagSize?, hr, he]
    · simp [longTagSize?, hr]

/-- A line end makes no tag of what is none, and joins a tag only at the end of the text. -/
theorem openTag?_newline (short : Bool) (s : Text) :
    openTag? short (s ++ ['\n']) = openTag? short s ∨
      openTag? short s = some s.length ∧ openTag? short (s ++ ['\n']) = some (s.length + 1) := by
  by_cases hp : ['<', '?'] <+: s
  · obtain ⟨r, rfl⟩ := hp
    simp only [List.cons_append, List.nil_append, openTag?_cons_cons,
      @sameWord_php_append_cons '\n' (by decide) (by decide)]
    split
    · rename_i hword
      have hlen : 3 ≤ r.length := by
        have := Text.length_eq_of_sameWord hword
        simp at this
        omega
      rw [List.drop_append_of_le_length hlen]
      have hsize : 5 + (r.drop 3).length = r.length + 2 := by
        rw [List.length_drop]
        omega
      have htag := longTagSize?_newline (r.drop 3)
      rwa [hsize] at htag
    · left
      cases r <;> rfl
  · have hp' : ¬ ['<', '?'] <+: s ++ ['\n'] := by
      rwa [← List.isPrefixOf_iff_prefix, isPrefixOf_append_cons (by decide),
        List.isPrefixOf_iff_prefix]
    rw [openTag?_eq_none hp, openTag?_eq_none hp']
    exact .inl rfl

theorem isSome_openTag?_newline (short : Bool) (s : Text) :
    (openTag? short (s ++ ['\n'])).isSome = (openTag? short s).isSome := by
  rcases openTag?_newline short s with h | ⟨h, h'⟩
  · rw [h]
  · rw [h, h']
    rfl

theorem htmlTail_newline {short : Bool} {s : Text} (h : htmlTail short s < s.length) :
    htmlTail short (s ++ ['\n']) = htmlTail short s := by
  induction s with
  | nil => simp at h
  | cons c s ih =>
    have htag := isSome_openTag?_newline short (c :: s)
    rw [List.cons_append] at htag ⊢
    rw [htmlTail, htmlTail, htag]
    split
    · rfl
    · rename_i hnone
      rw [htmlTail, if_neg hnone] at h
      rw [ih (by simpa using h)]

/-- Outside the tags, a line end changes nothing, unless it joins an opening tag or the last
text. -/
theorem readHtml_newline (short : Bool) (c : Char) (s : Text) :
    (readHtml short c s).Joined s (readHtml short c (s ++ ['\n'])) ∨
      readHtml short c s = .lexeme .inlineHtml s.length := by
  have htag := openTag?_newline short (c :: s)
  rw [List.cons_append] at htag
  unfold readHtml
  cases hopen : openTag? short (c :: s) with
  | some n =>
    left
    rcases htag with h | ⟨h, h'⟩
    · rw [h, hopen]
      exact .inl rfl
    · rw [hopen] at h
      obtain rfl : n = (c :: s).length := by simpa using h
      rw [h']
      exact .inr ⟨.openTag, rfl, rfl, rfl⟩
  | none =>
    rw [hopen] at htag
    have hnone : openTag? short (c :: (s ++ ['\n'])) = none := by
      rcases htag with h | ⟨h, -⟩
      · exact h
      · cases h
    rw [hnone]
    by_cases hlt : htmlTail short s < s.length
    · exact .inl (.inl (by simp only [htmlTail_newline hlt]))
    · right
      simp only
      have hle := htmlTail_le short s
      rw [Nat.le_antisymm hle (Nat.le_of_not_lt hlt)]

/-- In either mode, a line end changes nothing, unless it joins an insignificant token or the text
stays outside the tags. -/
theorem read_newline {short : Bool} {m : Mode} {c : Char} {s : Text}
    (h : ∀ kind fault, read short m c s ≠ .unterminated kind fault)
    (h' : ∀ kind fault, read short m c (s ++ ['\n']) ≠ .unterminated kind fault) :
    (read short m c s).Joined s (read short m c (s ++ ['\n'])) ∨
      (read short m c s).mode m = .html ∧
        (s.drop ((read short m c s).claims s) = [] ∨
          s.drop ((read short m c s).claims s) = ['\r']) := by
  cases m with
  | code a =>
    rcases readCode_newline h h' with hjoined | ⟨n, hread, hrest⟩
    · exact .inl hjoined
    · right
      have hread' : read short (.code a) c s = .lexeme .closeTag n := hread
      rw [hread']
      exact ⟨rfl, hrest⟩
  | html =>
    rcases readHtml_newline short c s with hjoined | hread
    · exact .inl hjoined
    · right
      have hread' : read short .html c s = .lexeme .inlineHtml s.length := hread
      rw [hread']
      exact ⟨rfl, .inl (List.drop_eq_nil_of_le (Nat.le_refl _))⟩

end Lexeme

/-! ## Whole texts -/

/-- A piece that is no significant token. -/
def Piece.IsInsignificant : Piece → Prop
  | .token kind _ _ => kind.isInsignificant = true
  | .stray _ => True

theorem isInsignificant_of_mem_placed {line offset : Nat} {ps : List Piece}
    (h : ∀ p ∈ ps, p.IsInsignificant) {x : Token} (hx : x ∈ placed line offset ps) :
    x.kind.isInsignificant = true := by
  obtain ⟨before, fault, after, rfl, -⟩ := mem_placed hx
  exact h (.token x.kind x.text fault) (by simp)

theorem Faultless.ne_unterminated {short : Bool} {m : Mode} {c : Char} {s : Text}
    (h : Faultless (pieces short m (c :: s))) (kind : Kind) (fault : Fault) :
    Lexeme.read short m c s ≠ .unterminated kind fault := by
  intro hread
  have := h ((Lexeme.read short m c s).piece c s) (by simp [pieces_cons])
  simp [hread, Reading.piece, Piece.fault?] at this

/-- A lexeme that takes the whole text is its only piece. -/
theorem pieces_eq_singleton {short : Bool} {m : Mode} {c : Char} {s : Text} {kind : Kind}
    (h : Lexeme.read short m c s = .lexeme kind s.length) :
    pieces short m (c :: s) = [.token kind (c :: s) none] := by
  rw [pieces_cons, h]
  simp [Reading.piece, Reading.claims]

theorem modeAfter_carriageReturn (short : Bool) :
    modeAfter .html (pieces short .html ['\r']) = .html := by
  cases short <;> rfl

/-- Behind a text without faults that ends in code, a line end is one more token, or it joins an
insignificant token that was the last one. -/
theorem pieces_newline {short : Bool} {m : Mode} {s : Text} {a : Bool}
    (hmode : modeAfter m (pieces short m s) = .code a) (h : Faultless (pieces short m s))
    (h' : Faultless (pieces short m (s ++ ['\n']))) :
    ∃ ps old p, pieces short m s = ps ++ old ∧ pieces short m (s ++ ['\n']) = ps ++ [p] ∧
      (∀ q ∈ old, q.IsInsignificant) ∧ p.IsInsignificant := by
  induction m, s using pieces_induction short with
  | nil m =>
    rw [pieces_nil, modeAfter_nil] at hmode
    rw [hmode]
    exact ⟨[], [], .token .whitespace ['\n'] none, by simp, pieces_eq_singleton rfl, by simp, rfl⟩
  | cons m c s ih =>
    have hended := h.ne_unterminated
    have hle := Lexeme.claims_read_le short m c s
    rw [List.cons_append] at h' ⊢
    rcases Lexeme.read_newline hended h'.ne_unterminated with
      (hsame | ⟨kind, hkind, hread, hread'⟩) | ⟨hhtml, hrest⟩
    · have hdrop := Reading.drop_claims_append hended hle ['\n']
      rw [pieces_cons, modeAfter_cons, Reading.mode_piece] at hmode
      rw [pieces_cons] at h
      rw [pieces_cons, hsame, hdrop] at h'
      obtain ⟨ps, old, p, hps, hps', hold, hp⟩ := ih hmode h.tail h'.tail
      refine ⟨(Lexeme.read short m c s).piece c s :: ps, old, p, ?_, ?_, hold, hp⟩
      · rw [pieces_cons, hps, List.cons_append]
      · rw [pieces_cons, hsame, hdrop, hps', Reading.piece_append hended c hle, List.cons_append]
    · refine ⟨[], [.token kind (c :: s) none], .token kind (c :: (s ++ ['\n'])) none,
        ?_, ?_, ?_, hkind⟩
      · exact pieces_eq_singleton hread
      · exact pieces_eq_singleton (by rw [hread', List.length_append]; rfl)
      · intro q hq
        obtain rfl := List.mem_singleton.1 hq
        exact hkind
    -- the text would end outside the tags
    · rw [pieces_cons, modeAfter_cons, Reading.mode_piece, hhtml] at hmode
      rcases hrest with hrest | hrest
      · rw [hrest, pieces_nil] at hmode
        cases hmode
      · rw [hrest, modeAfter_carriageReturn] at hmode
        cases hmode

end PhpOutline
