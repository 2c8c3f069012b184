import PhpOutline.Proofs.Lexing.Fence

/-!
# Texts that go on

A text is cut in the same way whether it stands alone or goes on with a separator or a closing
bracket, unless its last lexeme has no end of its own: an unterminated token, a line comment, text
outside the tags, or a long tag that only the end of the source completes. It may go on with a blank
as well, in front of a sign, if it does not end with white space.

## Main definitions

* `Piece.IsClosed`: a piece that has an end of its own.
* `EndsBefore`: pieces that end in front of a text.
* `modeAfter`: the mode behind some pieces.

## Main statements

* `read_append`: what stands at a place does not depend on what a text that separates goes on with.
* `pieces_append_of_endsBefore`: the pieces of a text are the same when such a text follows it.
* `pieces_append`: the pieces of a text are the same when a fence follows it.
-/

namespace PhpOutline

/-! ## Pieces with an end of their own -/

/-- A piece that has an end of its own. A line comment has none, nor has the text outside the tags,
nor a long tag without the space that belongs to it. -/
def Piece.IsClosed : Piece → Prop
  | .token kind text fault => fault = none ∧ kind ≠ .inlineHtml ∧
      (kind = .comment → ['/', '*'] <+: text) ∧ (kind = .openTag → text.length ≠ 5)
  | .stray _ => True

/-- A reading whose piece, if it is the last one, has an end of its own. -/
def Reading.EndsBy (c : Char) (s : Text) (r : Reading) : Prop :=
  s.length ≤ r.claims s → (r.piece c s).IsClosed

/-- A reading that is not cut off stays the same when every lexeme does. -/
theorem Reading.eq_of_lexeme {c : Char} {r r' : Reading}
    (h : ∀ kind fault, r ≠ .unterminated kind fault) (hfits : r.Fits c)
    (hc : Lexeme.isControl c = false)
    (hr : ∀ kind n, r = .lexeme kind n → r' = .lexeme kind n) : r' = r := by
  cases r with
  | lexeme kind n => exact hr kind n rfl
  | unterminated kind fault => exact absurd rfl (h kind fault)
  | stray =>
    have hcontrol : Lexeme.isControl c = true := hfits
    rw [hc] at hcontrol
    simp at hcontrol

/-- A reading that has an end of its own is not cut off. -/
theorem Reading.EndsBy.ne_unterminated {c : Char} {s : Text} {r : Reading} (h : r.EndsBy c s)
    (kind : Kind) (fault : Fault) : r ≠ .unterminated kind fault := by
  rintro rfl
  have := (h (Nat.le_refl _)).1
  simp at this

/-- A reading that has an end of its own stays the same when every lexeme does. -/
theorem Reading.EndsBy.eq_of_lexeme {c : Char} {s : Text} {r r' : Reading} (h : r.EndsBy c s)
    (hfits : r.Fits c) (hc : Lexeme.isControl c = false)
    (hr : ∀ kind n, r = .lexeme kind n → r' = .lexeme kind n) : r' = r :=
  Reading.eq_of_lexeme h.ne_unterminated hfits hc hr

namespace Lexeme

/-- A comment behind a hash sign that has an end of its own ends before the end of the text. -/
theorem lineCommentTail_lt_of_hash {s : Text}
    (h : (Reading.lexeme .comment (lineCommentTail s)).EndsBy '#' s) :
    lineCommentTail s < s.length := by
  by_contra hge
  have := (h (Nat.le_of_not_lt hge)).2.2.1 rfl
  simp at this

/-- So does a comment behind two slashes: the text of a closed comment begins with a slash and a
star. -/
theorem lineCommentTail_lt_of_slashes {s : Text} (hs : startsWith (· == '/') s = true)
    (h : (Reading.lexeme .comment (1 + lineCommentTail (s.drop 1))).EndsBy '/' s) :
    lineCommentTail (s.drop 1) < (s.drop 1).length := by
  cases s with
  | nil => simp [startsWith] at hs
  | cons e s =>
    by_contra hge
    rw [List.drop_succ_cons, List.drop_zero] at hge h
    have hclosed := h (by simp only [Reading.claims, List.length_cons]; omega)
    have he : e = '/' := by simpa [startsWith] using hs
    have hstar : ['/', '*'] <+: '/' :: (e :: s).take (1 + lineCommentTail s) :=
      hclosed.2.2.1 rfl
    rw [he, Nat.add_comm 1, List.take_succ_cons] at hstar
    simp at hstar

theorem readMark_append {x : Text} (hx : Separates x) {a : Bool} {c : Char} {s : Text}
    (h : (readMark a c s).EndsBy c s) : readMark a c (s ++ x) = readMark a c s := by
  obtain ⟨d, t, hd, rfl⟩ := hx.head
  have hdrop : ∀ {p : Char → Bool}, startsWith p s = true →
      (s ++ d :: t).drop 1 = s.drop 1 ++ d :: t := by
    intro p hp
    exact List.drop_append_of_le_length (List.length_pos_iff.2 (ne_nil_of_startsWith hp))
  unfold readMark at h ⊢
  split at h
  case h_1 =>
    rw [startsWith_append_cons (by simpa using ne_of_isStop hd rfl)]
    split
    · rename_i hs
      rw [hdrop hs, closeTagTail_append_cons hd]
    · exact readSign_append_cons hd _ _ _
  case h_2 =>
    rw [startsWith_append_cons (by simpa using ne_of_isStop hd rfl)]
    split
    · rfl
    · rename_i hs
      rw [if_neg hs] at h
      rw [lineCommentTail_append (lineCommentTail_lt_of_hash h)]
  case h_3 =>
    rw [startsWith_append_cons (by simpa using ne_of_isStop hd rfl)]
    split
    · rename_i hs
      rw [if_pos hs] at h
      rw [hdrop hs, lineCommentTail_append (lineCommentTail_lt_of_slashes hs h)]
    · rename_i hs
      rw [if_neg hs] at h
      rw [startsWith_append_cons (by simpa using ne_of_isStop hd rfl)]
      split
      · rename_i hstar
        rw [if_pos hstar] at h
        rw [hdrop hstar]
        exact h.eq_of_lexeme (fits_readBlockComment _ _) rfl
          fun kind n hr => readBlockComment_append hr _
      · exact readSign_append_cons hd _ _ _
  case h_4 =>
    rw [startsWith_append_cons (isIdentStart_of_isStop hd), identTail, identTail,
      runLength_append_cons (isIdentChar_of_isStop hd), readSign_append_cons hd]
  case h_5 =>
    rw [startsWith_append_cons (isIdentStart_of_isStop hd), readSign_append_cons hd,
      readName_append hx]
  case h_6 =>
    have halnum := isAlphanum_of_isStop hd
    rw [startsWith_append_cons (Bool.or_eq_false_iff.1 halnum).2, readSign_append_cons hd,
      numberTail_append_cons halnum (ne_of_isStop hd rfl) (ne_of_isStop hd rfl)
        (ne_of_isStop hd rfl) (ne_of_isStop hd rfl)]
  case h_7 | h_8 | h_9 =>
    exact h.eq_of_lexeme (fits_readQuoted _ _ _) rfl
      fun kind n hr => readQuoted_append hr (ne_of_isStop hd rfl) t
  case h_10 =>
    have hangle : d ∉ ['<', '<'] := by
      simpa using ne_of_isStop hd rfl
    rw [isPrefixOf_append_cons hangle]
    split
    · rename_i hs
      rw [if_pos hs] at h
      have hlen : 2 ≤ s.length := (List.isPrefixOf_iff_prefix.1 hs).length_le
      rw [List.drop_append_of_le_length hlen]
      exact h.eq_of_lexeme (fits_readHeredoc? _ _) rfl
        fun kind n hr => readHeredoc?_append hx hr
    · exact readSign_append_cons hd _ _ _
  case h_11 => exact readSign_append_cons hd _ _ _

/-- A run that ends inside a text ends there whatever follows. -/
theorem runLength_append_of_lt {p : Char → Bool} {s : Text} (h : runLength p s < s.length)
    (x : Text) : runLength p (s ++ x) = runLength p s := by
  rw [runLength, List.takeWhile_append, if_neg]
  · rfl
  · exact Nat.ne_of_lt h

theorem readCode_append {x : Text} (hx : Separates x) {a : Bool} {c : Char} {s : Text}
    (h : (readCode a c s).EndsBy c s)
    (hblank : startsWith isSpace x = true → ∀ n, readCode a c s = .lexeme .whitespace n →
      n < s.length) : readCode a c (s ++ x) = readCode a c s := by
  obtain ⟨d, t, hd, rfl⟩ := hx.head
  have halnum := isAlphanum_of_isStop hd
  unfold readCode at h hblank ⊢
  split
  · rename_i hspace
    cases hds : isSpace d with
    | false => rw [runLength_append_cons hds]
    | true => rw [runLength_append_of_lt (hblank hds _ (if_pos hspace))]
  split
  · exact readName_append hx a c s
  split
  · have hhex : (d == 'x' || d == 'X') = false := by
      simpa using ⟨ne_of_isStop hd rfl, ne_of_isStop hd rfl⟩
    rw [isHexadecimal, isHexadecimal, startsWith_append_cons hhex,
      numberTail_append_cons halnum (ne_of_isStop hd rfl) (ne_of_isStop hd rfl)
        (ne_of_isStop hd rfl) (ne_of_isStop hd rfl)]
  · rename_i hspace hident hdigit
    rw [if_neg hspace, if_neg hident, if_neg hdigit] at h
    exact readMark_append hx h

/-- A long tag that has an end of its own is not the end of the text. -/
theorem lt_length_of_openTag? {short : Bool} {c : Char} {s : Text}
    (h : (readHtml short c s).EndsBy c s) (h5 : openTag? short (c :: s) = some 5) :
    5 < (c :: s).length := by
  by_contra hge
  have hle : s.length ≤ 4 := by
    simp only [List.length_cons] at hge
    omega
  have hlen := openTag?_le h5
  simp only [List.length_cons] at hlen
  rw [readHtml, h5] at h
  have hclosed := (h hle).2.2.2 rfl
  simp only [List.length_cons, List.length_take] at hclosed
  omega

/-- Outside the tags a reading stays the same when it has an end of its own and the tag behind it
has one, too. -/
theorem readHtml_append_cons {d : Char} (hd : isStop d = true) {short : Bool} {c : Char}
    {s : Text} (h : (readHtml short c s).EndsBy c s)
    (htag : openTag? short (c :: s) = none →
      openTag? short (s.drop (htmlTail short s)) = some 5 →
      5 < (s.drop (htmlTail short s)).length) (t : Text) :
    readHtml short c (s ++ d :: t) = readHtml short c s := by
  have hext := openTag?_append_cons hd (lt_length_of_openTag? h) t
  rw [List.cons_append] at hext
  unfold readHtml at h ⊢
  rw [hext]
  cases hn : openTag? short (c :: s) with
  | some n => rfl
  | none =>
    rw [hn] at h
    have hlt : htmlTail short s < s.length := by
      by_contra hge
      exact (h (Nat.le_of_not_lt hge)).2.1 rfl
    simp only [htmlTail_append_cons hd hlt (htag hn)]

end Lexeme

/-! ## Pieces of a text that goes on -/

/-- Pieces of which the last one has an end of its own. -/
def EndsClosed (ps : List Piece) : Prop := ∀ p ∈ ps.getLast?, p.IsClosed

theorem EndsClosed.tail {p : Piece} {ps : List Piece} (h : EndsClosed (p :: ps)) :
    EndsClosed ps := by
  intro q hq
  cases ps with
  | nil => simp at hq
  | cons r ps => exact h q (by simpa using hq)

theorem EndsClosed.endsBy {short : Bool} {m : Mode} {c : Char} {s : Text}
    (h : EndsClosed (pieces short m (c :: s))) : (Lexeme.read short m c s).EndsBy c s := by
  intro hall
  rw [pieces_cons, List.drop_eq_nil_of_le hall, pieces_nil] at h
  exact h _ (by simp)

/-- The mode behind a piece. -/
def Piece.mode (m : Mode) : Piece → Mode
  | .token kind _ _ => m.after kind
  | .stray _ => m

/-- The mode behind some pieces. -/
def modeAfter (m : Mode) (ps : List Piece) : Mode := ps.foldl Piece.mode m

@[simp] theorem modeAfter_nil (m : Mode) : modeAfter m [] = m := rfl

@[simp] theorem modeAfter_cons (m : Mode) (p : Piece) (ps : List Piece) :
    modeAfter m (p :: ps) = modeAfter (p.mode m) ps := rfl

@[simp] theorem modeAfter_append (m : Mode) (ps qs : List Piece) :
    modeAfter m (ps ++ qs) = modeAfter (modeAfter m ps) qs := by
  simp [modeAfter]

@[simp] theorem Reading.mode_piece (m : Mode) (r : Reading) (c : Char) (s : Text) :
    (r.piece c s).mode m = r.mode m := by
  cases r <;> rfl

/-- Pieces that end in front of the text `x`: the last one has an end of its own, and white space in
front of white space would have none. -/
structure EndsBefore (x : Text) (ps : List Piece) : Prop where
  closed : EndsClosed ps
  visible : Lexeme.startsWith Lexeme.isSpace x = true →
    ∀ text fault, ps.getLast? ≠ some (.token .whitespace text fault)

theorem EndsBefore.tail {x : Text} {p : Piece} {ps : List Piece} (h : EndsBefore x (p :: ps)) :
    EndsBefore x ps where
  closed := h.closed.tail
  visible := by
    intro hx text fault hlast
    cases ps with
    | nil => cases hlast
    | cons q ps => exact h.visible hx text fault (by simpa using hlast)

theorem EndsBefore.lt_of_whitespace {x : Text} {short : Bool} {m : Mode} {c : Char} {s : Text}
    (h : EndsBefore x (pieces short m (c :: s))) (hx : Lexeme.startsWith Lexeme.isSpace x = true)
    (n : Nat) (hread : Lexeme.read short m c s = .lexeme .whitespace n) : n < s.length := by
  by_contra hge
  have hle : s.length ≤ n := Nat.le_of_not_lt hge
  have hlast := h.visible hx (c :: s.take n) none
  rw [pieces_cons, hread] at hlast
  simp [Reading.piece, Reading.claims, List.drop_eq_nil_of_le hle] at hlast

/-- What stands at a place does not depend on what follows it behind a text that separates. -/
theorem read_append {x : Text} (hx : Lexeme.Separates x) {short : Bool} {m : Mode} {c : Char}
    {s : Text} (hends : EndsBefore x (pieces short m (c :: s))) :
    Lexeme.read short m c (s ++ x) = Lexeme.read short m c s := by
  have h := hends.closed
  cases m with
  | code a => exact Lexeme.readCode_append hx h.endsBy hends.lt_of_whitespace
  | html =>
    obtain ⟨d, t, hd, rfl⟩ := hx.head
    refine Lexeme.readHtml_append_cons hd h.endsBy ?_ t
    intro hnone h5
    have hread : Lexeme.read short .html c s =
        .lexeme .inlineHtml (Lexeme.htmlTail short s) := by
      simp [Lexeme.read, Lexeme.readHtml, hnone]
    rw [pieces_cons, hread] at h
    cases hrest : s.drop (Lexeme.htmlTail short s) with
    | nil => simp [hrest, Lexeme.openTag?] at h5
    | cons e r =>
      have htail := h.tail
      simp only [Reading.claims, Reading.mode, Mode.after, hrest] at htail
      rw [hrest] at h5
      exact Lexeme.lt_length_of_openTag? htail.endsBy h5

/-- A reading that does not take the whole text has the same piece when the text goes on. -/
theorem Reading.piece_append {r : Reading} (hr : ∀ kind fault, r ≠ .unterminated kind fault)
    (c : Char) {s : Text} (hle : r.claims s ≤ s.length) (t : Text) :
    r.piece c (s ++ t) = r.piece c s := by
  cases r with
  | lexeme kind n =>
    have hn : n ≤ s.length := hle
    simp only [Reading.piece, List.take_append_of_le_length hn]
  | unterminated kind fault => exact absurd rfl (hr kind fault)
  | stray => rfl

theorem Reading.drop_claims_append {r : Reading} (hr : ∀ kind fault, r ≠ .unterminated kind fault)
    {s : Text} (hle : r.claims s ≤ s.length) (t : Text) :
    (s ++ t).drop (r.claims (s ++ t)) = s.drop (r.claims s) ++ t := by
  cases r with
  | lexeme kind n => exact List.drop_append_of_le_length hle
  | unterminated kind fault => exact absurd rfl (hr kind fault)
  | stray => rfl

/-- A text is cut in the same way when a text that separates follows it, if it ends in front of
that. -/
theorem pieces_append_of_endsBefore {x : Text} (hx : Lexeme.Separates x) {short : Bool} {m : Mode}
    {s : Text} (h : EndsBefore x (pieces short m s)) :
    pieces short m (s ++ x) =
      pieces short m s ++ pieces short (modeAfter m (pieces short m s)) x := by
  induction m, s using pieces_induction short with
  | nil m => simp
  | cons m c s ih =>
    have hread := read_append hx h
    have hle := Lexeme.claims_read_le short m c s
    -- a token without its end takes the whole text, and is not closed
    have hclosed := h.closed.endsBy.ne_unterminated
    have hcons := @pieces_cons short m c s
    rw [hcons] at h ⊢
    rw [List.cons_append, pieces_cons, hread, Reading.piece_append hclosed c hle,
      Reading.drop_claims_append hclosed hle, ih h.tail, modeAfter_cons, Reading.mode_piece,
      List.cons_append]

/-- A text is cut in the same way when a fence follows it, if its last piece has an end of its
own. -/
theorem pieces_append {d : Char} (hd : Lexeme.isFence d = true) {short : Bool} {m : Mode} {s : Text}
    (h : EndsClosed (pieces short m s)) (t : Text) :
    pieces short m (s ++ d :: t) =
      pieces short m s ++ pieces short (modeAfter m (pieces short m s)) (d :: t) := by
  refine pieces_append_of_endsBefore (Lexeme.separates_fence hd t) ⟨h, ?_⟩
  intro hspace
  have hfence : Lexeme.isSpace d = true := hspace
  rw [Lexeme.isSpace_of_isFence hd] at hfence
  cases hfence

end PhpOutline
