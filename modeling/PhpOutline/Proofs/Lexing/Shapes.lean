import Mathlib.Data.List.Infix
import PhpOutline.Proofs.Lexing.Restart
import PhpOutline.Proofs.Lexing.Runs

/-!
# The shape of tokens

What a token is tells how it is spelled, and what cannot stand behind it: white space, variables and
names go on as far as they can, comments end at the first chance, and a sign is the longest one that
begins at its place. Whoever takes a token apart later can rely on that.

## Main definitions

* `Lexeme.IsQualified`: identifiers with single backslashes between them.
* `Lexeme.NameShape`, `Lexeme.LineCommentShape`, `Lexeme.BlockCommentShape`, `Lexeme.SignShape`: the
  shapes of names, comments and signs.
* `Lexeme.Shape`: the shape of a token of each kind, in front of a text.
* `Lexed.Shaped`: what it means that every token has the shape of its kind.

## Main statements

* `Lexeme.nameShape_cons`, `Lexeme.lineCommentShape`, `Lexeme.blockEnd?_eq_some`: where names and
  comments end.
* `Lexeme.shaped_read`: what is read at a place has the shape of its kind.
* `lex_shaped`: every token of a source does.
-/

namespace PhpOutline

namespace Lexeme

/-! ## Shapes -/

/-- A text of identifiers with single backslashes between them. -/
def IsQualified (s : Text) : Prop :=
  ∃ parts : List Text, parts ≠ [] ∧ (∀ p ∈ parts, isIdentifier p = true) ∧
    s = ['\\'].intercalate parts

/-- White space with none behind it. -/
structure SpaceShape (text rest : Text) : Prop where
  ne_nil : text ≠ []
  isSpace : ∀ c ∈ text, isSpace c = true
  ends : ∀ c ∈ rest.head?, Lexeme.isSpace c = false

/-- A dollar sign and an identifier that does not go on. -/
structure VariableShape (text rest : Text) : Prop where
  spelled : ∃ w, text = '$' :: w ∧ isIdentifier w = true
  ends : rest.bytes.head?.any isIdentByte = false

/-- Identifiers with single backslashes between them, none of which goes on and with no further one
behind. One more backslash may stand in front, and one behind, where a brace follows. -/
structure NameShape (text rest : Text) : Prop where
  spelled : ∃ front core back, text = front ++ (core ++ back) ∧ IsQualified core ∧
    (front = [] ∨ front = ['\\']) ∧ (back = [] ∨ back = ['\\'] ∧ rest.head? = some '{')
  ends : rest.bytes.head?.any isIdentByte = false
  no_segment : ∀ r : Text, rest = '\\' :: r → r.bytes.head?.any isIdentStartByte = false

/-- A comment up to the line end or the closing tag that follows it. -/
structure LineCommentShape (text rest : Text) : Prop where
  opens : ['#'] <+: text ∨ ['/', '/'] <+: text
  no_newline : '\n' ∉ text
  no_closeTag : ¬ ['?', '>'] <:+: text
  ends : rest = [] ∨ ['\n'] <+: rest ∨ ['?', '>'] <+: rest

/-- A comment with the text `body` behind its opening, in which the first star and slash are the
last characters; when there are none, the source ends with it. -/
structure BlockCommentShape (body text rest : Text) : Prop where
  opens : text = '/' :: '*' :: body
  closes : ['*', '/'] <:+ body ∨ rest = []
  first : ∀ a b, body = a ++ '*' :: '/' :: b → b = []

/-- The texts of the signs of a kind. -/
def spellings : Kind → List Text
  | .opener .brace => [['{']]
  | .closer .brace => [['}']]
  | .opener .paren => [['(']]
  | .closer .paren => [[')']]
  | .opener .square => [['[']]
  | .closer .square => [[']']]
  | .attributeOpener => [['#', '[']]
  | .semicolon => [[';']]
  | .comma => [[',']]
  | .equals => [['=']]
  | .ampersand => [['&']]
  | .ellipsis => [['.', '.', '.']]
  | .question => [['?']]
  | .pipe => [['|']]
  | .colon => [[':']]
  | .doubleColon => [[':', ':']]
  | .objectOperator => [['-', '>'], ['?', '-', '>']]
  | _ => []

/-- A sign of a kind, where no longer sign begins. -/
structure SignShape (kind : Kind) (text rest : Text) : Prop where
  spelled : text ∈ spellings kind
  longest : ∀ c w, text = c :: w → ∀ p ∈ longerSigns c, w.length < p.1.length → ¬ p.1 <+: w ++ rest

/-- The shape of a token of a kind, with the text `rest` behind it. -/
def Shape (kind : Kind) (text rest : Text) : Prop :=
  match kind with
  | .whitespace => SpaceShape text rest
  | .variableName => VariableShape text rest
  | .name | .keyword _ => NameShape text rest
  | .comment => LineCommentShape text rest ∨ ∃ body, BlockCommentShape body text rest
  | .docComment => ∃ c body, isGap c = true ∧ BlockCommentShape ('*' :: c :: body) text rest
  | .inlineHtml | .openTag | .closeTag | .number | .string | .other => True
  | sign => SignShape sign text rest

/-! ## Names -/

theorem IsQualified.single {w : Text} (h : isIdentifier w = true) : IsQualified w :=
  ⟨[w], by simp, by simpa using h, by simp⟩

theorem IsQualified.cons {w s : Text} (hw : isIdentifier w = true) (h : IsQualified s) :
    IsQualified (w ++ '\\' :: s) := by
  obtain ⟨parts, hne, hparts, rfl⟩ := h
  obtain ⟨p, ps, rfl⟩ := List.exists_cons_of_ne_nil hne
  refine ⟨w :: p :: ps, by simp, ?_, by simp⟩
  intro q hq
  rcases List.mem_cons.1 hq with rfl | hq
  · exact hw
  · exact hparts q hq

/-- An identifier goes on with an identifier character. -/
theorem isIdentifier_concat {w : Text} {c : Char} (hw : isIdentifier w = true)
    (hc : isIdentChar c = true) : isIdentifier (w ++ [c]) = true := by
  obtain ⟨d, r, rfl, hd, hr⟩ := exists_cons_of_isIdentifier hw
  simpa [isIdentifier, hd, hc] using hr

/-- What a name goes on with behind the beginning `w` of a segment, or where a segment begins. -/
theorem exists_isQualified_nameTail {w s : Text}
    (h : isIdentifier w = true ∨ w = [] ∧ startsWith isIdentStart s = true) :
    ∃ core back, w ++ s.take (nameTail s) = core ++ back ∧ IsQualified core ∧
      (back = [] ∨ back = ['\\'] ∧ (s.drop (nameTail s)).head? = some '{') := by
  induction s generalizing w with
  | nil =>
    rcases h with h | ⟨-, h⟩
    · exact ⟨w, [], rfl, .single h, .inl rfl⟩
    · cases h
  | cons c s ih =>
    rw [nameTail]
    by_cases hc : isIdentChar c = true
    · have hw : isIdentifier (w ++ [c]) = true := by
        rcases h with h | ⟨rfl, h⟩
        · exact isIdentifier_concat h hc
        · have hstart : isIdentStart c = true := h
          simp [isIdentifier, hstart]
      obtain ⟨core, back, htext, hcore, hback⟩ := ih (.inl hw)
      rw [if_pos hc]
      refine ⟨core, back, ?_, hcore, hback⟩
      rw [List.take_succ_cons, ← htext, List.append_assoc]
      rfl
    · have hw : isIdentifier w = true := by
        refine h.resolve_right ?_
        rintro ⟨-, hstart⟩
        have hstart : isIdentStart c = true := hstart
        simp [isIdentChar, hstart] at hc
      rw [if_neg hc]
      by_cases hslash : (c == '\\') = true
      · obtain rfl : c = '\\' := beq_iff_eq.1 hslash
        rw [if_pos hslash]
        by_cases hstart : startsWith isIdentStart s = true
        · obtain ⟨core, back, htext, hcore, hback⟩ := ih (.inr ⟨rfl, hstart⟩)
          rw [if_pos hstart]
          refine ⟨w ++ '\\' :: core, back, ?_, hcore.cons hw, hback⟩
          rw [List.nil_append] at htext
          rw [List.take_succ_cons, htext, List.append_assoc]
          rfl
        · rw [if_neg hstart]
          by_cases hbrace : startsWith (· == '{') s = true
          · rw [if_pos hbrace]
            refine ⟨w, ['\\'], rfl, .single hw, .inr ⟨rfl, ?_⟩⟩
            cases s with
            | nil => cases hbrace
            | cons d s => simpa [startsWith] using hbrace
          · rw [if_neg hbrace]
            exact ⟨w, [], rfl, .single hw, .inl rfl⟩
      · rw [if_neg hslash]
        exact ⟨w, [], rfl, .single hw, .inl rfl⟩

/-- A name goes on as far as it can. -/
theorem drop_nameTail (s : Text) :
    startsWith isIdentChar (s.drop (nameTail s)) = false ∧
      ∀ r, s.drop (nameTail s) = '\\' :: r → startsWith isIdentStart r = false := by
  induction s with
  | nil => exact ⟨rfl, by simp⟩
  | cons c s ih =>
    rw [nameTail]
    split
    · exact ih
    · rename_i hc
      split
      · split
        · exact ih
        · rename_i hstart
          split
          · rename_i hbrace
            -- the name ends behind a backslash, in front of a brace
            cases s with
            | nil => cases hbrace
            | cons d s =>
              obtain rfl : d = '{' := by simpa [startsWith] using hbrace
              exact ⟨rfl, by simp⟩
          · refine ⟨by simpa [startsWith] using hc, ?_⟩
            intro r hr
            obtain ⟨-, rfl⟩ := List.cons.inj hr
            simpa using hstart
      · rename_i hslash
        refine ⟨by simpa [startsWith] using hc, ?_⟩
        intro r hr
        obtain ⟨rfl, -⟩ := List.cons.inj hr
        simp at hslash

theorem nameShape_cons {c : Char} {s : Text} (h : BeginsName c s) :
    NameShape (c :: s.take (nameTail s)) (s.drop (nameTail s)) where
  spelled := by
    rcases h with hc | ⟨rfl, hs⟩
    · have hw : isIdentifier [c] = true := by simp [isIdentifier, hc]
      obtain ⟨core, back, htext, hcore, hback⟩ := exists_isQualified_nameTail (s := s) (.inl hw)
      exact ⟨[], core, back, htext, hcore, .inl rfl, hback⟩
    · obtain ⟨core, back, htext, hcore, hback⟩ := exists_isQualified_nameTail (.inr ⟨rfl, hs⟩)
      exact ⟨['\\'], core, back, congrArg ('\\' :: ·) htext, hcore, .inr rfl, hback⟩
  ends := by
    rw [← startsWith_isIdentChar]
    exact (drop_nameTail s).1
  no_segment := by
    intro r hr
    rw [← startsWith_isIdentStart]
    exact (drop_nameTail s).2 r hr

/-! ## Comments -/

theorem newline_notMem_lineCommentTail (s : Text) : '\n' ∉ s.take (lineCommentTail s) := by
  fun_induction lineCommentTail s with
  | case4 c s hnewline _ ih =>
    rw [List.take_succ_cons, List.mem_cons]
    rintro (rfl | hmem)
    · exact hnewline rfl
    · exact ih hmem
  | _ => simp

theorem closeTag_not_infix_lineCommentTail (s : Text) :
    ¬ ['?', '>'] <:+: s.take (lineCommentTail s) := by
  fun_induction lineCommentTail s with
  | case4 c s _ htag ih =>
    rw [List.take_succ_cons, List.infix_cons_iff]
    rintro (hfront | hinfix)
    · obtain ⟨rfl, hgt⟩ := List.cons_prefix_cons.1 hfront
      obtain ⟨r, hr⟩ := hgt.trans (List.take_prefix _ s)
      exact htag r rfl hr.symm
    · exact ih hinfix
  | _ => simp

theorem drop_lineCommentTail (s : Text) :
    s.drop (lineCommentTail s) = [] ∨ ['\n'] <+: s.drop (lineCommentTail s) ∨
      ['?', '>'] <+: s.drop (lineCommentTail s) := by
  fun_induction lineCommentTail s with
  | case1 => exact .inl rfl
  | case2 s => exact .inr (.inl (List.prefix_append _ s))
  | case3 s => exact .inr (.inr (List.prefix_append _ s))
  | case4 c s _ _ ih => exact ih

/-- A line comment behind its opening. -/
theorem lineCommentShape {front : Text} (hfront : front = ['#'] ∨ front = ['/', '/']) (s : Text) :
    LineCommentShape (front ++ s.take (lineCommentTail s)) (s.drop (lineCommentTail s)) where
  opens := by
    rcases hfront with rfl | rfl
    · exact .inl (List.prefix_append _ _)
    · exact .inr (List.prefix_append _ _)
  no_newline := by
    have htail := newline_notMem_lineCommentTail s
    rcases hfront with rfl | rfl
    · simpa using htail
    · simpa using htail
  no_closeTag := by
    have htail := closeTag_not_infix_lineCommentTail s
    rcases hfront with rfl | rfl
    · simpa [List.infix_cons_iff] using htail
    · simpa [List.infix_cons_iff] using htail
  ends := drop_lineCommentTail s

theorem two_le_of_blockEnd? {s : Text} {n : Nat} (h : blockEnd? s = some n) : 2 ≤ n := by
  fun_induction blockEnd? s generalizing n with
  | case1 => cases h
  | case2 s => exact (Option.some.inj h).le
  | case3 c s _ ih =>
    obtain ⟨m, hm, rfl⟩ := Option.map_eq_some_iff.1 h
    exact Nat.le_succ_of_le (ih hm)

/-- The end that is found is that of the first star and slash. -/
theorem blockEnd?_eq_some {s : Text} {n : Nat} (h : blockEnd? s = some n) :
    ['*', '/'] <:+ s.take n ∧ ∀ a b, s.take n = a ++ '*' :: '/' :: b → b = [] := by
  fun_induction blockEnd? s generalizing n with
  | case1 => cases h
  | case2 s =>
    obtain rfl : n = 2 := (Option.some.inj h).symm
    refine ⟨List.suffix_rfl, ?_⟩
    intro a b hab
    have hlen := congrArg List.length hab
    simp only [List.take_succ_cons, List.take_zero, List.length_append, List.length_cons,
      List.length_nil] at hlen
    exact List.length_eq_zero_iff.1 (by omega)
  | case3 c s hnot ih =>
    obtain ⟨m, hm, rfl⟩ := Option.map_eq_some_iff.1 h
    obtain ⟨hsuffix, hfirst⟩ := ih hm
    rw [List.take_succ_cons]
    refine ⟨hsuffix.trans (List.suffix_cons c _), ?_⟩
    intro a b hab
    cases a with
    | nil =>
      obtain ⟨rfl, hslash⟩ := List.cons.inj hab
      have hprefix : '/' :: b <+: s := hslash ▸ List.take_prefix m s
      obtain ⟨r, hr⟩ := hprefix
      exact absurd hr.symm (hnot (b ++ r) rfl)
    | cons d a => exact hfirst a b (List.cons.inj hab).2

theorem blockEnd?_eq_none {s : Text} (h : blockEnd? s = none) (a b : Text) :
    s ≠ a ++ '*' :: '/' :: b := by
  fun_induction blockEnd? s generalizing a with
  | case1 => simp
  | case2 s => cases h
  | case3 c s hnot ih =>
    rintro hab
    cases a with
    | nil =>
      obtain ⟨rfl, hslash⟩ := List.cons.inj hab
      exact hnot b rfl hslash
    | cons d a => exact ih (Option.map_eq_none_iff.1 h) a (List.cons.inj hab).2

end Lexeme

/-! ## What is read at a place -/

/-- A reading at the character `c` makes a token of the shape of its kind. -/
def Reading.Shaped (c : Char) (s : Text) : Reading → Prop
  | lexeme kind n => Lexeme.Shape kind (c :: s.take n) (s.drop n)
  | unterminated kind _ => Lexeme.Shape kind (c :: s) []
  | stray => True

namespace Lexeme

theorem shaped_readHtml (short : Bool) (c : Char) (s : Text) : (readHtml short c s).Shaped c s := by
  rw [readHtml]
  split <;> trivial

theorem shape_of_blockComment {s body text rest : Text} (h : BlockCommentShape body text rest)
    (hbody : isDocOpening s = true → ∃ c b, isGap c = true ∧ body = '*' :: c :: b) :
    Shape (if isDocOpening s then .docComment else .comment) text rest := by
  by_cases hdoc : isDocOpening s = true
  · obtain ⟨c, b, hc, rfl⟩ := hbody hdoc
    rw [if_pos hdoc]
    exact ⟨c, b, hc, h⟩
  · rw [if_neg hdoc]
    exact .inr ⟨body, h⟩

theorem exists_of_isDocOpening {s : Text} (h : isDocOpening s = true) :
    ∃ c r, s = '*' :: c :: r ∧ isGap c = true := by
  unfold isDocOpening at h
  split at h
  · exact ⟨_, _, rfl, h⟩
  · cases h

theorem shaped_readBlockComment (s : Text) : (readBlockComment s).Shaped '/' ('*' :: s) := by
  rw [readBlockComment]
  cases hend : blockEnd? s with
  | none =>
    refine shape_of_blockComment ⟨rfl, .inr rfl, ?_⟩ ?_
    · intro a b hab
      exact absurd hab (blockEnd?_eq_none hend a b)
    · intro hdoc
      obtain ⟨c, r, rfl, hc⟩ := exists_of_isDocOpening hdoc
      exact ⟨c, r, hc, rfl⟩
  | some n =>
    obtain ⟨hsuffix, hfirst⟩ := blockEnd?_eq_some hend
    refine shape_of_blockComment ⟨rfl, .inl hsuffix, hfirst⟩ ?_
    intro hdoc
    obtain ⟨c, r, rfl, hc⟩ := exists_of_isDocOpening hdoc
    obtain ⟨m, rfl⟩ := Nat.exists_eq_add_of_le (two_le_of_blockEnd? hend)
    rw [Nat.add_comm]
    exact ⟨c, r.take m, hc, rfl⟩

theorem shaped_readQuoted (frame : Frame) (c : Char) (s : Text) :
    (readQuoted frame s).Shaped c s := by
  rw [readQuoted]
  cases quotedEnd? [frame] s <;> trivial

theorem shaped_readHeredoc? (c : Char) (s : Text) :
    ((readHeredoc? (s.drop 2)).getD (.lexeme .other 0)).Shaped c s := by
  rw [readHeredoc?]
  rcases heredocOpening? (s.drop 2) with _ | ⟨marker, body⟩
  · trivial
  · cases h : heredocEnd? marker true body with
    | none => simp [h, Reading.Shaped, Shape]
    | some n => simp [h, Reading.Shaped, Shape]

/-- The kinds of signs that have one text or a few. -/
theorem shape_of_spelled {kind : Kind} {text rest : Text} (h : SignShape kind text rest) :
    Shape kind text rest := by
  have hspelled := h.spelled
  cases kind with
  | whitespace | variableName | name | keyword k | comment | docComment => cases hspelled
  | inlineHtml | openTag | closeTag | number | string | other => trivial
  | _ => exact h

/-- Of two signs that begin with a character, the longer one stands first. -/
theorem pairwise_longerSigns (c : Char) :
    (longerSigns c).Pairwise fun p q => q.1.length ≤ p.1.length := by
  unfold longerSigns
  split <;> decide

theorem mem_spellings_of_mem_longerSigns {c : Char} {p : Text × Kind} (h : p ∈ longerSigns c) :
    p.2 = .other ∨ c :: p.1 ∈ spellings p.2 := by
  unfold longerSigns at h
  split at h
  case h_8 => cases h
  all_goals
    revert p
    decide

theorem mem_spellings_plainSign (c : Char) :
    plainSign c = .other ∨ [c] ∈ spellings (plainSign c) := by
  unfold plainSign
  split <;> first | exact .inl rfl | exact .inr (by decide)

theorem shaped_readSign (c : Char) (s : Text) : (readSign c s).Shaped c s := by
  rw [readSign]
  split
  · trivial
  · rw [sign]
    cases hfind : (longerSigns c).find? fun p => p.1.isPrefixOf s with
    | none =>
      rcases mem_spellings_plainSign c with hother | hspelled
      · simp [hother, Reading.Shaped, Shape]
      · refine shape_of_spelled ⟨hspelled, ?_⟩
        intro d w hw p hp _ hfront
        obtain ⟨rfl, rfl⟩ := List.cons.inj hw
        have hnot := List.find?_eq_none.1 hfind p hp
        exact hnot (List.isPrefixOf_iff_prefix.2 hfront)
    | some p =>
      obtain ⟨hfront, before, after, hsplit, hbefore⟩ := List.find?_eq_some_iff_append.1 hfind
      obtain ⟨rest, rfl⟩ := List.isPrefixOf_iff_prefix.1 hfront
      have hmem : p ∈ longerSigns c := List.mem_of_find?_eq_some hfind
      simp only [Reading.Shaped, List.take_left, List.drop_left]
      rcases mem_spellings_of_mem_longerSigns hmem with hother | hspelled
      · rw [hother]
        trivial
      · refine shape_of_spelled ⟨hspelled, ?_⟩
        intro d w hw q hq hlt hfront
        obtain ⟨rfl, rfl⟩ := List.cons.inj hw
        have hpairs := pairwise_longerSigns c
        rw [hsplit] at hq hpairs
        rcases List.mem_append.1 hq with hq | hq
        · have hnot := hbefore q hq
          rw [Bool.not_eq_true', ← Bool.not_eq_true, List.isPrefixOf_iff_prefix] at hnot
          exact hnot hfront
        · rcases List.mem_cons.1 hq with rfl | hq
          · exact Nat.lt_irrefl _ hlt
          · have hle := (List.pairwise_cons.1 (List.pairwise_append.1 hpairs).2.1).1 q hq
            exact absurd hlt (Nat.not_lt.2 hle)

theorem shape_wordKind {text rest : Text} (h : NameShape text rest) (a : Bool)
    (word behind : Text) : Shape (wordKind a word behind) text rest := by
  rcases wordKind_cases a word behind with hkind | ⟨k, hkind⟩
  · rw [hkind]
    exact h
  · rw [hkind]
    exact h

theorem shaped_readName (a : Bool) {c : Char} {s : Text} (h : BeginsName c s) :
    (readName a c s).Shaped c s :=
  shape_wordKind (nameShape_cons h) a _ _

theorem take_runLength (p : Char → Bool) (s : Text) : s.take (runLength p s) = s.takeWhile p :=
  (List.prefix_iff_eq_take.1 (List.takeWhile_prefix p)).symm

theorem drop_runLength (p : Char → Bool) (s : Text) : s.drop (runLength p s) = s.dropWhile p := by
  have hsplit := List.take_append_drop (runLength p s) s
  conv_rhs at hsplit => rw [← List.takeWhile_append_dropWhile (p := p) (l := s)]
  rw [take_runLength] at hsplit
  exact List.append_cancel_left hsplit

theorem exists_cons_of_startsWith {d : Char} {s : Text} (h : startsWith (· == d) s = true) :
    ∃ r, s = d :: r := by
  cases s with
  | nil => cases h
  | cons c r => exact ⟨r, congrArg (· :: r) (beq_iff_eq.1 h)⟩

/-- An attribute opener is a sign although it is not looked up among the signs. -/
theorem signShape_attributeOpener (rest : Text) : SignShape .attributeOpener ['#', '['] rest where
  spelled := List.mem_singleton.2 rfl
  longest := by
    intro c w hw p hp
    obtain ⟨rfl, -⟩ := List.cons.inj hw
    cases hp

theorem shaped_readMark (a : Bool) (c : Char) (s : Text) : (readMark a c s).Shaped c s := by
  unfold readMark
  split
  case h_1 =>
    split
    · trivial
    · exact shaped_readSign _ _
  case h_2 =>
    split
    · rename_i hbracket
      obtain ⟨r, rfl⟩ := exists_cons_of_startsWith hbracket
      exact signShape_attributeOpener r
    · exact .inl (lineCommentShape (.inl rfl) s)
  case h_3 =>
    split
    · rename_i hslash
      obtain ⟨r, rfl⟩ := exists_cons_of_startsWith hslash
      rw [List.drop_one, List.tail_cons, Nat.add_comm]
      exact .inl (lineCommentShape (.inr rfl) r)
    split
    · rename_i hstar
      obtain ⟨r, rfl⟩ := exists_cons_of_startsWith hstar
      exact shaped_readBlockComment r
    · exact shaped_readSign _ _
  case h_4 =>
    split
    · rename_i hstart
      refine ⟨⟨s.take (identTail s), rfl, ?_⟩, ?_⟩
      · rw [identTail, take_runLength]
        exact isIdentifier_identAt hstart
      · rw [identTail, drop_runLength, ← startsWith_isIdentChar]
        exact startsWith_dropWhile _ s
    · exact shaped_readSign _ _
  case h_5 =>
    split
    · rename_i hstart
      exact shaped_readName a (.inr ⟨rfl, hstart⟩)
    · exact shaped_readSign _ _
  case h_6 =>
    split
    · trivial
    · exact shaped_readSign _ _
  case h_7 | h_8 | h_9 => exact shaped_readQuoted _ _ _
  case h_10 =>
    split
    · exact shaped_readHeredoc? _ _
    · exact shaped_readSign _ _
  case h_11 => exact shaped_readSign _ _

theorem shaped_readCode (a : Bool) (c : Char) (s : Text) : (readCode a c s).Shaped c s := by
  rw [readCode]
  split
  · rename_i hspace
    refine ⟨by simp, ?_, ?_⟩
    · intro d hd
      rw [take_runLength, List.mem_cons] at hd
      rcases hd with rfl | hd
      · exact hspace
      · exact List.all_eq_true.1 List.all_takeWhile d hd
    · intro d hd
      have hhead := List.head?_dropWhile_not isSpace s
      rw [drop_runLength] at hd
      rw [hd] at hhead
      simpa using hhead
  split
  · rename_i hstart
    exact shaped_readName a (.inl hstart)
  split
  · trivial
  · exact shaped_readMark a c s

/-- What is read at a place has the shape of its kind. -/
theorem shaped_read (short : Bool) (m : Mode) (c : Char) (s : Text) :
    (read short m c s).Shaped c s := by
  cases m with
  | html => exact shaped_readHtml short c s
  | code a => exact shaped_readCode a c s

end Lexeme

theorem Reading.Shaped.shape {r : Reading} {c : Char} {s text : Text} {kind : Kind}
    {fault : Option Fault} (h : r.Shaped c s) (hp : r.piece c s = .token kind text fault) :
    Lexeme.Shape kind text (s.drop (r.claims s)) := by
  cases r with
  | lexeme k n =>
    obtain ⟨rfl, rfl, -⟩ := Piece.token.inj hp
    exact h
  | unterminated k f =>
    obtain ⟨rfl, rfl, -⟩ := Piece.token.inj hp
    rw [claims, List.drop_length]
    exact h
  | stray => cases hp

/-! ## The whole source -/

/-- Every token of a source has the shape of its kind, in front of the text behind it. -/
def Lexed.Shaped (source : Text) (l : Lexed) : Prop :=
  ∀ t ∈ l.tokens, Lexeme.Shape t.kind t.text (source.dropBytes t.stop)

/-- Every token of a source has the shape of its kind. -/
theorem lex_shaped (o : Options) (source : Text) : (lex o source).Shaped (unmarked source) := by
  intro t ht
  obtain ⟨before, fault, after, hps, hoffset⟩ := mem_placed ht
  have hrest := pieces_of_append hps
  cases hs : textOf (.token t.kind t.text fault :: after) with
  | nil => simp [hs] at hrest
  | cons c r =>
    rw [hs, pieces_cons, List.cons.injEq] at hrest
    obtain ⟨hpiece, hafter⟩ := hrest
    have htext := congrArg textOf hafter
    rw [textOf_pieces] at htext
    rw [dropBytes_stop hps hoffset, htext]
    exact (Lexeme.shaped_read _ _ c r).shape hpiece.symm

end PhpOutline
