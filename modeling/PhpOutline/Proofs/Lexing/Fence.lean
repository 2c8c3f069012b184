import Mathlib.Data.List.Find
import PhpOutline.Proofs.Lexing.Bounds

/-!
# Lexemes in front of a fence

A separator or a closing bracket continues no word, number, string, comment, heredoc, sign or tag
that ends before it. For each kind of lexeme, its length in a text is the same when such a character
and anything else follow the text. The same holds of a blank with a sign behind it, which can only
lengthen white space.

## Main definitions

* `Lexeme.isFence`: the separators and closing brackets; `Lexeme.isStop`: these and the blank.
* `Lexeme.Separates`: a text that continues no lexeme in front of it, white space apart.

## Main statements

* `Lexeme.separates_fence`, `Lexeme.separates_blank`: the texts that begin with a fence, and those
  that begin with a blank in front of a sign.
* `Lexeme.readName_append`, `Lexeme.readBlockComment_append`, `Lexeme.readQuoted_append`,
  `Lexeme.readHeredoc?_append`, `Lexeme.readSign_append_cons`, `Lexeme.openTag?_append_cons`:
  what each reader finds in front of such a text.
-/

namespace PhpOutline

namespace Lexeme

/-- The separators and closing brackets. -/
def isFence (c : Char) : Bool := c == ',' || c == ';' || c == ')' || c == '}' || c == ']'

theorem isFence_cases {d : Char} (h : isFence d = true) :
    d = ',' ∨ d = ';' ∨ d = ')' ∨ d = '}' ∨ d = ']' := by
  simpa [isFence, or_assoc] using h

theorem isSpace_of_isFence {d : Char} (h : isFence d = true) : isSpace d = false := by
  rcases isFence_cases h with rfl | rfl | rfl | rfl | rfl <;> rfl

theorem isGap_of_isFence {d : Char} (h : isFence d = true) : isGap d = false := by
  rcases isFence_cases h with rfl | rfl | rfl | rfl | rfl <;> rfl

theorem isIndent_of_isFence {d : Char} (h : isFence d = true) : isIndent d = false := by
  rcases isFence_cases h with rfl | rfl | rfl | rfl | rfl <;> rfl

/-- The separators, the closing brackets and the blank. -/
def isStop (c : Char) : Bool := isFence c || c == ' '

theorem isStop_of_isFence {d : Char} (h : isFence d = true) : isStop d = true := by
  rw [isStop, h, Bool.true_or]

theorem isStop_cases {d : Char} (h : isStop d = true) :
    d = ',' ∨ d = ';' ∨ d = ')' ∨ d = '}' ∨ d = ']' ∨ d = ' ' := by
  simpa [isStop, isFence, or_assoc] using h

theorem isIdentChar_of_isStop {d : Char} (h : isStop d = true) : isIdentChar d = false := by
  rcases isStop_cases h with rfl | rfl | rfl | rfl | rfl | rfl <;> rfl

theorem isIdentStart_of_isStop {d : Char} (h : isStop d = true) : isIdentStart d = false := by
  rcases isStop_cases h with rfl | rfl | rfl | rfl | rfl | rfl <;> rfl

theorem isAlphanum_of_isStop {d : Char} (h : isStop d = true) : d.isAlphanum = false := by
  rcases isStop_cases h with rfl | rfl | rfl | rfl | rfl | rfl <;> rfl

theorem ne_of_isStop {d e : Char} (h : isStop d = true) (he : isStop e = false) : d ≠ e := by
  rintro rfl
  rw [h] at he
  exact absurd he (by simp)

/-! ## Runs of characters -/

theorem takeWhile_append_cons {p : Char → Bool} {d : Char} (hd : p d = false) (s t : Text) :
    (s ++ d :: t).takeWhile p = s.takeWhile p := by
  induction s with
  | nil => simp [hd]
  | cons c s ih =>
    by_cases hc : p c = true
    · simp [hc, ih]
    · simp [hc]

theorem dropWhile_append_cons {p : Char → Bool} {d : Char} (hd : p d = false) (s t : Text) :
    (s ++ d :: t).dropWhile p = s.dropWhile p ++ d :: t := by
  induction s with
  | nil => simp [hd]
  | cons c s ih =>
    by_cases hc : p c = true
    · simp [hc, ih]
    · simp [hc]

theorem runLength_append_cons {p : Char → Bool} {d : Char} (hd : p d = false) (s t : Text) :
    runLength p (s ++ d :: t) = runLength p s := by
  rw [runLength, runLength, takeWhile_append_cons hd]

theorem startsWith_append_cons {p : Char → Bool} {d : Char} (hd : p d = false) (s t : Text) :
    startsWith p (s ++ d :: t) = startsWith p s := by
  cases s with
  | nil => simp [startsWith, hd]
  | cons c s => rfl

/-! ## Words and numbers -/

theorem nameTail_append_cons {d : Char} (hd : isIdentChar d = false) (hb : d ≠ '\\')
    (ho : d ≠ '{') (s t : Text) : nameTail (s ++ d :: t) = nameTail s := by
  have hs : isIdentStart d = false := by
    simp only [isIdentChar, Bool.or_eq_false_iff] at hd
    exact hd.1
  induction s with
  | nil => simp [nameTail, hd, hb]
  | cons c s ih =>
    simp only [List.cons_append, nameTail, ih, startsWith_append_cons hs,
      startsWith_append_cons (p := (· == '{')) (by simpa using ho)]

theorem numberTail_append_cons {d : Char} (hd : d.isAlphanum = false) (hu : d ≠ '_')
    (hp : d ≠ '.') (hplus : d ≠ '+') (hminus : d ≠ '-') (hex : Bool) (prev : Char) (s t : Text) :
    numberTail hex prev (s ++ d :: t) = numberTail hex prev s := by
  have hdigit : d.isDigit = false := by
    simp only [Char.isAlphanum, Bool.or_eq_false_iff] at hd
    exact hd.2
  induction s generalizing prev with
  | nil => simp [numberTail, hd, hu, hp, hplus, hminus]
  | cons c s ih => simp only [List.cons_append, numberTail, ih, startsWith_append_cons hdigit]

theorem enumFollows_append_cons {d : Char} (hg : isGap d = false) (hi : isIdentChar d = false)
    (s t : Text) : enumFollows (s ++ d :: t) = enumFollows s := by
  have hs : isIdentStart d = false := by
    simp only [isIdentChar, Bool.or_eq_false_iff] at hi
    exact hi.1
  simp only [enumFollows, identAt, dropWhile_append_cons hg, startsWith_append_cons hg,
    startsWith_append_cons hs, takeWhile_append_cons hi]

theorem wordKind_congr {rest rest' : Text} (h : enumFollows rest = enumFollows rest') (a : Bool)
    (word : Text) : wordKind a word rest = wordKind a word rest' := by
  simp only [wordKind, h]

/-! ## Comments -/

/-- A line comment that ends inside a text ends there whatever follows. -/
theorem lineCommentTail_append {s : Text} (h : lineCommentTail s < s.length) (t : Text) :
    lineCommentTail (s ++ t) = lineCommentTail s := by
  fun_induction lineCommentTail s with
  | case1 => simp at h
  | case2 s => simp [lineCommentTail]
  | case3 s => simp [lineCommentTail]
  | case4 c s hn hc ih =>
    have hs : lineCommentTail s < s.length := by simpa using h
    rw [List.cons_append, lineCommentTail, ih hs]
    · exact hn
    · rintro s' rfl hs'
      cases s with
      | nil => simp at hs
      | cons d s =>
        simp only [List.cons_append, List.cons.injEq] at hs'
        exact hc s rfl (by rw [hs'.1])

theorem blockEnd?_append {s : Text} {n : Nat} (h : blockEnd? s = some n) (t : Text) :
    blockEnd? (s ++ t) = some n := by
  fun_induction blockEnd? s generalizing n with
  | case1 => simp at h
  | case2 s => simpa [blockEnd?] using h
  | case3 c s hc ih =>
    obtain ⟨m, hm, rfl⟩ := Option.map_eq_some_iff.1 h
    rw [List.cons_append, blockEnd?, ih hm]
    · rfl
    · rintro s' rfl hs'
      cases s with
      | nil => simp [blockEnd?] at hm
      | cons d s =>
        simp only [List.cons_append, List.cons.injEq] at hs'
        exact hc s rfl (by rw [hs'.1])

theorem isDocOpening_cons_cons (c d : Char) (s : Text) :
    isDocOpening (c :: d :: s) = (c == '*' && isGap d) := by
  by_cases hc : c = '*'
  · simp [hc, isDocOpening]
  · simp [hc, isDocOpening]

theorem readBlockComment_append {s : Text} {kind : Kind} {n : Nat}
    (h : readBlockComment s = .lexeme kind n) (t : Text) :
    readBlockComment (s ++ t) = .lexeme kind n := by
  rw [readBlockComment] at h ⊢
  cases hend : blockEnd? s with
  | none => simp [hend] at h
  | some m =>
    -- a comment with an end has two characters at least, which decide whether it is a doc comment
    have hdoc : isDocOpening (s ++ t) = isDocOpening s := by
      rcases s with _ | ⟨c, _ | ⟨d, s⟩⟩
      · simp [blockEnd?] at hend
      · simp [blockEnd?] at hend
      · simp only [List.cons_append, isDocOpening_cons_cons]
    simpa [hend, blockEnd?_append hend t, hdoc] using h

/-! ## Quoted strings -/

theorem quotedEnd?_single_cons {outer : List Frame} {c : Char} (hc : c ≠ '\\') (s : Text) :
    quotedEnd? (.single :: outer) (c :: s) =
      (quotedEnd? (if c = '\'' then outer else .single :: outer) s).map (· + 1) := by
  rw [quotedEnd?.eq_def]
  simp only [if_neg hc]
  split <;> rfl

theorem quotedEnd?_interpolated_cons {quote : Char} {outer : List Frame} {c : Char}
    (hc : c ≠ '\\') (s : Text) :
    quotedEnd? (.interpolated quote :: outer) (c :: s) =
      (quotedEnd? (if c = '{' ∧ s.head? = some '$' then .braces :: .interpolated quote :: outer
        else if c = quote then outer else .interpolated quote :: outer) s).map (· + 1) := by
  rw [quotedEnd?.eq_def]
  simp only [if_neg hc]
  split
  · rfl
  · split <;> rfl

theorem quotedEnd?_append {frames : List Frame} {s : Text} {n : Nat}
    (h : quotedEnd? frames s = some n) {d : Char} (hd : d ≠ '$') (t : Text) :
    quotedEnd? frames (s ++ d :: t) = some n := by
  have hhead : ∀ s : Text, (s ++ d :: t).head? = some '$' ↔ s.head? = some '$' := by
    intro s
    cases s with
    | nil => simpa using hd
    | cons c s => simp
  fun_induction quotedEnd? frames s generalizing n
  case case1 => simpa [quotedEnd?] using h
  case case2 | case3 | case7 => simp at h
  all_goals
    rename_i ih
    obtain ⟨m, hm, rfl⟩ := Option.map_eq_some_iff.1 h
  case case9 | case10 | case11 =>
    rw [List.cons_append, quotedEnd?_interpolated_cons ‹_›]
    simp only [hhead]
    simp [ih hm, *]
  all_goals simp [quotedEnd?, quotedEnd?_single_cons, ih hm, *]

theorem readQuoted_append {frame : Frame} {s : Text} {kind : Kind} {n : Nat}
    (h : readQuoted frame s = .lexeme kind n) {d : Char} (hd : d ≠ '$') (t : Text) :
    readQuoted frame (s ++ d :: t) = .lexeme kind n := by
  rw [readQuoted] at h ⊢
  cases hend : quotedEnd? [frame] s with
  | none => simp [hend] at h
  | some m => simpa [hend, quotedEnd?_append hend hd t] using h

/-! ## Heredocs -/

theorem openingQuote_append_cons {d : Char} (hs : d ≠ '\'') (hq : d ≠ '"') (s t : Text) :
    openingQuote (s ++ d :: t) = ((openingQuote s).1, (openingQuote s).2 ++ d :: t) := by
  cases s with
  | nil => simp [openingQuote, hs, hq]
  | cons c s =>
    by_cases h₁ : c = '\''
    · simp [openingQuote, h₁]
    · by_cases h₂ : c = '"'
      · simp [openingQuote, h₂]
      · simp [openingQuote, h₁, h₂]

theorem openingQuote_quote {s : Text} {q : Char} (h : (openingQuote s).1 = some q) :
    q = '\'' ∨ q = '"' := by
  unfold openingQuote at h
  split at h
  · exact .inl (by simpa using h.symm)
  · exact .inr (by simpa using h.symm)
  · simp at h

theorem afterQuote?_append_cons {quote : Option Char} {d : Char} (hd : ∀ q ∈ quote, d ≠ q)
    (s t : Text) : afterQuote? quote (s ++ d :: t) = (afterQuote? quote s).map (· ++ d :: t) := by
  cases quote with
  | none => rfl
  | some q =>
    cases s with
    | nil => simp [afterQuote?, Text.stripOne, hd q rfl]
    | cons c s =>
      simp only [afterQuote?, List.cons_append, Text.stripOne]
      split <;> rfl

theorem afterLineEnd?_append_cons {d : Char} (hn : d ≠ '\n') (hr : d ≠ '\r') (s t : Text) :
    afterLineEnd? (s ++ d :: t) = (afterLineEnd? s).map (· ++ d :: t) := by
  match s with
  | [] => simp [afterLineEnd?, hn, hr]
  | [c] =>
    by_cases h₁ : c = '\n'
    · simp [afterLineEnd?, h₁]
    · simp [afterLineEnd?, h₁, hn]
  | c :: e :: s =>
    by_cases h₁ : c = '\n'
    · simp [afterLineEnd?, h₁]
    · by_cases h₂ : c = '\r'
      · by_cases h₃ : e = '\n'
        · simp [afterLineEnd?, h₂, h₃]
        · simp [afterLineEnd?, h₂, h₃]
      · simp [afterLineEnd?, h₁, h₂]

/-- The marker of a heredoc with the text behind it, on the opening line or not. -/
def heredocHead? (s : Text) : Option (Text × Text) :=
  let (quote, rest) := openingQuote (s.dropWhile isIndent)
  if startsWith isIdentStart rest then
    (afterQuote? quote (rest.dropWhile isIdentChar)).map fun after => (identAt rest, after)
  else none

theorem heredocOpening?_eq_bind (s : Text) :
    heredocOpening? s =
      (heredocHead? s).bind fun p => (afterLineEnd? p.2).map fun body => (p.1, body) := by
  simp only [heredocOpening?, heredocHead?]
  split
  · cases afterQuote? (openingQuote (s.dropWhile isIndent)).1
        ((openingQuote (s.dropWhile isIndent)).2.dropWhile isIdentChar) with
    | none => rfl
    | some rest => cases h : afterLineEnd? rest <;> simp [h]
  · rfl

/-- What follows on the opening line leaves the marker alone, if it does not join the blanks in
front of the marker. -/
theorem heredocHead?_append_of_dropWhile {d : Char} {s t : Text}
    (hdrop : (s ++ d :: t).dropWhile isIndent = s.dropWhile isIndent ++ d :: t)
    (hident : isIdentChar d = false) (hsingle : d ≠ '\'') (hdouble : d ≠ '"') :
    heredocHead? (s ++ d :: t) = (heredocHead? s).map fun p => (p.1, p.2 ++ d :: t) := by
  have hstart : isIdentStart d = false := by
    simp only [isIdentChar, Bool.or_eq_false_iff] at hident
    exact hident.1
  have hquote : ∀ q ∈ (openingQuote (s.dropWhile isIndent)).1, d ≠ q := by
    intro q hq
    rcases openingQuote_quote hq with rfl | rfl
    · exact hsingle
    · exact hdouble
  simp only [heredocHead?, hdrop,
    openingQuote_append_cons hsingle hdouble, startsWith_append_cons hstart,
    dropWhile_append_cons hident, identAt, takeWhile_append_cons hident,
    afterQuote?_append_cons hquote]
  split
  · rw [Option.map_map, Option.map_map]
    rfl
  · rfl

theorem heredocHead?_append_cons {d : Char} (hindent : isIndent d = false)
    (hident : isIdentChar d = false) (hsingle : d ≠ '\'') (hdouble : d ≠ '"') (s t : Text) :
    heredocHead? (s ++ d :: t) = (heredocHead? s).map fun p => (p.1, p.2 ++ d :: t) :=
  heredocHead?_append_of_dropWhile (dropWhile_append_cons hindent s t) hident hsingle hdouble

/-- A stop on the opening line makes no heredoc of what is none, and leaves one its body. -/
theorem heredocOpening?_append_of_head {d : Char} (hd : isStop d = true) {s t : Text}
    (h : heredocHead? (s ++ d :: t) = (heredocHead? s).map fun p => (p.1, p.2 ++ d :: t)) :
    heredocOpening? (s ++ d :: t) =
      (heredocOpening? s).map fun p => (p.1, p.2 ++ d :: t) := by
  rw [heredocOpening?_eq_bind, heredocOpening?_eq_bind, h]
  cases heredocHead? s with
  | none => rfl
  | some p =>
    simp only [Option.map_some, Option.bind_some,
      afterLineEnd?_append_cons (ne_of_isStop hd rfl) (ne_of_isStop hd rfl), Option.map_map]
    rfl

theorem marker_ne_nil {s marker body : Text} (h : heredocOpening? s = some (marker, body)) :
    marker ≠ [] := by
  rw [heredocOpening?] at h
  simp only at h
  split at h
  · rename_i hstart
    simp only [Option.bind_eq_bind, Option.bind_eq_some_iff, Option.pure_def, Option.some.injEq,
      Prod.mk.injEq] at h
    obtain ⟨_, _, _, _, rfl, _⟩ := h
    generalize (openingQuote (s.dropWhile isIndent)).2 = rest at hstart
    cases rest with
    | nil => simp [startsWith] at hstart
    | cons c r =>
      have hc : isIdentChar c = true := by
        rw [isIdentChar, show isIdentStart c = true from hstart, Bool.true_or]
      simp [identAt, hc]
  · simp at h

theorem isIdentChar_of_mem_marker {s marker body : Text}
    (h : heredocOpening? s = some (marker, body)) : ∀ c ∈ marker, isIdentChar c = true := by
  rw [heredocOpening?] at h
  simp only at h
  split at h
  · simp only [Option.bind_eq_bind, Option.bind_eq_some_iff, Option.pure_def, Option.some.injEq,
      Prod.mk.injEq] at h
    obtain ⟨_, _, _, _, rfl, _⟩ := h
    intro c hc
    exact List.all_eq_true.1 List.all_takeWhile c hc
  · simp at h

theorem isPrefixOf_append_cons {marker : Text} {d : Char} (hd : d ∉ marker) (s t : Text) :
    marker.isPrefixOf (s ++ d :: t) = marker.isPrefixOf s := by
  induction marker generalizing s with
  | nil => simp
  | cons c marker ih =>
    simp only [List.mem_cons, not_or] at hd
    cases s with
    | nil => simp [List.isPrefixOf, Ne.symm hd.1]
    | cons e s => simp [List.isPrefixOf, ih hd.2]

theorem notMem_marker {marker : Text} (hmarker : ∀ c ∈ marker, isIdentChar c = true) {d : Char}
    (hident : isIdentChar d = false) : d ∉ marker := by
  intro hm
  rw [hmarker d hm] at hident
  exact absurd hident (by simp)

theorem closingLine?_append_of_dropWhile {marker : Text} {d : Char} {s t : Text}
    (hdrop : (s ++ d :: t).dropWhile isIndent = s.dropWhile isIndent ++ d :: t)
    (hmarker : ∀ c ∈ marker, isIdentChar c = true) (hident : isIdentChar d = false) :
    closingLine? marker (s ++ d :: t) = closingLine? marker s := by
  have hrun : runLength isIndent (s ++ d :: t) = runLength isIndent s := by
    have h₁ := congrArg List.length (@List.takeWhile_append_dropWhile _ isIndent (s ++ d :: t))
    have h₂ := congrArg List.length (@List.takeWhile_append_dropWhile _ isIndent s)
    rw [hdrop] at h₁
    simp only [List.length_append] at h₁ h₂
    simp only [runLength]
    omega
  simp only [closingLine?, hdrop, isPrefixOf_append_cons (notMem_marker hmarker hident), hrun]
  by_cases hp : marker <+: s.dropWhile isIndent
  · rw [List.drop_append_of_le_length hp.length_le, startsWith_append_cons hident]
  · simp [List.isPrefixOf_iff_prefix, hp]

/-- A heredoc has the same end in front of a text that makes no closing line. -/
theorem heredocEnd?_append {marker x : Text}
    (hx : ∀ s, closingLine? marker (s ++ x) = closingLine? marker s) {fresh : Bool} {s : Text}
    {n : Nat} (h : heredocEnd? marker fresh s = some n) :
    heredocEnd? marker fresh (s ++ x) = some n := by
  induction s generalizing fresh n with
  | nil => simp [heredocEnd?] at h
  | cons c s ih =>
    have hline := hx (c :: s)
    rw [List.cons_append] at hline ⊢
    rw [heredocEnd?, hline]
    rw [heredocEnd?] at h
    split at h
    · exact h
    · obtain ⟨m, hm, rfl⟩ := Option.map_eq_some_iff.1 h
      simp [ih hm]

theorem heredocEnd?_append_cons {marker : Text} {d : Char}
    (hmarker : ∀ c ∈ marker, isIdentChar c = true) (hident : isIdentChar d = false)
    (hindent : isIndent d = false) {fresh : Bool} {s : Text} {n : Nat}
    (h : heredocEnd? marker fresh s = some n) (t : Text) :
    heredocEnd? marker fresh (s ++ d :: t) = some n :=
  heredocEnd?_append (fun _ => closingLine?_append_of_dropWhile (dropWhile_append_cons hindent _ _)
    hmarker hident) h

/-! ## Texts that continue no lexeme -/

/-- A text that continues no lexeme in front of it, white space apart. It begins with a stop; it
makes no keyword of a word `enum`, opens no heredoc and closes none. -/
structure Separates (x : Text) : Prop where
  head : ∃ d t, isStop d = true ∧ x = d :: t
  enumFollows (s : Text) : enumFollows (s ++ x) = enumFollows s
  heredocOpening (s : Text) :
    heredocOpening? (s ++ x) = (heredocOpening? s).map fun p => (p.1, p.2 ++ x)
  closingLine {marker : Text} (hne : marker ≠ []) (hmarker : ∀ c ∈ marker, isIdentChar c = true)
    (s : Text) : closingLine? marker (s ++ x) = closingLine? marker s

theorem separates_fence {d : Char} (hd : isFence d = true) (t : Text) : Separates (d :: t) where
  head := ⟨d, t, isStop_of_isFence hd, rfl⟩
  enumFollows s := enumFollows_append_cons (isGap_of_isFence hd)
    (isIdentChar_of_isStop (isStop_of_isFence hd)) s t
  heredocOpening s := by
    have hstop := isStop_of_isFence hd
    exact heredocOpening?_append_of_head hstop (heredocHead?_append_cons (isIndent_of_isFence hd)
      (isIdentChar_of_isStop hstop) (ne_of_isStop hstop rfl) (ne_of_isStop hstop rfl) s t)
  closingLine _ hmarker s :=
    closingLine?_append_of_dropWhile (dropWhile_append_cons (isIndent_of_isFence hd) s t) hmarker
      (isIdentChar_of_isStop (isStop_of_isFence hd))

/-- Behind a run of a class that a blank belongs to, the blank joins the run, and otherwise it is
left where it stands. -/
theorem dropWhile_append_blank {p : Char → Bool} {d : Char} (hblank : p ' ' = true)
    (hd : p d = false) (s t : Text) :
    s.dropWhile p = [] ∧ (s ++ ' ' :: d :: t).dropWhile p = d :: t ∨
      s.dropWhile p ≠ [] ∧ (s ++ ' ' :: d :: t).dropWhile p = s.dropWhile p ++ ' ' :: d :: t := by
  rw [List.dropWhile_append]
  by_cases h : s.dropWhile p = []
  · left
    simp [h, hblank, hd]
  · right
    simp [h]

/-- A sign that can stand behind a blank: it is no white space, and belongs to no word and no
string. -/
structure StandsApart (d : Char) : Prop where
  space : isSpace d = false
  ident : isIdentChar d = false
  single : d ≠ '\''
  double : d ≠ '"'

namespace StandsApart

variable {d : Char} (h : StandsApart d)

include h

theorem gap : isGap d = false := by
  have hspace := h.space
  simp only [isSpace, Bool.or_eq_false_iff] at hspace
  simp only [isGap, isIndent, Bool.or_eq_false_iff]
  obtain ⟨⟨⟨⟨⟨hblank, htab⟩, hline⟩, hreturn⟩, -⟩, -⟩ := hspace
  exact ⟨⟨⟨hblank, htab⟩, hline⟩, hreturn⟩

theorem indent : isIndent d = false := by
  have hgap := h.gap
  simp only [isGap, Bool.or_eq_false_iff] at hgap
  exact hgap.1.1

theorem identStart : isIdentStart d = false := by
  have hident := h.ident
  simp only [isIdentChar, Bool.or_eq_false_iff] at hident
  exact hident.1

end StandsApart

theorem separates_blank {d : Char} (hd : StandsApart d) (t : Text) : Separates (' ' :: d :: t) where
  head := ⟨' ', d :: t, rfl, rfl⟩
  enumFollows s := by
    have hstart := hd.identStart
    rcases dropWhile_append_blank rfl hd.gap s t with ⟨hnil, hdrop⟩ | ⟨hne, hdrop⟩
    · simp [Lexeme.enumFollows, hnil, hdrop, startsWith, hstart]
    · have hs : s ≠ [] := by
        rintro rfl
        exact hne rfl
      have hgap : startsWith isGap (s ++ ' ' :: d :: t) = startsWith isGap s := by
        obtain ⟨c, r, rfl⟩ := List.exists_cons_of_ne_nil hs
        rfl
      simp only [Lexeme.enumFollows, hdrop, hgap, identAt,
        @startsWith_append_cons isIdentStart ' ' rfl, @takeWhile_append_cons isIdentChar ' ' rfl]
  heredocOpening s := by
    refine heredocOpening?_append_of_head rfl ?_
    rcases dropWhile_append_blank rfl hd.indent s t with ⟨hnil, hdrop⟩ | ⟨-, hdrop⟩
    · have hquote : openingQuote (d :: t) = (none, d :: t) := by
        simp [openingQuote, hd.single, hd.double]
      have hnone : openingQuote [] = (none, []) := by rfl
      simp [heredocHead?, hnil, hdrop, hquote, hnone, startsWith, hd.identStart]
    · exact heredocHead?_append_of_dropWhile hdrop rfl (by decide) (by decide)
  closingLine {marker} hne hmarker s := by
    rcases dropWhile_append_blank rfl hd.indent s t with ⟨hnil, hdrop⟩ | ⟨-, hdrop⟩
    · have hmem := notMem_marker hmarker hd.ident
      obtain ⟨c, r, rfl⟩ := List.exists_cons_of_ne_nil hne
      have hcd : c ≠ d := fun h => hmem (by simp [h])
      simp [closingLine?, hnil, hdrop, List.isPrefixOf, hcd]
    · exact closingLine?_append_of_dropWhile hdrop hmarker rfl

section

variable {x : Text} (hx : Separates x)

include hx

theorem readName_append (a : Bool) (c : Char) (s : Text) :
    readName a c (s ++ x) = readName a c s := by
  have hle := nameTail_le s
  have htail : nameTail (s ++ x) = nameTail s := by
    obtain ⟨d, t, hd, rfl⟩ := hx.head
    exact nameTail_append_cons (isIdentChar_of_isStop hd) (ne_of_isStop hd rfl)
      (ne_of_isStop hd rfl) s t
  simp only [readName, htail]
  rw [List.take_append_of_le_length hle, List.drop_append_of_le_length hle,
    wordKind_congr (hx.enumFollows _)]

theorem readHeredoc?_append {s : Text} {kind : Kind} {n : Nat}
    (h : (readHeredoc? s).getD (.lexeme .other 0) = .lexeme kind n) :
    (readHeredoc? (s ++ x)).getD (.lexeme .other 0) = .lexeme kind n := by
  rw [readHeredoc?] at h ⊢
  rw [hx.heredocOpening]
  cases hopen : heredocOpening? s with
  | none => simpa [hopen] using h
  | some p =>
    obtain ⟨marker, body⟩ := p
    cases hend : heredocEnd? marker true body with
    | none => simp [hopen, hend] at h
    | some m =>
      have hend' := heredocEnd?_append (hx.closingLine (marker_ne_nil hopen)
        (isIdentChar_of_mem_marker hopen)) hend
      have hlen : s.length + x.length - (body.length + x.length) = s.length - body.length := by
        omega
      simpa [hopen, hend, hend', hlen] using h

end

/-! ## Signs and tags -/

/-- The characters that a sign can go on with. -/
def signTails : List Char := ['=', '>', '&', '.', '-', '?', '|', ':']

theorem mem_signTails {c : Char} {p : Text × Kind} (h : p ∈ longerSigns c) :
    ∀ e ∈ p.1, e ∈ signTails := by
  unfold longerSigns at h
  split at h
  case h_8 => simp at h
  all_goals
    simp only [List.mem_cons, List.not_mem_nil, or_false] at h
    rcases h with rfl | rfl | rfl <;> simp [signTails]

/-- No sign goes on with a stop. -/
theorem notMem_signTails {d : Char} (hd : isStop d = true) : d ∉ signTails := by
  intro hmem
  rcases isStop_cases hd with rfl | rfl | rfl | rfl | rfl | rfl <;> revert hmem <;> decide

theorem sign_append_cons {d : Char} (hd : d ∉ signTails) (c : Char) (s t : Text) :
    sign c (s ++ d :: t) = sign c s := by
  have hfind : ((longerSigns c).find? fun p => p.1.isPrefixOf (s ++ d :: t)) =
      (longerSigns c).find? fun p => p.1.isPrefixOf s := by
    refine List.find?_congr ?_
    intro p hp
    exact isPrefixOf_append_cons (fun hmem => hd (mem_signTails hp d hmem)) s t
  rw [sign, sign, hfind]

theorem readSign_append_cons {d : Char} (hd : isStop d = true) (c : Char) (s t : Text) :
    readSign c (s ++ d :: t) = readSign c s := by
  simp only [readSign, sign_append_cons (notMem_signTails hd)]

theorem closeTagTail_append_cons {d : Char} (hd : isStop d = true) (s t : Text) :
    closeTagTail (s ++ d :: t) = closeTagTail s := by
  have hn : d ≠ '\n' := ne_of_isStop hd rfl
  have hr : d ≠ '\r' := ne_of_isStop hd rfl
  match s with
  | [] => simp [closeTagTail, hn, hr]
  | [c] =>
    by_cases h₁ : c = '\n'
    · simp [closeTagTail, h₁]
    · simp [closeTagTail, h₁, hn]
  | c :: e :: s =>
    by_cases h₁ : c = '\n'
    · simp [closeTagTail, h₁]
    · by_cases h₂ : c = '\r'
      · by_cases h₃ : e = '\n'
        · simp [closeTagTail, h₂, h₃]
        · simp [closeTagTail, h₂, h₃]
      · simp [closeTagTail, h₁, h₂]

theorem sameWord_php_append_cons {d : Char} (hp : d.toLower ≠ 'p') (hh : d.toLower ≠ 'h')
    (s t : Text) :
    Text.sameWord ((s ++ d :: t).take 3) "php".toList = Text.sameWord (s.take 3) "php".toList := by
  match s with
  | [] => simp [Text.sameWord, Text.lower, hp]
  | [a] => simp [Text.sameWord, Text.lower, hh]
  | [a, b] => simp [Text.sameWord, Text.lower, hp]
  | a :: b :: c :: s => simp

theorem longTagSize?_append_cons {d : Char} (hd : isStop d = true) {s : Text} (hs : s ≠ [])
    (t : Text) : longTagSize? (s ++ d :: t) = longTagSize? s := by
  have hn : d ≠ '\n' := ne_of_isStop hd rfl
  match s with
  | [] => exact absurd rfl hs
  | [c] =>
    by_cases hc : c = '\r'
    · simp [longTagSize?, hc, hn]
    · simp [longTagSize?, hc]
  | c :: e :: s =>
    by_cases hc : c = '\r'
    · by_cases he : e = '\n'
      · simp [longTagSize?, hc, he]
      · simp [longTagSize?, hc, he]
    · simp [longTagSize?, hc]

theorem openTag?_cons_cons (short : Bool) (s : Text) :
    openTag? short ('<' :: '?' :: s) =
      if Text.sameWord (s.take 3) "php".toList then longTagSize? (s.drop 3)
      else if s.head? == some '=' then some 3
      else if short then some 2
      else none := by
  simp only [openTag?]

theorem openTag?_eq_none {short : Bool} {s : Text} (h : ¬ ['<', '?'] <+: s) :
    openTag? short s = none := by
  unfold openTag?
  split
  · exact absurd (by simp) h
  · rfl

/-- A stop makes no tag of what is none, and leaves a tag that has an end of its own. -/
theorem openTag?_append_cons {d : Char} (hd : isStop d = true) {short : Bool} {s : Text}
    (h : openTag? short s = some 5 → 5 < s.length) (t : Text) :
    openTag? short (s ++ d :: t) = openTag? short s := by
  have hlower : d.toLower ≠ 'p' ∧ d.toLower ≠ 'h' := by
    rcases isStop_cases hd with rfl | rfl | rfl | rfl | rfl | rfl <;> decide
  by_cases hp : ['<', '?'] <+: s
  · obtain ⟨r, rfl⟩ := hp
    simp only [List.cons_append, List.nil_append] at h ⊢
    rw [openTag?_cons_cons] at h
    rw [openTag?_cons_cons, openTag?_cons_cons, sameWord_php_append_cons hlower.1 hlower.2]
    split
    · rename_i hword
      have hlen : 3 ≤ r.length := by
        have := Text.length_eq_of_sameWord hword
        simp at this
        omega
      have hne : r.drop 3 ≠ [] := by
        intro hnil
        rw [if_pos hword, hnil] at h
        have := h rfl
        have := List.drop_eq_nil_iff.1 hnil
        simp only [List.length_cons] at *
        omega
      rw [List.drop_append_of_le_length hlen, longTagSize?_append_cons hd hne]
    · have hhead : ((r ++ d :: t).head? == some '=') = (r.head? == some '=') := by
        cases r with
        | nil => simpa using ne_of_isStop hd rfl
        | cons c r => rfl
      rw [hhead]
  · have hp' : ¬ ['<', '?'] <+: s ++ d :: t := by
      have hd' : d ∉ ['<', '?'] := by
        simp only [List.mem_cons, List.not_mem_nil, or_false, not_or]
        exact ⟨ne_of_isStop hd rfl, ne_of_isStop hd rfl⟩
      rwa [← List.isPrefixOf_iff_prefix, isPrefixOf_append_cons hd', List.isPrefixOf_iff_prefix]
    rw [openTag?_eq_none hp, openTag?_eq_none hp']

/-- Text outside the tags that ends before a tag ends there whatever follows the tag. -/
theorem htmlTail_append_cons {d : Char} (hd : isStop d = true) {short : Bool} {s : Text}
    (hlt : htmlTail short s < s.length)
    (htag : openTag? short (s.drop (htmlTail short s)) = some 5 →
      5 < (s.drop (htmlTail short s)).length) (t : Text) :
    htmlTail short (s ++ d :: t) = htmlTail short s := by
  induction s with
  | nil => simp at hlt
  | cons c s ih =>
    rw [List.cons_append, htmlTail, htmlTail]
    rw [htmlTail] at hlt htag
    by_cases hopen : (openTag? short (c :: s)).isSome = true
    · rw [if_pos hopen] at htag ⊢
      have := openTag?_append_cons hd htag t
      simp only [List.drop_zero, List.cons_append] at this
      rw [this, if_pos hopen]
    · rw [if_neg hopen] at hlt htag ⊢
      have hnone : openTag? short (c :: s) = none := by simpa using hopen
      have hext : openTag? short (c :: s ++ d :: t) = openTag? short (c :: s) :=
        openTag?_append_cons hd (by simp [hnone]) t
      rw [List.cons_append, hnone] at hext
      rw [hext, if_neg (by simp), ih (by simpa using hlt) (by simpa using htag)]

end Lexeme

end PhpOutline
