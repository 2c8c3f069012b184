import PhpOutline.Proofs.Lexing.Continuation

/-!
# Lexemes with known text behind them

What stands at a place in code is a name or a keyword, or something that is neither. Where a word, a
variable, a blank or a sign stands there and what follows does not continue it, the first piece is
that lexeme and the rest is cut on its own.

## Main definitions

* `Lexeme.isIdentifier`: the texts that are identifiers.
* `Lexeme.BeginsName`: where a name or a keyword begins.
* `longTag`: the long opening tag.

## Main statements

* `Lexeme.readCode_cases`: what stands at a place in code.
* `Lexeme.mode_of_kind_read`: the kind of a token tells the mode in which it was read.
* `pieces_openTag`, `pieces_blank`, `pieces_word`, `pieces_variable`, `pieces_sign`: the first piece
  of a text that begins with such a lexeme.
* `pieces_name`: a text that is one name stays one in front of a variable.
* `lex_behind_tag`: a source behind the long opening tag.
-/

namespace PhpOutline

/-- What stands in code and is neither a name nor a keyword. -/
def Kind.isMark : Kind → Bool
  | inlineHtml | openTag | name | keyword _ => false
  | _ => true

/-- What stands outside the tags, and the tag that ends it. -/
def Kind.isOutside (k : Kind) : Bool := k == .inlineHtml || k == .openTag

theorem Kind.isOutside_of_isMark {k : Kind} (h : k.isMark = true) : k.isOutside = false := by
  cases k <;> first | rfl | cases h

/-- A reading of what stands in code and is neither a name nor a keyword. -/
def Reading.IsMark : Reading → Prop
  | lexeme kind _ => kind.isMark = true
  | unterminated kind _ => kind.isMark = true
  | stray => True

theorem Reading.IsMark.kind {r : Reading} (h : r.IsMark) {c : Char} {s text : Text} {kind : Kind}
    {fault : Option Fault} (hp : r.piece c s = .token kind text fault) : kind.isMark = true := by
  cases r with
  | lexeme k n =>
    cases hp
    exact h
  | unterminated k lost =>
    cases hp
    exact h
  | stray => simp [piece] at hp

theorem Reading.IsMark.ne_name {r : Reading} (h : r.IsMark) (n : Nat) : r ≠ .lexeme .name n := by
  rintro rfl
  cases h

namespace Lexeme

/-- Whether a text is an identifier. -/
def isIdentifier : Text → Bool
  | [] => false
  | c :: s => isIdentStart c && s.all isIdentChar

/-- A character that continues a word. -/
def continuesWord (c : Char) : Bool := isIdentChar c || c == '\\'

theorem isSpace_of_isIdentStart {c : Char} (h : isIdentStart c = true) : isSpace c = false := by
  by_contra hspace
  have : isSpace c = true := by simpa using hspace
  simp only [isSpace, Bool.or_eq_true, beq_iff_eq] at this
  rcases this with ((((rfl | rfl) | rfl) | rfl) | rfl) | rfl <;> revert h <;> decide

theorem exists_cons_of_isIdentifier {s : Text} (h : isIdentifier s = true) :
    ∃ c r, s = c :: r ∧ isIdentStart c = true ∧ ∀ d ∈ r, isIdentChar d = true := by
  cases s with
  | nil => simp [isIdentifier] at h
  | cons c r =>
    simp only [isIdentifier, Bool.and_eq_true, List.all_eq_true] at h
    exact ⟨c, r, rfl, h.1, h.2⟩

theorem isIdentChar_of_mem {w : Text} (h : isIdentifier w = true) {c : Char} (hc : c ∈ w) :
    isIdentChar c = true := by
  obtain ⟨d, r, rfl, hd, hr⟩ := exists_cons_of_isIdentifier h
  rcases List.mem_cons.1 hc with rfl | hc
  · simp [isIdentChar, hd]
  · exact hr c hc

theorem contains_backslash_eq_false {w : Text} (h : isIdentifier w = true) :
    w.contains '\\' = false := by
  rw [List.contains_eq_any_beq, List.any_eq_false]
  intro d hd
  have := isIdentChar_of_mem h hd
  simp only [beq_iff_eq]
  rintro rfl
  revert this
  decide

/-- A name goes on over the characters of an identifier. -/
theorem nameTail_append {r : Text} (hr : ∀ d ∈ r, isIdentChar d = true) (s : Text) :
    nameTail (r ++ s) = r.length + nameTail s := by
  induction r with
  | nil => simp
  | cons c r ih =>
    have hc : isIdentChar c = true := hr c (by simp)
    have := ih fun d hd => hr d (by simp [hd])
    simp only [List.cons_append, nameTail, hc, if_true, this, List.length_cons]
    omega

/-- A name ends where nothing continues a word. -/
theorem nameTail_eq_zero {rest : Text} (h : startsWith continuesWord rest = false) :
    nameTail rest = 0 := by
  cases rest with
  | nil => rfl
  | cons d rest =>
    simp only [startsWith, continuesWord, Bool.or_eq_false_iff] at h
    simp [nameTail, h.1, h.2]

/-- An identifier goes on to its end, whatever else follows. -/
theorem nameTail_append_of_all {r rest : Text} (hr : ∀ d ∈ r, isIdentChar d = true)
    (hrest : startsWith continuesWord rest = false) : nameTail (r ++ rest) = r.length := by
  rw [nameTail_append hr, nameTail_eq_zero hrest, Nat.add_zero]

theorem identTail_append_of_all {r rest : Text} (hr : ∀ d ∈ r, isIdentChar d = true)
    (hrest : startsWith isIdentChar rest = false) : identTail (r ++ rest) = r.length := by
  induction r with
  | nil =>
    cases rest with
    | nil => rfl
    | cons d rest =>
      have hd : isIdentChar d = false := hrest
      simp [identTail, runLength, hd]
  | cons c r ih =>
    have hc : isIdentChar c = true := hr c (by simp)
    have := ih fun d hd => hr d (by simp [hd])
    simp only [identTail, runLength] at this ⊢
    simp [hc, this]

/-- A word is a name or a keyword. -/
theorem wordKind_cases (a : Bool) (word rest : Text) :
    wordKind a word rest = .name ∨ ∃ k, wordKind a word rest = .keyword k := by
  rw [wordKind]
  split
  · exact .inl rfl
  · split
    · exact .inl rfl
    · split
      · exact .inr ⟨_, rfl⟩
      · exact .inl rfl
    · exact .inr ⟨_, rfl⟩

/-- Behind a word the member operator is forgotten. -/
theorem after_wordKind (m : Mode) (a : Bool) (word rest : Text) :
    m.after (wordKind a word rest) = .code false := by
  rcases wordKind_cases a word rest with h | ⟨k, h⟩ <;> rw [h] <;> rfl

/-- A keyword other than the one for an enumeration is one wherever it stands as a word. -/
theorem wordKind_of_ofWord? {word : Text} {k : Keyword} (hk : Keyword.ofWord? word = some k)
    (hword : isIdentifier word = true) (hne : k ≠ .declares .enumeration) (rest : Text) :
    wordKind false word rest = .keyword k := by
  have hslash := contains_backslash_eq_false hword
  rw [wordKind]
  rw [hslash, hk]
  simp only [Bool.or_self, Bool.false_eq_true, if_false]

/-- A word that is no keyword is a name. -/
theorem wordKind_of_ofWord?_eq_none {word : Text} (h : Keyword.ofWord? word = none) (a : Bool)
    (rest : Text) : wordKind a word rest = .name := by
  rw [wordKind]
  rw [h]
  simp

/-! ## What stands at a place in code -/

/-- Whether a name or a keyword begins with `c` in front of the text `s`. -/
def BeginsName (c : Char) (s : Text) : Prop :=
  isIdentStart c = true ∨ c = '\\' ∧ startsWith isIdentStart s = true

theorem BeginsName.append {c : Char} {s : Text} (h : BeginsName c s) (t : Text) :
    BeginsName c (s ++ t) := by
  rcases h with h | ⟨h, hs⟩
  · exact .inl h
  · cases s with
    | nil => simp [startsWith] at hs
    | cons d s => exact .inr ⟨h, hs⟩

theorem readCode_of_beginsName {c : Char} {s : Text} (h : BeginsName c s) (a : Bool) :
    readCode a c s = readName a c s := by
  rcases h with h | ⟨rfl, h⟩
  · simp [readCode, isSpace_of_isIdentStart h, h]
  · have hmark : readCode a '\\' s = readMark a '\\' s := rfl
    rw [hmark, readMark]
    simp only [h, if_true]

theorem isMark_readSign (c : Char) (s : Text) : (readSign c s).IsMark := by
  have hplain : (plainSign c).isMark = true := by
    unfold plainSign
    split <;> rfl
  have hlonger : ∀ p ∈ longerSigns c, p.2.isMark = true := by
    unfold longerSigns
    split <;> decide
  have hsign : (sign c s).1.isMark = true := by
    rw [sign]
    split
    · rename_i p hp
      exact hlonger p (List.mem_of_find?_eq_some hp)
    · exact hplain
  rw [readSign]
  split
  · trivial
  · exact hsign

theorem isMark_readQuoted (frame : Frame) (s : Text) : (readQuoted frame s).IsMark := by
  rw [readQuoted]
  split <;> rfl

theorem isMark_readBlockComment (s : Text) : (readBlockComment s).IsMark := by
  rw [readBlockComment]
  cases isDocOpening s <;> cases blockEnd? s <;> rfl

theorem isMark_readHeredoc? (s : Text) :
    ((readHeredoc? s).getD (.lexeme .other 0)).IsMark := by
  rw [readHeredoc?]
  rcases heredocOpening? s with _ | ⟨marker, body⟩
  · rfl
  · cases h : heredocEnd? marker true body <;> simp [h, Reading.IsMark, Kind.isMark]

theorem readMark_cases (a : Bool) (c : Char) (s : Text) :
    BeginsName c s ∨ (readMark a c s).IsMark := by
  unfold readMark
  split
  case h_5 =>
    split
    · rename_i hs
      exact .inl (.inr ⟨rfl, hs⟩)
    · exact .inr (isMark_readSign _ _)
  case h_2 => split <;> exact .inr rfl
  case h_3 =>
    split
    · exact .inr rfl
    split
    · exact .inr (isMark_readBlockComment _)
    · exact .inr (isMark_readSign _ _)
  case h_7 | h_8 | h_9 => exact .inr (isMark_readQuoted _ _)
  case h_10 =>
    split
    · exact .inr (isMark_readHeredoc? _)
    · exact .inr (isMark_readSign _ _)
  case h_11 => exact .inr (isMark_readSign _ _)
  all_goals
    split
    · exact .inr rfl
    · exact .inr (isMark_readSign _ _)

/-- In code stands a name or a keyword, or something that is neither. -/
theorem readCode_cases (a : Bool) (c : Char) (s : Text) :
    (BeginsName c s ∧ readCode a c s = readName a c s) ∨ (readCode a c s).IsMark := by
  by_cases hname : BeginsName c s
  · exact .inl ⟨hname, readCode_of_beginsName hname a⟩
  · right
    rw [readCode]
    split
    · rfl
    split
    · rename_i hstart
      exact absurd (.inl hstart) hname
    split
    · rfl
    · exact (readMark_cases a c s).resolve_left hname

/-- A name is read as one from its first character on, so that it is still read as one when more
text follows. -/
theorem readCode_of_name {a : Bool} {c : Char} {s : Text} {n : Nat}
    (h : readCode a c s = .lexeme .name n) (t : Text) :
    readCode a c (s ++ t) = readName a c (s ++ t) ∧ readCode a c s = readName a c s := by
  rcases readCode_cases a c s with ⟨hname, hread⟩ | hmark
  · exact ⟨readCode_of_beginsName (hname.append t) a, hread⟩
  · exact absurd h (hmark.ne_name n)

/-- The kind of a token tells whether it was read outside the tags or in code. -/
theorem mode_of_kind_read {short : Bool} {m : Mode} {c : Char} {s : Text} {kind : Kind}
    {text : Text} {fault : Option Fault}
    (h : (Lexeme.read short m c s).piece c s = .token kind text fault) :
    if kind.isOutside then m = .html else ∃ a, m = .code a := by
  cases m with
  | html =>
    have hread : ∃ n, Lexeme.read short .html c s = .lexeme .openTag n ∨
        Lexeme.read short .html c s = .lexeme .inlineHtml n := by
      simp only [Lexeme.read, readHtml]
      split
      · exact ⟨_, .inl rfl⟩
      · exact ⟨_, .inr rfl⟩
    obtain ⟨n, hread | hread⟩ := hread
    · rw [hread] at h
      cases h
      rfl
    · rw [hread] at h
      cases h
      rfl
  | code a =>
    have hkind : kind.isOutside = false := by
      rcases readCode_cases a c s with ⟨-, hname⟩ | hmark
      · have hword := wordKind_cases a (c :: s.take (nameTail s)) (s.drop (nameTail s))
        rw [Lexeme.read, hname, readName] at h
        cases h
        rcases hword with hword | ⟨k, hword⟩ <;> rw [hword] <;> rfl
      · exact Kind.isOutside_of_isMark (hmark.kind h)
    rw [hkind]
    exact ⟨a, rfl⟩

end Lexeme

/-! ## First pieces -/

open Lexeme

variable {short a : Bool} {rest : Text}

/-- A lexeme at the head of a text, and the rest cut on its own. -/
theorem pieces_of_read {m : Mode} {c : Char} {s : Text} {kind : Kind}
    (h : Lexeme.read short m c (s ++ rest) = .lexeme kind s.length) :
    pieces short m (c :: (s ++ rest)) =
      .token kind (c :: s) none :: pieces short (m.after kind) rest := by
  rw [pieces_cons, h]
  simp [Reading.piece, Reading.claims, Reading.mode]

/-- The long opening tag with its blank. -/
theorem pieces_openTag :
    pieces short .html ("<?php ".toList ++ rest) =
      .token .openTag "<?php ".toList none :: pieces short (.code false) rest :=
  pieces_of_read (s := "?php ".toList) (by rfl)

/-- A white space character with none behind it. -/
theorem pieces_blank {c : Char} (hc : isSpace c = true) (hrest : startsWith isSpace rest = false) :
    pieces short (.code a) (c :: rest) =
      .token .whitespace [c] none :: pieces short (.code a) rest := by
  refine pieces_of_read (s := []) ?_
  have hrun : runLength isSpace rest = 0 := by
    cases rest with
    | nil => rfl
    | cons d rest =>
      have hd : isSpace d = false := hrest
      simp [runLength, hd]
  simp [Lexeme.read, readCode, hc, hrun]

/-- An identifier with nothing behind it that continues a word. -/
theorem pieces_word {w : Text} (hw : isIdentifier w = true)
    (hrest : startsWith continuesWord rest = false) :
    pieces short (.code a) (w ++ rest) =
      .token (wordKind a w rest) w none :: pieces short (.code false) rest := by
  obtain ⟨c, r, rfl, hc, hr⟩ := exists_cons_of_isIdentifier hw
  have hread : Lexeme.read short (.code a) c (r ++ rest) =
      .lexeme (wordKind a (c :: r) rest) r.length := by
    simp [Lexeme.read, readCode, isSpace_of_isIdentStart hc, hc, readName,
      nameTail_append_of_all hr hrest]
  rw [List.cons_append, pieces_of_read hread, after_wordKind]

/-- A keyword with nothing behind it that continues a word. -/
theorem pieces_keyword {w : Text} {k : Keyword} (hw : isIdentifier w = true)
    (hk : Keyword.ofWord? w = some k) (hne : k ≠ .declares .enumeration)
    (hrest : startsWith continuesWord rest = false) :
    pieces short (.code false) (w ++ rest) =
      .token (.keyword k) w none :: pieces short (.code false) rest := by
  rw [pieces_word hw hrest, wordKind_of_ofWord? hk hw hne]

/-- A variable with nothing behind it that continues an identifier. -/
theorem pieces_variable {w : Text} (hw : isIdentifier w = true)
    (hrest : startsWith isIdentChar rest = false) :
    pieces short (.code a) ('$' :: (w ++ rest)) =
      .token .variableName ('$' :: w) none :: pieces short (.code false) rest := by
  obtain ⟨c, r, rfl, hc, hr⟩ := exists_cons_of_isIdentifier hw
  refine pieces_of_read ?_
  have hall : ∀ d ∈ c :: r, isIdentChar d = true := by
    intro d hd
    rcases List.mem_cons.1 hd with rfl | hd
    · simp [isIdentChar, hc]
    · exact hr d hd
  have htail := identTail_append_of_all hall hrest
  have hmark : Lexeme.read short (.code a) '$' (c :: r ++ rest) =
      readMark a '$' (c :: r ++ rest) := by rfl
  rw [hmark]
  simp only [readMark, List.cons_append, startsWith, hc, if_true] at htail ⊢
  rw [htail]

/-- A text that is one name by itself is read as one. -/
theorem readCode_of_pieces_name {c : Char} {r : Text}
    (hw : pieces short (.code false) (c :: r) = [.token .name (c :: r) none]) :
    readCode false c r = .lexeme .name r.length := by
  rw [pieces_cons, List.cons.injEq] at hw
  have hle := claims_read_le short (.code false) c r
  cases hr : Lexeme.read short (.code false) c r with
  | lexeme kind n =>
    rw [hr] at hw hle
    have htake : r.take n = r := by simpa [Reading.piece] using (Piece.token.inj hw.1).2.1
    have hn : n = r.length := by
      have := congrArg List.length htake
      simp only [List.length_take, Reading.claims] at this hle
      omega
    have hk : kind = .name := (Piece.token.inj hw.1).1
    rw [← hn, ← hk]
    exact hr
  | unterminated kind fault => simp [hr, Reading.piece] at hw
  | stray => simp [hr, Reading.piece] at hw

/-- A text that is one name by itself is one when nothing behind it continues a word or makes it a
keyword. -/
theorem pieces_name {w : Text} (hw : pieces short (.code false) w = [.token .name w none])
    (hrest : startsWith (fun d => continuesWord d || d == '{') rest = false)
    (henum : enumFollows rest = false) :
    pieces short (.code false) (w ++ rest) =
      .token .name w none :: pieces short (.code false) rest := by
  cases w with
  | nil => simp at hw
  | cons c r =>
    cases rest with
    | nil => simpa using hw
    | cons d t =>
      have hself := readCode_of_pieces_name hw
      obtain ⟨hlong, hshort⟩ := readCode_of_name hself (d :: t)
      rw [hshort, readName, Reading.lexeme.injEq] at hself
      simp only [startsWith, continuesWord, Bool.or_eq_false_iff, beq_eq_false_iff_ne] at hrest
      have htail : nameTail (r ++ d :: t) = r.length := by
        rw [nameTail_append_cons hrest.1.1 hrest.1.2 hrest.2, hself.2]
      have hkind : wordKind false (c :: r) (d :: t) = .name := by
        have := hself.1
        rw [hself.2, List.take_length, List.drop_length] at this
        rw [← this]
        exact wordKind_congr (by rw [henum]; rfl) _ _
      refine pieces_of_read ?_
      show readCode false c (r ++ d :: t) = _
      rw [hlong, readName, htail, List.take_left, List.drop_left, hkind]

/-- A sign that is one character. -/
theorem pieces_sign {c : Char} {kind : Kind} (h : readCode a c rest = .lexeme kind 0) :
    pieces short (.code a) (c :: rest) =
      .token kind [c] none :: pieces short ((Mode.code a).after kind) rest :=
  pieces_of_read (s := []) h

/-- A question mark in front of a name. -/
theorem pieces_question {w : Text} (hw : pieces short (.code false) w = [.token .name w none]) :
    pieces short (.code a) ('?' :: (w ++ rest)) =
      .token .question "?".toList none :: pieces short (.code false) (w ++ rest) := by
  cases w with
  | nil => simp at hw
  | cons c r =>
    have hself := readCode_of_pieces_name hw
    have hmark : c ≠ '?' := by
      rintro rfl
      have hread : readMark false '?' r = .lexeme .name r.length := hself
      simp only [readMark] at hread
      split at hread
      · simp at hread
      · exact (isMark_readSign _ _).ne_name _ hread
    have hangle : c ≠ '>' := by
      rintro rfl
      exact (isMark_readSign '>' r).ne_name _ hself
    have hminus : c ≠ '-' := by
      rintro rfl
      exact (isMark_readSign '-' r).ne_name _ hself
    have hread : readCode a '?' (c :: r ++ rest) = .lexeme .question 0 := by
      have hcode : readCode a '?' (c :: r ++ rest) = readMark a '?' (c :: r ++ rest) := by rfl
      rw [hcode]
      simp [readMark, startsWith, hangle, readSign, isControl, sign, longerSigns, plainSign,
        Ne.symm hmark, Ne.symm hminus]
    exact pieces_sign hread

theorem pieces_paren :
    pieces short (.code a) ('(' :: rest) =
      .token (.opener .paren) "(".toList none :: pieces short (.code false) rest :=
  pieces_sign rfl

theorem pieces_brace :
    pieces short (.code a) ('{' :: rest) =
      .token (.opener .brace) ['{'] none :: pieces short (.code false) rest :=
  pieces_sign rfl

theorem pieces_equals :
    pieces short (.code a) ('=' :: ' ' :: rest) =
      .token .equals "=".toList none :: pieces short (.code false) (' ' :: rest) :=
  pieces_sign rfl

/-! ## Behind an opening tag -/

/-- The long opening tag with its blank. -/
def longTag : Text := "<?php ".toList

theorem unmarked_behind_tag (s : Text) : unmarked (longTag ++ s) = longTag ++ s := rfl

/-- Behind the long tag, a source is cut as code. -/
theorem lex_behind_tag (short : Bool) (s : Text) :
    lex ⟨false, short⟩ (longTag ++ s) =
      ⟨⟨.openTag, longTag, 1, 0⟩ :: placed 1 6 (pieces short (.code false) s),
        faults 1 (pieces short (.code false) s)⟩ := by
  have hpieces : pieces short .html (longTag ++ s) =
      .token .openTag longTag none :: pieces short (.code false) s := pieces_openTag
  rw [lex, unmarked_behind_tag]
  change Lexed.mk (placed 1 0 (pieces short .html (longTag ++ s)))
    (faults 1 (pieces short .html (longTag ++ s))) = _
  rw [hpieces]
  rfl

end PhpOutline
