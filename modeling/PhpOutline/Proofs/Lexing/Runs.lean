import PhpOutline.Proofs.Lexing.Lexemes
import PhpOutline.Proofs.Lexing.Lossless

/-!
# Runs of characters

A reader that takes a run of characters of some class takes them up to the first other one, so a
text can be cut into a run and what follows it in one way only. For identifiers, the first byte of
what follows tells whether the run goes on, because every byte of a character beyond ASCII counts as
one of an identifier.

## Main definitions

* `Lexeme.isIdentStartByte`, `Lexeme.isIdentByte`: the bytes of identifiers.

## Main statements

* `Lexeme.takeWhile_run`, `Lexeme.dropWhile_run`: a run and what follows it are found again.
* `Lexeme.startsWith_isIdentChar`, `Lexeme.startsWith_isIdentStart`: the first byte of a text tells
  whether it goes on, or begins, as an identifier.
* `Lexeme.isIdentifier_identAt`: what is read where an identifier begins is one.
-/

namespace PhpOutline.Lexeme

/-! ## A run and what follows it -/

section Runs

variable {p : Char → Bool} {u v : Text}

theorem takeWhile_run (hu : ∀ c ∈ u, p c = true) (hv : startsWith p v = false) :
    (u ++ v).takeWhile p = u := by
  rw [List.takeWhile_append_of_pos hu]
  cases v with
  | nil => simp
  | cons c v =>
    have hc : p c = false := hv
    simp [hc]

theorem dropWhile_run (hu : ∀ c ∈ u, p c = true) (hv : startsWith p v = false) :
    (u ++ v).dropWhile p = v := by
  rw [List.dropWhile_append_of_pos hu]
  cases v with
  | nil => rfl
  | cons c v =>
    have hc : p c = false := hv
    simp [hc]

theorem startsWith_dropWhile (p : Char → Bool) (s : Text) :
    startsWith p (s.dropWhile p) = false := by
  have hnot := List.head?_dropWhile_not p s
  cases hs : s.dropWhile p with
  | nil => rfl
  | cons c r => simpa [hs, startsWith] using hnot

end Runs

/-! ## Identifiers byte by byte -/

/-- The bytes with which an identifier can begin: those of the ASCII letters and of the underscore,
and all beyond ASCII. -/
def isIdentStartByte (b : UInt8) : Bool := isIdentStart (Char.ofUInt8 b)

/-- The bytes with which an identifier can go on. -/
def isIdentByte (b : UInt8) : Bool := isIdentChar (Char.ofUInt8 b)

theorem ofUInt8_toUInt8 {c : Char} (h : c.toNat < 128) : Char.ofUInt8 c.toUInt8 = c := by
  apply Char.toNat_inj.1
  exact Text.toNat_toUInt8 h

/-- For a class that holds every character beyond ASCII, the first byte of a text tells whether the
first character is of the class. -/
theorem startsWith_eq_any_head? {p : Char → Bool} (hp : ∀ c, 128 ≤ c.toNat → p c = true)
    (s : Text) : startsWith p s = s.bytes.head?.any fun b => p (Char.ofUInt8 b) := by
  cases s with
  | nil => rfl
  | cons c s =>
    rw [Text.bytes_cons, startsWith]
    rcases Nat.lt_or_ge c.toNat 128 with hc | hc
    · rw [Text.utf8EncodeChar_of_lt hc, List.singleton_append, List.head?_cons, Option.any_some,
        ofUInt8_toUInt8 hc]
    · have hbytes : ∃ b bs, String.utf8EncodeChar c = b :: bs := by
        apply List.exists_cons_of_ne_nil
        rw [← List.length_pos_iff, String.length_utf8EncodeChar]
        exact c.utf8Size_pos
      obtain ⟨b, bs, hb⟩ := hbytes
      have hhigh : 128 ≤ (Char.ofUInt8 b).toNat := by
        change 128 ≤ b.toNat
        apply Text.le_of_mem_utf8EncodeChar hc
        rw [hb]
        exact List.mem_cons_self
      rw [hp c hc, hb, List.cons_append, List.head?_cons, Option.any_some]
      exact (hp _ hhigh).symm

theorem startsWith_isIdentStart (s : Text) :
    startsWith isIdentStart s = s.bytes.head?.any isIdentStartByte := by
  refine startsWith_eq_any_head? ?_ s
  intro c hc
  simp [isIdentStart, hc]

theorem startsWith_isIdentChar (s : Text) :
    startsWith isIdentChar s = s.bytes.head?.any isIdentByte := by
  refine startsWith_eq_any_head? ?_ s
  intro c hc
  simp [isIdentChar, isIdentStart, hc]

/-- A gap is white space, with which no identifier begins. -/
theorem isGap_of_isIdentStart {c : Char} (h : isIdentStart c = true) : isGap c = false := by
  have hspace := isSpace_of_isIdentStart h
  simp only [isSpace, Bool.or_eq_false_iff] at hspace
  simp [isGap, isIndent, hspace]

theorem isIndent_of_isIdentStart {c : Char} (h : isIdentStart c = true) : isIndent c = false := by
  have hgap := isGap_of_isIdentStart h
  simp only [isGap, Bool.or_eq_false_iff] at hgap
  exact hgap.1.1

/-- Where an identifier begins, the reader takes one. -/
theorem isIdentifier_identAt {s : Text} (h : startsWith isIdentStart s = true) :
    isIdentifier (identAt s) = true := by
  cases s with
  | nil => cases h
  | cons c s =>
    have hstart : isIdentStart c = true := h
    have hc : isIdentChar c = true := by rw [isIdentChar, hstart, Bool.true_or]
    rw [identAt, List.takeWhile_cons_of_pos hc, isIdentifier, hstart, Bool.true_and]
    exact List.all_takeWhile

/-- The reader takes the identifier that stands there, when nothing behind it continues it. -/
theorem identAt_append {w behind : Text} (hw : isIdentifier w = true)
    (hbehind : startsWith isIdentChar behind = false) : identAt (w ++ behind) = w :=
  takeWhile_run (fun _ => isIdentChar_of_mem hw) hbehind

theorem startsWith_isIdentStart_append {w : Text} (hw : isIdentifier w = true) (behind : Text) :
    startsWith isIdentStart (w ++ behind) = true := by
  obtain ⟨c, r, rfl, hc, -⟩ := exists_cons_of_isIdentifier hw
  exact hc

/-- An identifier begins with no character that cannot begin one. -/
theorem startsWith_append_of_isIdentifier {p : Char → Bool}
    (hp : ∀ c, isIdentStart c = true → p c = false) {w : Text} (hw : isIdentifier w = true)
    (behind : Text) : startsWith p (w ++ behind) = false := by
  obtain ⟨c, r, rfl, hc, -⟩ := exists_cons_of_isIdentifier hw
  exact hp c hc

end PhpOutline.Lexeme
