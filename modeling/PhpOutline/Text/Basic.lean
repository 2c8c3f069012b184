/-!
# Text as a list of characters

Source text, token text and names are lists of characters. Positions in a source are counted in
bytes of its UTF-8 encoding, so this module measures and cuts lists of characters by bytes. Words
are compared without regard to the case of ASCII letters; every other character stands for itself.

## Main definitions

* `Text.byteSize` is the length of a text in bytes.
* `Text.slice` cuts out the part between two byte offsets.
* `Text.sameWord` compares two words, ignoring ASCII case.

## Main statements

* `Text.dropBytes_append`, `Text.takeBytes_append`: cutting at the size of a leading part separates
  exactly that part.
* `Text.slice_append`: the middle of three parts is the slice between their sizes.
-/

namespace PhpOutline

/-- A text, character by character. -/
abbrev Text := List Char

namespace Text

/-- The text as a string. -/
def shown (s : Text) : String := String.ofList s

/-! ## Words -/

/-- The text with its ASCII capitals made small. -/
def lower (s : Text) : Text := s.map Char.toLower

/-- Equality up to the case of ASCII letters. -/
def sameWord (s t : Text) : Bool := lower s == lower t

@[simp] theorem sameWord_refl (s : Text) : sameWord s s = true := by simp [sameWord]

theorem sameWord_iff {s t : Text} : sameWord s t = true ↔ lower s = lower t := by
  simp [sameWord]

theorem length_eq_of_sameWord {s t : Text} (h : sameWord s t = true) : s.length = t.length := by
  simpa [lower] using congrArg List.length (sameWord_iff.1 h)

/-- The text without its first character when that is `c`. -/
def stripOne (c : Char) : Text → Option Text
  | d :: s => if d = c then some s else none
  | [] => none

/-- The text without its leading run of `c`. -/
def stripAll (c : Char) (s : Text) : Text := s.dropWhile (· == c)

theorem head?_stripAll_ne (c : Char) (s : Text) : (stripAll c s).head? ≠ some c := by
  intro h
  have := List.head?_dropWhile_not (· == c) s
  simp only [stripAll] at h
  rw [h] at this
  simp at this

/-! ## Lines -/

/-- The number of line ends in a text. -/
def newlines (s : Text) : Nat := s.count '\n'

@[simp] theorem newlines_nil : newlines [] = 0 := rfl

@[simp] theorem newlines_append (s t : Text) : newlines (s ++ t) = newlines s + newlines t := by
  simp [newlines]

/-! ## Bytes -/

/-- The length of a text in bytes. -/
def byteSize : Text → Nat
  | [] => 0
  | c :: s => c.utf8Size + byteSize s

@[simp] theorem byteSize_nil : byteSize [] = 0 := rfl

@[simp] theorem byteSize_cons (c : Char) (s : Text) :
    byteSize (c :: s) = c.utf8Size + byteSize s := rfl

@[simp] theorem byteSize_append (s t : Text) : byteSize (s ++ t) = byteSize s + byteSize t := by
  induction s with
  | nil => simp
  | cons c s ih => simp [ih, Nat.add_assoc]

theorem byteSize_pos {s : Text} (h : s ≠ []) : 0 < byteSize s := by
  cases s with
  | nil => exact absurd rfl h
  | cons c s => have := c.utf8Size_pos; simp; omega

/-- The text from byte `n` on. A character that `n` falls into is dropped. -/
def dropBytes : Nat → Text → Text
  | 0, s => s
  | _ + 1, [] => []
  | n + 1, c :: s => dropBytes (n + 1 - c.utf8Size) s

/-- The first `n` bytes of a text. A character that `n` falls into is kept. -/
def takeBytes : Nat → Text → Text
  | 0, _ => []
  | _ + 1, [] => []
  | n + 1, c :: s => c :: takeBytes (n + 1 - c.utf8Size) s

/-- The part of a text from byte `first` up to, and without, byte `stop`. -/
def slice (s : Text) (first stop : Nat) : Text := takeBytes (stop - first) (dropBytes first s)

@[simp] theorem dropBytes_zero (s : Text) : dropBytes 0 s = s := by simp [dropBytes]

@[simp] theorem takeBytes_zero (s : Text) : takeBytes 0 s = [] := by simp [takeBytes]

/-- Past a leading part, its bytes have been dropped. -/
theorem dropBytes_append (s t : Text) (n : Nat) :
    dropBytes (byteSize s + n) (s ++ t) = dropBytes n t := by
  induction s with
  | nil => simp
  | cons c s ih =>
    have hc := c.utf8Size_pos
    obtain ⟨m, hm⟩ : ∃ m, byteSize (c :: s) + n = m + 1 :=
      ⟨byteSize (c :: s) + n - 1, by simp; omega⟩
    rw [hm, List.cons_append, dropBytes, ← hm, byteSize_cons,
      show c.utf8Size + byteSize s + n - c.utf8Size = byteSize s + n by omega, ih]

theorem dropBytes_byteSize (s t : Text) : dropBytes (byteSize s) (s ++ t) = t := by
  simpa using dropBytes_append s t 0

/-- The bytes of a leading part are that part. -/
theorem takeBytes_append (s t : Text) : takeBytes (byteSize s) (s ++ t) = s := by
  induction s with
  | nil => simp
  | cons c s ih =>
    have hc := c.utf8Size_pos
    obtain ⟨m, hm⟩ : ∃ m, byteSize (c :: s) = m + 1 := ⟨byteSize (c :: s) - 1, by simp; omega⟩
    rw [hm, List.cons_append, takeBytes, ← hm, byteSize_cons,
      show c.utf8Size + byteSize s - c.utf8Size = byteSize s by omega, ih]

/-- The middle of three parts is the slice between their byte sizes. -/
theorem slice_append (a b c : Text) :
    slice (a ++ b ++ c) (byteSize a) (byteSize a + byteSize b) = b := by
  rw [slice, List.append_assoc, dropBytes_byteSize, Nat.add_sub_cancel_left, takeBytes_append]

end Text

end PhpOutline
