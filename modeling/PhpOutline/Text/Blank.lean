import PhpOutline.Text.Basic

/-!
# Blank characters

The characters of the Unicode property `White_Space`, and the removal of them from both ends of a
text.

## Main definitions

* `Text.isBlank` decides the property.
* `Text.trim` removes blanks from both ends.

## Main statements

* `Text.trimEnd_trimEnd`: removing the blanks at the end a second time changes nothing.
-/

namespace PhpOutline.Text

/-- The ranges of code points that are blank, both ends included, in increasing order. -/
def blankRanges : List (Nat × Nat) :=
  [(0x09, 0x0D), (0x20, 0x20), (0x85, 0x85), (0xA0, 0xA0), (0x1680, 0x1680), (0x2000, 0x200A),
    (0x2028, 0x2029), (0x202F, 0x202F), (0x205F, 0x205F), (0x3000, 0x3000)]

/-- The characters with the Unicode property `White_Space`. -/
def isBlank (c : Char) : Bool := blankRanges.any fun r => r.1 ≤ c.toNat && c.toNat ≤ r.2

/-- The text without the blanks at its start. -/
def trimStart (s : Text) : Text := s.dropWhile isBlank

/-- The text without the blanks at its end. -/
def trimEnd : Text → Text
  | [] => []
  | c :: s => if trimEnd s = [] ∧ isBlank c then [] else c :: trimEnd s

/-- The text without the blanks at both ends. -/
def trim (s : Text) : Text := trimEnd (trimStart s)

@[simp] theorem trimEnd_nil : trimEnd [] = [] := rfl

theorem trimEnd_cons (c : Char) (s : Text) :
    trimEnd (c :: s) = if trimEnd s = [] ∧ isBlank c then [] else c :: trimEnd s := rfl

@[simp] theorem trim_nil : trim [] = [] := rfl

/-- Removing the blanks at the end a second time changes nothing. -/
@[simp] theorem trimEnd_trimEnd (s : Text) : trimEnd (trimEnd s) = trimEnd s := by
  induction s with
  | nil => rfl
  | cons c s ih =>
    rw [trimEnd_cons]
    split
    · rfl
    · rename_i h
      rw [trimEnd_cons, ih, if_neg h]

end PhpOutline.Text
