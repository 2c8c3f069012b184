import PhpOutline.Text.Basic

/-!
# Tags

Code stands between tags; the text outside them is passed through. An opening tag is the long one
with one space character or the end of the source behind it, the echo tag, or, where allowed, the
short one.

## Main definitions

* `openTag?`: the length of the opening tag at the head of a text.
* `htmlTail`: how far the text outside the tags goes on.
* `closeTagTail`: the line end that belongs to a closing tag.
-/

namespace PhpOutline.Lexeme

/-- The length of the long opening tag, given the text behind it. -/
def longTagSize? : Text → Option Nat
  | [] => some 5
  | '\r' :: '\n' :: _ => some 7
  | c :: _ => if c == ' ' || c == '\t' || c == '\n' || c == '\r' then some 6 else none

/-- The length of the opening tag at the head of a text. The long tag's letters may have any case,
and when something else follows them there is no tag at all. -/
def openTag? (short : Bool) : Text → Option Nat
  | '<' :: '?' :: s =>
    if Text.sameWord (s.take 3) "php".toList then longTagSize? (s.drop 3)
    else if s.head? == some '=' then some 3
    else if short then some 2
    else none
  | _ => none

/-- The number of characters before the next opening tag. -/
def htmlTail (short : Bool) : Text → Nat
  | [] => 0
  | c :: s => if (openTag? short (c :: s)).isSome then 0 else htmlTail short s + 1

/-- The length of the line end that belongs to a closing tag, given the text behind it. -/
def closeTagTail : Text → Nat
  | '\r' :: '\n' :: _ => 2
  | '\n' :: _ => 1
  | _ => 0

/-- Every opening tag has at least two characters, the first two being its signs. -/
theorem openTag?_some_ge {short : Bool} {s : Text} {n : Nat} (h : openTag? short s = some n) :
    2 ≤ n ∧ ['<', '?'] <+: s := by
  unfold openTag? at h
  split at h
  case h_1 s =>
    refine ⟨?_, by simp⟩
    split at h
    · unfold longTagSize? at h
      split at h
      · simp at h; omega
      · simp at h; omega
      · split at h <;> simp at h; omega
    · split at h
      · simp at h; omega
      · split at h <;> simp at h; omega
  case h_2 => simp at h

end PhpOutline.Lexeme
