import PhpOutline.Token.Kind

/-!
# Tokens and spans

A token is a piece of the source with its kind and place. A span is a range of places in a
sequence of tokens.

## Main definitions

* `Token`, with `Token.stop` one past its last byte.
* `Span`: first and last place, both included, so that a span is never empty.
-/

namespace PhpOutline

/-- A piece of source text with its kind and place. -/
structure Token where
  kind : Kind
  text : Text
  /-- The line of the first character, from one. -/
  line : Nat
  /-- The byte offset of the first character. -/
  offset : Nat
deriving DecidableEq, Repr

namespace Token

/-- The byte offset one past the last character. -/
def stop (t : Token) : Nat := t.offset + t.text.byteSize

/-- Whether a reader of declarations looks at the token. -/
def isSignificant (t : Token) : Bool := !t.kind.isInsignificant

end Token

/-- A range of places in a sequence of tokens, both ends included. -/
structure Span where
  first : Nat
  last : Nat
  ordered : first ≤ last
deriving DecidableEq, Repr

namespace Span

/-- The span between two places; a last place before the first is raised to it. -/
def ofBounds (first last : Nat) : Span := ⟨first, max first last, Nat.le_max_left first last⟩

/-- The number of places that a span covers. -/
def size (s : Span) : Nat := s.last - s.first + 1

/-- Whether a place lies in a span. -/
def contains (s : Span) (i : Nat) : Bool := s.first ≤ i && i ≤ s.last

@[simp] theorem first_ofBounds (a b : Nat) : (ofBounds a b).first = a := rfl

@[simp] theorem last_ofBounds (a b : Nat) : (ofBounds a b).last = max a b := rfl

theorem contains_iff {s : Span} {i : Nat} : s.contains i = true ↔ s.first ≤ i ∧ i ≤ s.last := by
  simp [contains]

end Span

end PhpOutline
