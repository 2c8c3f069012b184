import PhpOutline.Token.Kind

/-!
# Signs

Brackets, separators and operators. The longest sign that begins at a place is taken; what has no
kind of its own is `Kind.other`.

## Main definitions

* `plainSign`: the kind of a sign of one character.
* `longerSigns`: the signs of several characters.
* `sign`: the kind of the sign at a place, and how many further characters belong to it.
-/

namespace PhpOutline.Lexeme

/-- The kind of the sign that is one character. -/
def plainSign : Char → Kind
  | '{' => .opener .brace
  | '}' => .closer .brace
  | '(' => .opener .paren
  | ')' => .closer .paren
  | '[' => .opener .square
  | ']' => .closer .square
  | ';' => .semicolon
  | ',' => .comma
  | '=' => .equals
  | '&' => .ampersand
  | '?' => .question
  | '|' => .pipe
  | ':' => .colon
  | _ => .other

/-- What can follow the first character of a longer sign, the longest first, and the kind of the
sign as a whole. -/
def longerSigns : Char → List (Text × Kind)
  | '=' => [(['=', '='], .other), (['='], .other), (['>'], .other)]
  | '&' => [(['&'], .other), (['='], .other)]
  | '.' => [(['.', '.'], .ellipsis)]
  | '?' => [(['-', '>'], .objectOperator), (['?', '='], .other), (['?'], .other)]
  | '|' => [(['|'], .other), (['='], .other)]
  | ':' => [([':'], .doubleColon)]
  | '-' => [(['>'], .objectOperator)]
  | _ => []

/-- The kind of the sign that begins with `c`, with `s` behind it, and the number of characters of
`s` that belong to it. -/
def sign (c : Char) (s : Text) : Kind × Nat :=
  match (longerSigns c).find? fun p => p.1.isPrefixOf s with
  | some p => (p.2, p.1.length)
  | none => (plainSign c, 0)

end PhpOutline.Lexeme
