import PhpOutline.Lexeme.Word

/-!
# Heredocs

A heredoc opens with three angle brackets, a marker that may stand in quotes, and the end of the
line. It ends with the marker at the start of a line, which may be indented, when no identifier
character follows. The line may go on behind the marker.

## Main definitions

* `heredocOpening?`: the marker, and the text behind the opening line.
* `closingLine?`: where a line closes the heredoc.
* `heredocEnd?`: the first such place.
-/

namespace PhpOutline.Lexeme

/-- The text behind a line end, which may have a carriage return before it. -/
def afterLineEnd? : Text → Option Text
  | '\n' :: s => some s
  | '\r' :: '\n' :: s => some s
  | _ => none

/-- The text behind the closing quote of a marker that was opened by `quote`, if by any. -/
def afterQuote? : Option Char → Text → Option Text
  | none, s => some s
  | some quote, s => s.stripOne quote

/-- The quote at the head of a text, and the text behind it. -/
def openingQuote : Text → Option Char × Text
  | '\'' :: s => (some '\'', s)
  | '"' :: s => (some '"', s)
  | s => (none, s)

/-- The marker of a heredoc and the text behind its first line, given the text behind the three
angle brackets. -/
def heredocOpening? (s : Text) : Option (Text × Text) :=
  let (quote, rest) := openingQuote (s.dropWhile isIndent)
  if startsWith isIdentStart rest then do
    let afterMarker ← afterQuote? quote (rest.dropWhile isIdentChar)
    let body ← afterLineEnd? afterMarker
    return (identAt rest, body)
  else none

/-- The number of characters through the marker when the line at the head of a text closes the
heredoc. -/
def closingLine? (marker s : Text) : Option Nat :=
  let rest := s.dropWhile isIndent
  if marker.isPrefixOf rest && !startsWith isIdentChar (rest.drop marker.length) then
    some (runLength isIndent s + marker.length)
  else none

/-- The number of characters through the first closing marker. The flag says that the text begins
a line. -/
def heredocEnd? (marker : Text) : Bool → Text → Option Nat
  | _, [] => none
  | fresh, c :: s =>
    match if fresh then closingLine? marker (c :: s) else none with
    | some n => some n
    | none => (heredocEnd? marker (c == '\n') s).map (· + 1)

end PhpOutline.Lexeme
