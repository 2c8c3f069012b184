import PhpOutline.Token.Kind

/-!
# Words

Identifiers, names of several segments, numbers, and the rule by which a word becomes a keyword.
Each reader looks at the text behind the first character of a lexeme and says how many of its
characters belong to it.

## Main definitions

* `isIdentStart`, `isIdentChar`: the characters of identifiers. Every character beyond ASCII is
  one.
* `identTail`, `nameTail`, `numberTail`: how far an identifier, a name or a number goes on.
* `wordKind`: the kind of a word in its context.
-/

namespace PhpOutline.Lexeme

/-- A character that can begin an identifier: a letter, an underscore, or any one beyond ASCII. -/
def isIdentStart (c : Char) : Bool := c.isAlpha || c == '_' || 0x80 ≤ c.toNat

/-- A character that can continue an identifier. -/
def isIdentChar (c : Char) : Bool := isIdentStart c || c.isDigit

/-- Whether a text begins with a character of a class. -/
def startsWith (p : Char → Bool) : Text → Bool
  | c :: _ => p c
  | [] => false

/-- The white space of code: blank, tab, line feed, carriage return, vertical tab, form feed. -/
def isSpace (c : Char) : Bool :=
  c == ' ' || c == '\t' || c == '\n' || c == '\r' || c == '\x0b' || c == '\x0c'

/-- A blank or a tab. -/
def isIndent (c : Char) : Bool := c == ' ' || c == '\t'

/-- Blank, tab, line feed or carriage return. -/
def isGap (c : Char) : Bool := isIndent c || c == '\n' || c == '\r'

/-- The number of characters at the head of a text that belong to a class. -/
def runLength (p : Char → Bool) (s : Text) : Nat := (s.takeWhile p).length

/-- How far an identifier goes on. -/
def identTail (s : Text) : Nat := runLength isIdentChar s

/-- How far a name goes on: over identifier characters, over a backslash in front of a further
segment, and over a last backslash in front of a brace, where a group of names follows. -/
def nameTail : Text → Nat
  | [] => 0
  | c :: s =>
    if isIdentChar c then nameTail s + 1
    else if c == '\\' then
      if startsWith isIdentStart s then nameTail s + 1
      else if startsWith (· == '{') s then 1
      else 0
    else 0

/-- How far a number goes on, behind its character `prev`: over letters, digits and underscores,
over a point in front of a digit, and, unless the number is hexadecimal, over the sign of an
exponent. -/
def numberTail (hexadecimal : Bool) : Char → Text → Nat
  | _, [] => 0
  | prev, c :: s =>
    if c.isAlphanum || c == '_' || (c == '.' && startsWith Char.isDigit s)
        || ((c == '+' || c == '-') && (prev == 'e' || prev == 'E') && !hexadecimal) then
      numberTail hexadecimal c s + 1
    else 0

/-- Whether a number with first character `c` and further text `s` is hexadecimal. -/
def isHexadecimal (c : Char) (s : Text) : Bool :=
  c == '0' && startsWith (fun d => d == 'x' || d == 'X') s

/-! ## Keywords in context -/

/-- The identifier at the head of a text. -/
def identAt (s : Text) : Text := s.takeWhile isIdentChar

/-- Whether the text behind the word `enum` makes it a keyword: a gap, then an identifier that is
not the start of a further clause. -/
def enumFollows (s : Text) : Bool :=
  let rest := s.dropWhile isGap
  startsWith isGap s && startsWith isIdentStart rest
    && !(identAt rest).sameWord "extends".toList && !(identAt rest).sameWord "implements".toList

/-- The kind of a word that `rest` follows. A word with a backslash, or one behind a member
operator, is a name whatever it spells. -/
def wordKind (afterMember : Bool) (word rest : Text) : Kind :=
  if word.contains '\\' || afterMember then .name
  else
    match Keyword.ofWord? word with
    | none => .name
    | some (.declares .enumeration) =>
      if enumFollows rest then .keyword (.declares .enumeration) else .name
    | some k => .keyword k

end PhpOutline.Lexeme
