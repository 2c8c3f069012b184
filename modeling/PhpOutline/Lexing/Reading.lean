import PhpOutline.Diagnostic
import PhpOutline.Lexeme.Comment
import PhpOutline.Lexeme.Heredoc
import PhpOutline.Lexeme.Quoted
import PhpOutline.Lexeme.Sign
import PhpOutline.Lexeme.Tag

/-!
# Reading one lexeme

What stands at a place of the source depends on the mode, which is html outside the tags and code
between them. In code, the mode also remembers whether a member operator stands before the place,
because every word behind one is a name.

## Main definitions

* `Options`: the choices that a caller has.
* `Mode`, and `Mode.after`, which follows it along the tokens.
* `Reading`: what can stand at a place.
* `readHtml`, `readCode`: what does stand there.
-/

namespace PhpOutline

/-- How a source is read. -/
structure Options where
  /-- The source is code from its first character on, without an opening tag. -/
  startInCode : Bool := false
  /-- The short opening tag counts as one. -/
  shortOpenTags : Bool := false
deriving DecidableEq, Repr

/-- Where a place of the source stands. -/
inductive Mode where
  /-- Outside the tags. -/
  | html
  /-- Between tags; the flag says that the last token other than trivia is a member operator. -/
  | code (afterMember : Bool)
deriving DecidableEq, Repr

namespace Mode

/-- The mode at the start of a source. -/
def initial (o : Options) : Mode := if o.startInCode then code false else html

/-- The mode behind a token. -/
def after (m : Mode) : Kind → Mode
  | .inlineHtml | .closeTag => html
  | .whitespace | .comment | .docComment => m
  | .objectOperator | .doubleColon => code true
  | _ => code false

end Mode

/-- What can stand at a place of the source. -/
inductive Reading where
  /-- A token that goes on for `tail` characters behind its first one. -/
  | lexeme (kind : Kind) (tail : Nat)
  /-- A token without its end, which takes the rest of the source. -/
  | unterminated (kind : Kind) (fault : Fault)
  /-- A character that begins no token. -/
  | stray
deriving DecidableEq, Repr

namespace Lexeme

/-- The ASCII control characters. -/
def isControl (c : Char) : Bool := c.toNat < 0x20 || c.toNat == 0x7F

/-- Outside the tags: an opening tag, or text up to the next one. -/
def readHtml (short : Bool) (c : Char) (s : Text) : Reading :=
  match openTag? short (c :: s) with
  | some n => .lexeme .openTag (n - 1)
  | none => .lexeme .inlineHtml (htmlTail short s)

/-- A block comment, given the text behind its slash and star. -/
def readBlockComment (s : Text) : Reading :=
  let kind := if isDocOpening s then Kind.docComment else .comment
  match blockEnd? s with
  | some n => .lexeme kind (n + 1)
  | none => .unterminated kind .unterminatedComment

/-- A quoted string, given the text behind its opening quote. -/
def readQuoted (frame : Frame) (s : Text) : Reading :=
  match quotedEnd? [frame] s with
  | some n => .lexeme .string n
  | none => .unterminated .string .unterminatedString

/-- A heredoc, when the text behind its three angle brackets opens one. -/
def readHeredoc? (s : Text) : Option Reading :=
  (heredocOpening? s).map fun (marker, body) =>
    match heredocEnd? marker true body with
    | some n => .lexeme .string (2 + (s.length - body.length) + n)
    | none => .unterminated .string (.unterminatedHeredoc marker)

/-- A sign, or a control character, which is none. -/
def readSign (c : Char) (s : Text) : Reading :=
  if isControl c then .stray
  else
    let (kind, n) := sign c s
    .lexeme kind n

/-- A name, which may be a keyword. -/
def readName (afterMember : Bool) (c : Char) (s : Text) : Reading :=
  let n := nameTail s
  .lexeme (wordKind afterMember (c :: s.take n) (s.drop n)) n

/-- In code: the lexeme that begins with `c`, which is no white space and begins no word and no
number, with `s` behind it. -/
def readMark (afterMember : Bool) (c : Char) (s : Text) : Reading :=
  match c with
  | '?' =>
    if startsWith (· == '>') s then .lexeme .closeTag (1 + closeTagTail (s.drop 1))
    else readSign c s
  | '#' =>
    if startsWith (· == '[') s then .lexeme .attributeOpener 1
    else .lexeme .comment (lineCommentTail s)
  | '/' =>
    if startsWith (· == '/') s then .lexeme .comment (1 + lineCommentTail (s.drop 1))
    else if startsWith (· == '*') s then readBlockComment (s.drop 1)
    else readSign c s
  | '$' => if startsWith isIdentStart s then .lexeme .variableName (identTail s) else readSign c s
  | '\\' => if startsWith isIdentStart s then readName afterMember c s else readSign c s
  | '.' =>
    if startsWith Char.isDigit s then .lexeme .number (numberTail false c s) else readSign c s
  | '\'' => readQuoted .single s
  | '"' => readQuoted (.interpolated '"') s
  | '\x60' => readQuoted (.interpolated '\x60') s
  | '<' =>
    if ['<', '<'].isPrefixOf s then (readHeredoc? (s.drop 2)).getD (.lexeme .other 0)
    else readSign c s
  | c => readSign c s

/-- In code: the lexeme that begins with `c`, with `s` behind it. -/
def readCode (afterMember : Bool) (c : Char) (s : Text) : Reading :=
  if isSpace c then .lexeme .whitespace (runLength isSpace s)
  else if isIdentStart c then readName afterMember c s
  else if c.isDigit then .lexeme .number (numberTail (isHexadecimal c s) c s)
  else readMark afterMember c s

/-- What stands at a place in a mode. -/
def read (short : Bool) : Mode → Char → Text → Reading
  | .html, c, s => readHtml short c s
  | .code afterMember, c, s => readCode afterMember c s

end Lexeme

end PhpOutline
