import PhpOutline.Text.Basic

/-!
# Lexical faults

A fault never stops the reading of a source: an unterminated token runs to the end of the source,
and a control character that begins no token is left out. A diagnostic is a fault with its line.

## Main definitions

* `Fault`, `Diagnostic` and the wording of both.
-/

namespace PhpOutline

/-- What can be wrong with the text of a source. -/
inductive Fault where
  /-- A quoted string without its closing quote. -/
  | unterminatedString
  /-- A block comment without its end. -/
  | unterminatedComment
  /-- A heredoc without its closing marker. -/
  | unterminatedHeredoc (marker : Text)
  /-- A control character that begins no token. -/
  | unexpectedCharacter (c : Char)
deriving DecidableEq, Repr

/-- A control character between single quotes: NUL as an escaped zero, any other one by its code
point in small hexadecimal digits. -/
def quotedControl (c : Char) : String :=
  if c.toNat = 0 then "'\\0'"
  else "'\\u" ++ String.ofList ('{' :: (Nat.toDigits 16 c.toNat ++ ['}'])) ++ "'"

/-- The wording of a fault. -/
def Fault.message : Fault → String
  | unterminatedString => "unterminated string"
  | unterminatedComment => "unterminated block comment"
  | unterminatedHeredoc marker =>
    "unterminated heredoc, expected closing marker: " ++ marker.shown
  | unexpectedCharacter c => "unexpected character: " ++ quotedControl c

/-- A fault and the line on which it begins. -/
structure Diagnostic where
  fault : Fault
  line : Nat
deriving DecidableEq, Repr

/-- The wording of a diagnostic. -/
def Diagnostic.message (d : Diagnostic) : String :=
  d.fault.message ++ " at line " ++ toString d.line

end PhpOutline
