import PhpOutline.Lexeme.Word

/-!
# Comments

A line comment ends before the line end or the closing tag that follows it. A block comment ends
with the first star and slash behind its opening, and is a doc comment when two stars and a gap
open it.

## Main definitions

* `lineCommentTail`, `blockEnd?`, `isDocOpening`.
-/

namespace PhpOutline.Lexeme

/-- How far a line comment goes on. -/
def lineCommentTail : Text → Nat
  | [] => 0
  | '\n' :: _ => 0
  | '?' :: '>' :: _ => 0
  | _ :: s => lineCommentTail s + 1

/-- The number of characters up to the end of the first star and slash, when there is one. -/
def blockEnd? : Text → Option Nat
  | [] => none
  | '*' :: '/' :: _ => some 2
  | _ :: s => (blockEnd? s).map (· + 1)

/-- Whether the text behind a slash and a star makes the comment a doc comment. -/
def isDocOpening : Text → Bool
  | '*' :: c :: _ => isGap c
  | _ => false

end PhpOutline.Lexeme
