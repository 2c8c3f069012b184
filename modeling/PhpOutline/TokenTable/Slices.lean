import PhpOutline.TokenTable.Basic

/-!
# Text of spans and doc comments

The text of a span is cut from the source, so that it holds the white space and comments between
its tokens. A doc comment belongs to the declaration behind it when only white space, plain
comments and attributes stand between the two.

## Main definitions

* `TokenTable.sourceOf`: the text of a span.
* `TokenTable.sourceBetween`: the text strictly between two places.
* `TokenTable.docComment?`: the doc comment that belongs to a place.
-/

namespace PhpOutline.TokenTable

/-- The source text from the first through the last token of a span. -/
def sourceOf (t : TokenTable) (s : Span) : Text :=
  match t.get? s.first, t.get? s.last with
  | some a, some b => t.source.slice a.offset b.stop
  | _, _ => []

/-- The source text strictly between two tokens. -/
def sourceBetween (t : TokenTable) (i j : Nat) : Text :=
  match t.get? i, t.get? j with
  | some a, some b => if a.stop ≤ b.offset then t.source.slice a.stop b.offset else []
  | _, _ => []

/-- The nearest doc comment among tokens in reverse order, when the first `k` are passed over and
only white space, plain comments and attributes stand before it. -/
def docCommentBack? : (k : Nat) → List Token → Option Text
  | _, [] => none
  | k + 1, _ :: ts => docCommentBack? k ts
  | 0, t :: ts =>
    match t.kind with
    | .docComment => some t.text
    | .whitespace | .comment => docCommentBack? 0 ts
    | .closer .square =>
      match attributeOffset? 0 ((t :: ts).map Token.kind) with
      | some n => docCommentBack? n ts
      | none => none
    | _ => none

/-- The doc comment that belongs to the declaration at place `i`. -/
def docComment? (t : TokenTable) (i : Nat) : Option Text :=
  docCommentBack? 0 (t.tokens.take i).reverse

end PhpOutline.TokenTable
