import PhpOutline.Text.Basic

/-!
# Quoted strings

In single quotes a backslash takes the next character with it. In double quotes or backticks it
does so too, and a brace directly before a dollar sign opens an interpolation: code up to the
matching brace, in which braces nest and strings are skipped as strings. Quotes and braces can so
nest in one another to any depth, and the reader keeps what is open on a stack.

## Main definitions

* `Frame`: something that is open.
* `quotedEnd?`: where everything that is open is closed.
-/

namespace PhpOutline.Lexeme

/-- Something that stands open inside a string. -/
inductive Frame where
  /-- A string in single quotes. -/
  | single
  /-- A string that ends with `quote` and may hold interpolations. -/
  | interpolated (quote : Char)
  /-- The braces of an interpolation, or braces inside one. -/
  | braces
deriving DecidableEq, Repr

/-- The number of characters up to the one that closes the last open frame, when there is one. -/
def quotedEnd? : List Frame → Text → Option Nat
  | [], _ => some 0
  | _ :: _, [] => none
  | .single :: outer, c :: s =>
    if c = '\\' then
      match s with
      | [] => none
      | _ :: s => (quotedEnd? (.single :: outer) s).map (· + 2)
    else if c = '\'' then (quotedEnd? outer s).map (· + 1)
    else (quotedEnd? (.single :: outer) s).map (· + 1)
  | .interpolated quote :: outer, c :: s =>
    if c = '\\' then
      match s with
      | [] => none
      | _ :: s => (quotedEnd? (.interpolated quote :: outer) s).map (· + 2)
    else if c = '{' ∧ s.head? = some '$' then
      (quotedEnd? (.braces :: .interpolated quote :: outer) s).map (· + 1)
    else if c = quote then (quotedEnd? outer s).map (· + 1)
    else (quotedEnd? (.interpolated quote :: outer) s).map (· + 1)
  | .braces :: outer, c :: s =>
    if c = '{' then (quotedEnd? (.braces :: .braces :: outer) s).map (· + 1)
    else if c = '}' then (quotedEnd? outer s).map (· + 1)
    else if c = '\'' then (quotedEnd? (.single :: .braces :: outer) s).map (· + 1)
    else if c = '"' then (quotedEnd? (.interpolated '"' :: .braces :: outer) s).map (· + 1)
    else (quotedEnd? (.braces :: outer) s).map (· + 1)
termination_by structural _ s => s

end PhpOutline.Lexeme
