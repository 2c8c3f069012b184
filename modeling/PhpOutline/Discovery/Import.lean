import PhpOutline.Text.Segments
import PhpOutline.TokenTable.Basic

/-!
# Use statements

A use statement at the top level of a file binds aliases to names. It lists names, each with its own
alias or known by its last segment, or a group of names behind a common stem. What stands behind
`function` or `const` names no class and binds nothing.

## Main definitions

* `Import`: an alias and the name that it stands for.
* `Import.ofStatement`: what the tokens of a statement bind.
-/

namespace PhpOutline

/-- An alias and the name that it stands for. -/
structure Import where
  key : Text
  name : Text
deriving DecidableEq, Repr

namespace Import

/-- What has been read of a use statement. -/
structure Draft where
  /-- The common start of the names of a group. -/
  stem : Text := []
  name : Option Text := none
  key : Option Text := none
  /-- The next token is an alias. -/
  expectsKey : Bool := false
  /-- The item names a function or a constant. -/
  skipped : Bool := false
deriving DecidableEq, Repr

/-- What the item that has been read binds. Without an alias, the last segment of a name stands for
it. -/
def Draft.imports (d : Draft) : List Import :=
  match d.skipped, d.name with
  | false, some name => [⟨d.key.getD (name.lastSegment '\\'), name⟩]
  | _, _ => []

/-- The draft of the next item. -/
def Draft.next (d : Draft) : Draft := { stem := d.stem }

/-- A name in a use statement: the word `as` behind a name, the stem of a group, or a name that is
imported. -/
def Draft.readName (d : Draft) (word : Text) : Draft :=
  if word.sameWord "as".toList && d.name.isSome then { d with expectsKey := true }
  else if word.getLast? == some '\\' then { d with stem := word.stripAll '\\' }
  else { d with name := some (d.stem ++ word.stripAll '\\') }

/-- A token that does not end an item. -/
def Draft.readToken (d : Draft) (t : Token) : Draft :=
  match t.kind with
  | .opener .brace => d
  | .keyword .function | .keyword .const => { d with skipped := true }
  | k =>
    if d.expectsKey then { d with key := some t.text, expectsKey := false }
    else if k = .name then d.readName t.text
    else d

/-- Whether a token ends an item. -/
def endsItem (k : Kind) : Bool := k == .comma || k == .closer .brace || k == .semicolon

/-- What the significant tokens of a statement behind `use` bind, in order. -/
def ofStatement (d : Draft) : List Token → List Import
  | [] => d.imports
  | t :: ts =>
    if endsItem t.kind then d.imports ++ ofStatement d.next ts else ofStatement (d.readToken t) ts

end Import

end PhpOutline
