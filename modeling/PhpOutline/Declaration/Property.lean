import PhpOutline.Modifiers
import PhpOutline.Name.Context
import PhpOutline.TokenTable.Slices

/-!
# Properties and constants

One declaration can introduce several properties or constants. Each is read from the span of the
declaration, which holds what they share, and the span of its own item.

## Main definitions

* `Property` and `Property.read`.
* `Constant` and `Constant.read`.
-/

namespace PhpOutline

/-- A property of a type. -/
structure Property where
  /-- The variable without its dollar sign. -/
  name : Text
  modifiers : Modifiers
  /-- The type as it is written. -/
  typeHint : Option Text
  /-- The class that the type names. -/
  className : Option Text
  /-- The default value as it is written. -/
  defaultValue : Option Text
  line : Nat
  doc : Option Text
deriving DecidableEq, Repr

namespace Property

/-- The visibility in effect. -/
def visibility (p : Property) : Visibility := p.modifiers.visibility

/-- The entries of an item from its variable on. -/
def named (t : TokenTable) (item : Span) : List Entry :=
  (t.within item).dropWhile fun e => e.kind != .variableName

/-- One step over a default value that begins at `first` in an item that ends at `last`: brackets
belong to it as a whole, and a brace behind its start, which opens a block of hooks, ends it. The
state is the last place of the value. -/
def valueStep (first last : Nat) (state : Nat) (e : Entry) (es : List Entry) : Nat × Nat :=
  match e.kind with
  | .opener .brace => if first < e.index then (state, es.length) else (e.index, 0)
  | .opener .paren | .opener .square =>
    match groupEnd? (Entry.kinds (e :: es)) with
    | some n => (e.index + n, n)
    | none => (last, es.length)
  | k => if k.isInsignificant then (state, 0) else (e.index, 0)

/-- The span of the default value, given the entries behind the variable. -/
def valueSpan? (last : Nat) (es : List Entry) : Option Span :=
  match Entry.skipTrivia ((es.dropWhile fun e => e.kind != .equals).drop 1) with
  | v :: rest =>
    some (.ofBounds v.index (settle (valueStep v.index last) v.index 0 (v :: rest)))
  | [] => none

/-- The property that `item` introduces in the declaration `decl`. -/
def read (t : TokenTable) (context : NameContext) (scope : Option ClassScope) (decl item : Span) :
    Property :=
  let front := (t.within decl).takeWhile fun e => e.kind != .variableName
  let typed := (Entry.significant front).filter fun e => e.kind.modifier?.isNone
  let typeHint := (Entry.extent? typed).map t.sourceOf
  let named := named t item
  { name := (named.head?.map fun e => e.text.drop 1).getD []
    modifiers := .ofKinds (Entry.kinds front)
    typeHint
    className := typeHint.bind fun hint => context.resolveType? hint scope
    defaultValue := (valueSpan? item.last named).map t.sourceOf
    line := t.line ((named.head?.map Entry.index).getD item.first)
    doc := t.docComment? decl.first }

end Property

/-- A constant of a type. -/
structure Constant where
  name : Text
  modifiers : Modifiers
  /-- The value as it is written. -/
  value : Option Text
  line : Nat
  doc : Option Text
deriving DecidableEq, Repr

namespace Constant

/-- The visibility in effect. -/
def visibility (c : Constant) : Visibility := c.modifiers.visibility

/-- The place of the name: the last significant token before the equals sign, or the last place of
an item without one. -/
def nameIndex? (t : TokenTable) (item : Span) : Option Nat :=
  let es := t.within item
  if es.any fun e => e.kind == .equals then
    (Entry.significant (es.takeWhile fun e => e.kind != .equals)).getLast?.map Entry.index
  else some item.last

/-- The constant that `item` introduces in the declaration `decl`. -/
def read (t : TokenTable) (decl item : Span) : Constant :=
  let front := (t.within decl).takeWhile fun e => e.kind != .keyword .const
  let behind := ((t.within item).dropWhile fun e => e.kind != .equals).drop 1
  let name := nameIndex? t item
  { name := (name.map t.text).getD []
    modifiers := .ofKinds (Entry.kinds front)
    value := (Entry.skipTrivia behind).head?.map fun v => t.sourceOf (.ofBounds v.index item.last)
    line := t.line (name.getD item.first)
    doc := t.docComment? decl.first }

end Constant

end PhpOutline
