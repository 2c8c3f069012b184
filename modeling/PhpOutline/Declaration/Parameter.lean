import PhpOutline.Modifiers
import PhpOutline.Name.Context
import PhpOutline.TokenTable.Slices

/-!
# Parameters

A parameter is read from the tokens of one piece of a parameter list: attributes, the modifiers of
a promoted parameter, a type, the marks for a reference and for a variadic parameter, the variable,
and behind an equals sign the default value.

## Main definitions

* `Parameter` and `Parameter.read`.
* `Parameter.allowsNull`: whether null is an argument for it.
-/

namespace PhpOutline

/-- A parameter of a function or method. -/
structure Parameter where
  span : Span
  line : Nat
  /-- The place in the parameter list, from zero. -/
  position : Nat
  /-- The variable without its dollar sign. -/
  name : Text
  /-- The type as it is written. -/
  typeHint : Option Text
  /-- The class that the type names. -/
  className : Option Text
  /-- The default value as it is written. -/
  defaultValue : Option Text
  byReference : Bool
  variadic : Bool
  /-- The visibility of the property that the parameter is promoted to. -/
  promoted : Option Visibility
deriving DecidableEq, Repr

namespace Parameter

/-- What has been read of a parameter. -/
structure Draft where
  modifiers : Modifiers := {}
  typeSpan : Option Span := none
  name : Option Text := none
  defaultValue : Option Text := none
  byReference : Bool := false
  variadic : Bool := false
deriving DecidableEq, Repr

/-- A further token of the type. -/
def Draft.extendType (d : Draft) (i : Nat) : Draft :=
  { d with typeSpan := some (.ofBounds ((d.typeSpan.map Span.first).getD i) i) }

/-- Whether an ampersand at place `i` marks a reference: the variable or the variadic mark follows.
Otherwise it belongs to an intersection type. -/
def marksReference (t : TokenTable) (i : Nat) : Bool :=
  match Entry.skipTrivia (t.startingAt (i + 1)) with
  | e :: _ => e.kind == .variableName || e.kind == .ellipsis
  | [] => false

/-- A token in front of the variable. -/
def readFront (t : TokenTable) (d : Draft) (e : Entry) : Draft :=
  if d.typeSpan.isNone && e.kind.modifier?.isSome then
    { d with modifiers := d.modifiers.apply e.kind }
  else
    match e.kind with
    | .ampersand =>
      if marksReference t e.index then { d with byReference := true } else d.extendType e.index
    | .ellipsis => { d with variadic := true }
    | .variableName => { d with name := some (e.text.drop 1) }
    | _ => d.extendType e.index

/-- One step over the tokens of a parameter that ends at place `last`. Attributes are passed over,
and an equals sign behind the variable takes everything that follows. -/
def step (t : TokenTable) (last : Nat) (d : Draft) (e : Entry) (es : List Entry) : Draft × Nat :=
  if e.kind.isInsignificant then (d, 0)
  else if e.kind = .attributeOpener then (d, (groupEnd? (Entry.kinds (e :: es))).getD es.length)
  else if d.name.isNone then (readFront t d e, 0)
  else if e.kind = .equals then
    let value := (Entry.skipTrivia es).head?.map fun v => t.sourceOf (.ofBounds v.index last)
    ({ d with defaultValue := value }, es.length)
  else (d, 0)

/-- The parameter in a span. A readonly parameter is promoted, and is public unless it says
otherwise. -/
def read (t : TokenTable) (context : NameContext) (scope : Option ClassScope) (span : Span)
    (position : Nat) : Parameter :=
  let d := settle (step t span.last) {} 0 (t.within span)
  let typeHint := d.typeSpan.map t.sourceOf
  { span
    line := t.line span.first
    position
    name := d.name.getD []
    typeHint
    className := typeHint.bind fun hint => context.resolveType? hint scope
    defaultValue := d.defaultValue
    byReference := d.byReference
    variadic := d.variadic
    promoted :=
      d.modifiers.explicit.or (if d.modifiers.isReadonly then some .publicAccess else none) }

/-- Whether a type as written accepts null. -/
def hintAllowsNull (hint : Text) : Bool :=
  hint.head? == some '?' || hint.sameWord "mixed".toList
    || (hint.splitOn '|').any fun (part : Text) => part.trim.sameWord "null".toList

/-- Whether null is an argument for the parameter: it has no type, its type accepts null, or its
default is null. -/
def allowsNull (p : Parameter) : Bool :=
  p.typeHint.all hintAllowsNull || p.defaultValue.any fun v => v.sameWord "null".toList

end Parameter

end PhpOutline
