import PhpOutline.Declaration.Parameter

/-!
# Functions and methods

A function or method is read from the span of its declaration: modifiers, the word `function`, the
name, the parameter list, the return type, and the body.

## Main definitions

* `Callable` and `Callable.read`.
-/

namespace PhpOutline

/-- A function, or a method of a type. -/
structure Callable where
  span : Span
  name : Text
  modifiers : Modifiers
  inInterface : Bool
  /-- The function returns a reference. -/
  returnsReference : Bool
  /-- The parentheses of the parameter list. -/
  parameterList : Option Span
  parameters : List Parameter
  returnSpan : Option Span
  /-- The return type as it is written. -/
  returnType : Option Text
  /-- The braces of the body. -/
  bodySpan : Option Span
  /-- The text between the braces of the body. -/
  body : Text
  /-- The class around a method. -/
  declaringClass : Option Text
  lineFirst : Nat
  lineLast : Nat
  doc : Option Text
deriving DecidableEq, Repr

namespace Callable

/-- Whether a method has no body by declaration: it is marked so, or belongs to an interface. -/
def isAbstract (c : Callable) : Bool := c.modifiers.isAbstract || c.inInterface

/-- The visibility in effect. -/
def visibility (c : Callable) : Visibility := c.modifiers.visibility

/-- The names of the parameters, in order. -/
def parameterNames (c : Callable) : List Text := c.parameters.map Parameter.name

/-! ## In front of the name -/

/-- The modifiers before the word `function`, and the tokens behind it. -/
structure LeadIn where
  modifiers : Modifiers := {}
  rest : List Entry := []
deriving DecidableEq, Repr

/-- One step up to the word `function`. Attributes are passed over. -/
def leadInStep (l : LeadIn) (e : Entry) (es : List Entry) : LeadIn × Nat :=
  match e.kind with
  | .keyword .function => ({ l with rest := es }, es.length)
  | .attributeOpener => (l, (groupEnd? (Entry.kinds (e :: es))).getD es.length)
  | k => ({ l with modifiers := l.modifiers.apply k }, 0)

/-- What stands before the name of the function in `es`. -/
def leadIn (es : List Entry) : LeadIn := settle leadInStep {} 0 es

/-- Whether an ampersand stands before the name, and the tokens from the name on. -/
def naming (es : List Entry) : Bool × List Entry :=
  match Entry.skipTrivia es with
  | e :: rest => if e.kind = .ampersand then (true, Entry.skipTrivia rest) else (false, e :: rest)
  | [] => (false, [])

/-! ## Behind the name -/

/-- The place that closes the bracket at the head of `es`, or `last`. -/
def groupLast (last : Nat) : List Entry → Nat
  | e :: es => ((groupEnd? (Entry.kinds (e :: es))).map (e.index + ·)).getD last
  | [] => last

/-- The parentheses of the first parameter list in `es`. -/
def parameterList? (last : Nat) (es : List Entry) : Option Span :=
  match es.dropWhile fun e => e.kind != .opener .paren with
  | e :: rest => some (.ofBounds e.index (groupLast last (e :: rest)))
  | [] => none

/-- What stands behind a parameter list. -/
structure Tail where
  typeFirst : Option Nat := none
  typeLast : Option Nat := none
  body : Option Span := none
deriving DecidableEq, Repr

/-- One step behind the parameter list of a declaration that ends at place `last`. The return type
begins behind the first colon, and groups in parentheses belong to it as a whole. -/
def tailStep (t : TokenTable) (last : Nat) (d : Tail) (e : Entry) (es : List Entry) : Tail × Nat :=
  match e.kind, d.typeFirst with
  | .opener .brace, _ =>
    ({ d with body := some (.ofBounds e.index (groupLast last (e :: es))) }, es.length)
  | .semicolon, _ => (d, es.length)
  | .colon, none => ({ d with typeFirst := (Entry.skipTrivia es).head?.map Entry.index }, 0)
  | .opener .paren, some _ =>
    let close := (t.matchingClose? e.index).getD last
    ({ d with typeLast := some close }, close - e.index)
  | k, some _ => if k.isInsignificant then (d, 0) else ({ d with typeLast := some e.index }, 0)
  | _, none => (d, 0)

/-- What stands behind the parameter list of a declaration that ends at place `last`. -/
def tail (t : TokenTable) (last : Nat) (list : Span) : Tail :=
  settle (tailStep t last) {} 0 (t.window (list.last + 1) (last + 1))

/-- The span of the return type. -/
def Tail.typeSpan (d : Tail) : Option Span :=
  match d.typeFirst, d.typeLast with
  | some a, some b => some (.ofBounds a b)
  | _, _ => none

/-- The parameters in a parameter list. -/
def readParameters (t : TokenTable) (context : NameContext) (scope : Option ClassScope)
    (list : Span) : List Parameter :=
  (t.splitTopLevel list).mapIdx fun position piece => Parameter.read t context scope piece position

/-- The function or method in a span. -/
def read (t : TokenTable) (context : NameContext) (scope : Option ClassScope) (inInterface : Bool)
    (span : Span) : Callable :=
  let lead := leadIn (t.within span)
  let (returnsReference, named) := naming lead.rest
  let parameterList := parameterList? span.last named
  let tail := (parameterList.map (tail t span.last)).getD {}
  { span
    name := (named.head?.map fun e => e.text).getD []
    modifiers := lead.modifiers
    inInterface
    returnsReference
    parameterList
    parameters := (parameterList.map (readParameters t context scope)).getD []
    returnSpan := tail.typeSpan
    returnType := tail.typeSpan.map t.sourceOf
    bodySpan := tail.body
    body := (tail.body.map fun b => t.sourceBetween b.first b.last).getD []
    declaringClass := scope.map ClassScope.name
    lineFirst := t.line span.first
    lineLast := t.line span.last
    doc := t.docComment? span.first }

end Callable

end PhpOutline
