import PhpOutline.Declaration.Member
import PhpOutline.Lookup

/-!
# Types

A class, interface, trait or enumeration is read from the span of its declaration. Its header names
a parent and interfaces; its body holds the members, each of which is read from its slot.

## Main definitions

* `ClassLike` and `ClassLike.read`.
* `ClassLike.constant`, `property`, `method`: members by name.
* `Callable.parameter`: parameters by name or position.
-/

namespace PhpOutline

/-- A member with the place it is declared at. -/
structure Listed (α : Type) extends Slot where
  record : α
deriving DecidableEq, Repr

/-- A class, interface, trait or enumeration. -/
structure ClassLike where
  span : Span
  /-- From the opening brace of the body to the end. -/
  body : Span
  kind : TypeKind
  context : NameContext
  modifiers : Modifiers
  /-- The name as declared. -/
  shortName : Text
  /-- The name with its namespace. -/
  name : Text
  parent : Option Text
  interfaces : List Text
  traits : List Text
  constants : List (Listed Constant)
  properties : List (Listed Property)
  methods : List (Listed Callable)
  lineFirst : Nat
  lineLast : Nat
  doc : Option Text
deriving DecidableEq, Repr

namespace ClassLike

/-! ## Header -/

/-- The lists of names in a header. -/
inductive Clause where
  | extended
  | implemented
deriving DecidableEq, Repr

/-- The names of a header with the list that each belongs to. A colon, in front of the type of an
enumeration, ends a list. -/
def references : Option Clause → List Entry → List (Clause × Text)
  | _, [] => []
  | clause, e :: es =>
    match e.kind, clause with
    | .keyword .extendsWord, _ => references (some .extended) es
    | .keyword .implementsWord, _ => references (some .implemented) es
    | .colon, _ => references none es
    | .name, some list => (list, e.text) :: references clause es
    | _, _ => references clause es

/-- The full names in one list of a header. -/
def listed (context : NameContext) (refs : List (Clause × Text)) (list : Clause) : List Text :=
  (refs.filter fun r => r.1 == list).map fun r => context.resolve r.2

/-- The parent and the interfaces that a header names. An interface has no parent: what it extends
are interfaces. -/
def ancestry (kind : TypeKind) (extended implemented : List Text) : Option Text × List Text :=
  match kind with
  | .interface => (none, extended ++ implemented)
  | _ => (extended.head?, implemented)

/-- The kind of type that a token declares. -/
def kindOf : Option Kind → TypeKind
  | some (.keyword (.declares k)) => k
  | _ => .plainClass

/-! ## The whole type -/

/-- The type in a span, with the word that declares its kind at place `keyword`. -/
def read (t : TokenTable) (context : NameContext) (span : Span) (keyword : Nat) : ClassLike :=
  let kind := kindOf (t.kind? keyword)
  let named := Entry.skipTrivia (t.window (keyword + 1) (span.last + 1))
  let shortName := (named.head?.map fun e => e.text).getD []
  let brace := ((named.find? fun e => e.kind == .opener .brace).map Entry.index).getD span.last
  let header := (named.head?.map fun e => t.window (e.index + 1) brace).getD []
  let refs := references none header
  let (parent, interfaces) :=
    ancestry kind (listed context refs .extended) (listed context refs .implemented)
  let scope : ClassScope := ⟨context.qualify shortName, parent⟩
  let body := Span.ofBounds brace span.last
  let members := Member.scan t context body
  { span
    body
    kind
    context
    modifiers := .ofKinds (Entry.kinds (t.window span.first keyword))
    shortName
    name := scope.name
    parent
    interfaces
    traits := members.filterMap Member.traitUse?
    constants := (members.filterMap Member.constant?).map fun s => ⟨s, .read t s.decl s.item⟩
    properties := (members.filterMap Member.property?).map fun s =>
      ⟨s, .read t context (some scope) s.decl s.item⟩
    methods := (members.filterMap Member.methodSlot?).map fun s =>
      ⟨s, .read t context (some scope) (kind == .interface) s.decl⟩
    lineFirst := t.line span.first
    lineLast := t.line span.last
    doc := t.docComment? span.first }

/-! ## Members by name -/

/-- A name without a dollar sign in front. -/
def withoutDollar (name : Text) : Text := (name.stripOne '$').getD name

/-- The constant of a name. -/
def constant (c : ClassLike) (name : Text) : Except Error Constant :=
  orNotFound .constant name
    ((firstNamed? (fun l => l.name) name c.constants).map fun l => l.record)

/-- The property of a name, with or without its dollar sign. -/
def property (c : ClassLike) (name : Text) : Except Error Property :=
  orNotFound .property (withoutDollar name)
    ((firstNamed? (fun l => l.name) (withoutDollar name) c.properties).map fun l => l.record)

/-- The method of a name. -/
def method (c : ClassLike) (name : Text) : Except Error Callable :=
  orNotFound .method name
    ((firstNamedAnyCase? (fun l => l.name) name c.methods).map fun l => l.record)

end ClassLike

/-- How a parameter is asked for. -/
inductive ParameterKey where
  | name (name : Text)
  | position (i : Nat)
deriving DecidableEq, Repr

/-- The parameter of a name, with or without its dollar sign, or at a position. -/
def Callable.parameter (c : Callable) : ParameterKey → Except Error Parameter
  | .name name =>
    let bare := ClassLike.withoutDollar name
    orNotFound .parameter bare (firstNamed? Parameter.name bare c.parameters)
  | .position i => orNotFound .parameter (toString i).toList c.parameters[i]?

end PhpOutline
