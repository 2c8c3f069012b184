import PhpOutline.Discovery.Event
import PhpOutline.Lookup
import PhpOutline.Name.Context

/-!
# Outlines

The outline of a file holds its namespaces, its imports, and the types and functions declared at its
top level, each with the namespace and the imports that are in effect where it stands. It is made
by a survey, which goes from left to right along what the discovery found. Declarations with nothing
between them that changes the namespace or the imports share one context: the survey keeps it until
such a change.

## Main definitions

* `Outline`: what is declared in a file.
* `Survey`, `Survey.apply`, `Survey.ofEvents`: what is known of a file up to a place.
* `Outline.ofTable`: the outline of a file.
* `Outline.find?`: a declaration by name.

## Main statements

* `Survey.ofEvents_concat`: a survey goes on by one event.
-/

namespace PhpOutline

/-- A type or function declared at the top level. -/
structure Declared where
  /-- The name with its namespace. -/
  name : Text
  /-- The place of the word that declares it. -/
  keyword : Nat
  span : Span
  /-- The namespace and the imports where it stands. -/
  context : NameContext
deriving DecidableEq, Repr

/-- What is declared in a file. -/
structure Outline where
  /-- The namespace and the imports at the end of the file. -/
  context : NameContext := {}
  /-- The names of all namespaces, in order. -/
  namespaces : List Text := []
  /-- All imports of the file. -/
  uses : Bindings := []
  types : List Declared := []
  functions : List Declared := []
deriving DecidableEq, Repr

/-- The declaration at a site, in a context. -/
def Site.declaredIn (site : Site) (context : NameContext) : Declared :=
  ⟨context.qualify site.shortName, site.keyword, site.span, context⟩

/-! ## Surveys -/

/-- What is known of a file up to a place. -/
structure Survey where
  /-- The namespace in effect. -/
  namespaceName : Option Text := none
  /-- The imports since it began. -/
  imports : Bindings := []
  /-- The context that was last given to a declaration, unless the namespace or the imports have
  changed since. -/
  snapshot : Option NameContext := none
  namespaces : List Text := []
  uses : Bindings := []
  types : List Declared := []
  functions : List Declared := []
deriving DecidableEq, Repr

namespace Survey

/-- The context for a declaration at the place: the snapshot, or one that is made now and kept. -/
def capture (s : Survey) : NameContext × Survey :=
  match s.snapshot with
  | some context => (context, s)
  | none =>
    let context : NameContext := ⟨s.namespaceName, s.imports⟩
    (context, { s with snapshot := some context })

/-- The survey after one more event. A namespace begins without imports. -/
def apply (s : Survey) : Event → Survey
  | .entersNamespace name =>
    { s with
      namespaceName := name
      imports := []
      snapshot := none
      namespaces := s.namespaces ++ name.toList }
  | .imports i =>
    { s with
      imports := s.imports.bind i.key i.name
      uses := s.uses.bind i.key i.name
      snapshot := none }
  | .declaresType site =>
    let (context, s) := s.capture
    { s with types := s.types ++ [site.declaredIn context] }
  | .declaresFunction site =>
    let (context, s) := s.capture
    { s with functions := s.functions ++ [site.declaredIn context] }

/-- The survey of a file up to the place behind some events. -/
def ofEvents (events : List Event) : Survey := events.foldl apply {}

@[simp] theorem ofEvents_nil : ofEvents [] = {} := rfl

theorem ofEvents_concat (events : List Event) (e : Event) :
    ofEvents (events ++ [e]) = (ofEvents events).apply e := by
  simp [ofEvents]

/-- What a survey has found, once it is at the end of the file. -/
def outline (s : Survey) : Outline where
  context := ⟨s.namespaceName, s.imports⟩
  namespaces := s.namespaces
  uses := s.uses
  types := s.types
  functions := s.functions

end Survey

namespace Outline

/-- The outline of the file with the given tokens. -/
def ofTable (t : TokenTable) : Outline := (Survey.ofEvents (Event.discover t)).outline

/-- The namespace at the end of the file. -/
def namespaceName (o : Outline) : Option Text := o.context.namespaceName

/-! ## Declarations by name -/

/-- The declaration of a name. A name of one segment is sought in the namespace at the end of the
file, then in every namespace, in order, and then as it is. -/
def find? (o : Outline) (items : List Declared) (name : Text) : Option Declared :=
  let inNamespace :=
    if name.contains '\\' then none
    else
      (o.namespaceName.toList ++ o.namespaces).findSome? fun ns =>
        firstNamedAnyCase? Declared.name (joinNames ns name) items
  inNamespace.or (firstNamedAnyCase? Declared.name name items)

/-- A name without the backslash of a full name. -/
def withoutRoot (name : Text) : Text := (name.stripOne '\\').getD name

end Outline

end PhpOutline
