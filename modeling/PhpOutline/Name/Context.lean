import PhpOutline.Name.Bindings
import PhpOutline.Text.Blank
import PhpOutline.Text.Segments

/-!
# Names in context

A class reference is read in the context of a namespace and its imports. A name with a leading
backslash is complete; otherwise an import of its first segment counts, and then the namespace.

## Main definitions

* `NameContext`, with `qualify` and `resolve`.
* `ClassScope`: what `self`, `static` and `parent` stand for.
* `NameContext.resolveType?`: the one class that a type hint names.
-/

namespace PhpOutline

/-- The namespace and the imports in effect at a declaration. -/
structure NameContext where
  namespaceName : Option Text := none
  imports : Bindings := []
deriving DecidableEq, Repr

/-- The class around a member and its parent. -/
structure ClassScope where
  name : Text
  parent : Option Text
deriving DecidableEq, Repr

/-- The type words that never name a class. -/
def builtinTypes : List Text :=
  ["array".toList, "bool".toList, "callable".toList, "false".toList, "float".toList,
    "int".toList, "iterable".toList, "mixed".toList, "never".toList, "null".toList,
    "object".toList, "string".toList, "true".toList, "void".toList]

/-- Two names joined by a backslash. -/
def joinNames (a b : Text) : Text := a ++ '\\' :: b

namespace NameContext

/-- The name that an import gives to an alias. -/
def imported? (c : NameContext) (key : Text) : Option Text := c.imports.lookup? key

/-- A name declared in the namespace. -/
def qualify (c : NameContext) (name : Text) : Text :=
  match c.namespaceName with
  | some ns => joinNames ns name
  | none => name

/-- The name with its first segment replaced, when that is an imported alias. -/
def resolveImport? (c : NameContext) (name : Text) : Option Text :=
  match name.splitFirst '\\' with
  | some (head, rest) => (c.imported? head).map fun bound => joinNames bound rest
  | none => c.imported? name

/-- The full name of a class reference, without a leading backslash of its own. -/
def resolve (c : NameContext) (name : Text) : Text :=
  match name.stripOne '\\' with
  | some full => full
  | none =>
    match c.resolveImport? name with
    | some imported => imported
    | none =>
      match name.splitFirst '\\' with
      | some (head, rest) =>
        if head.sameWord "namespace".toList then c.qualify rest else c.qualify name
      | none => c.qualify name

/-- A type hint without blanks at its ends and without the question mark of a nullable type. -/
def bareHint (hint : Text) : Text :=
  let trimmed := hint.trim
  ((trimmed.stripOne '?').getD trimmed).trim

/-- The alternatives of a type hint, apart from `null`. -/
def hintMembers (hint : Text) : List Text :=
  ((hint.splitOn '|').map Text.trim).filter fun m => !m.sameWord "null".toList

/-- The class that one alternative of a type hint names. -/
def resolveMember? (c : NameContext) (scope : Option ClassScope) (member : Text) : Option Text :=
  match member.stripOne '\\' with
  | some full => some full
  | none =>
    match c.resolveImport? member with
    | some imported => some imported
    | none =>
      let word := member.lower
      if word = "self".toList ∨ word = "static".toList then scope.map ClassScope.name
      else if word = "parent".toList then scope.bind ClassScope.parent
      else if word ∈ builtinTypes then none
      else some (c.resolve member)

/-- The class that a type hint names, when it names exactly one: the type may be nullable, but no
other union and no intersection names a class, and neither does a builtin type. An imported alias
counts before a builtin type of the same spelling. -/
def resolveType? (c : NameContext) (hint : Text) (scope : Option ClassScope) : Option Text :=
  let bare := bareHint hint
  if bare.isEmpty || bare.any fun ch => ch == '&' || ch == '(' || ch == ')' then none
  else
    match hintMembers bare with
    | [member] => c.resolveMember? scope member
    | _ => none

end NameContext

end PhpOutline
