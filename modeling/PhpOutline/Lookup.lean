import PhpOutline.Diagnostic

/-!
# Lookups

Declarations are looked up by name. Names of types, functions and methods ignore ASCII case, but an
exact spelling is preferred.

## Main definitions

* `Error`: why a question has no answer, and its wording.
* `firstNamed?`, `firstNamedAnyCase?`: the two ways to find a name in a list.
-/

namespace PhpOutline

/-- What can be looked up. -/
inductive Subject where
  | type
  | function
  | method
  | property
  | constant
  | parameter
deriving DecidableEq, Repr

/-- The word for what is looked up. -/
def Subject.word : Subject → String
  | type => "class"
  | function => "function"
  | method => "method"
  | property => "property"
  | constant => "constant"
  | parameter => "parameter"

/-- Why a question has no answer. -/
inductive Error where
  /-- The source declares nothing of that name. -/
  | notFound (subject : Subject) (name : Text)
  /-- The source has a lexical fault, and none was allowed. -/
  | malformed (diagnostic : Diagnostic)
deriving DecidableEq, Repr

/-- The wording of an error. -/
def Error.message : Error → String
  | notFound subject name => subject.word ++ " not found: " ++ name.shown
  | malformed diagnostic => "malformed source: " ++ diagnostic.message

variable {α : Type}

/-- The first item with a name. -/
def firstNamed? (nameOf : α → Text) (name : Text) (items : List α) : Option α :=
  items.find? fun a => nameOf a == name

/-- The first item with a name, or else the first whose name differs in ASCII case only. -/
def firstNamedAnyCase? (nameOf : α → Text) (name : Text) (items : List α) : Option α :=
  (firstNamed? nameOf name items).or (items.find? fun a => (nameOf a).sameWord name)

/-- The answer, or the error that there is nothing of that name. -/
def orNotFound (subject : Subject) (name : Text) : Option α → Except Error α
  | some a => .ok a
  | none => .error (.notFound subject name)

theorem firstNamed?_mem {nameOf : α → Text} {name : Text} {items : List α} {a : α}
    (h : firstNamed? nameOf name items = some a) : a ∈ items ∧ nameOf a = name := by
  refine ⟨List.mem_of_find?_eq_some h, ?_⟩
  simpa using List.find?_some h

/-- A name that occurs is found, by its exact spelling. -/
theorem exists_firstNamed? {nameOf : α → Text} {items : List α} {a : α} (h : a ∈ items) :
    ∃ b, firstNamed? nameOf (nameOf a) items = some b := by
  rw [← Option.isSome_iff_exists, firstNamed?, List.find?_isSome]
  exact ⟨a, h, by simp⟩

end PhpOutline
