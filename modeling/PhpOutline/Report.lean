import PhpOutline.SourceFile

/-!
# Reports

The lines that are printed for a file: a list of what it declares, or a description of every
declaration with its members and parameters. A description looks every declaration up by its listed
name, and stops at the first name that is not found.

## Main definitions

* `Report`: lines, and the error that cut them short.
* `Report.list`, `Report.describe`.
-/

namespace PhpOutline

/-- Printed lines, and the error after which there are no more. -/
structure Report where
  lines : List String := []
  error : Option Error := none
deriving DecidableEq, Repr

namespace Report

/-- A report of some lines. -/
def ofLines (lines : List String) : Report := { lines }

/-- One report behind another, unless the first was cut short. -/
def append (a b : Report) : Report :=
  match a.error with
  | some _ => a
  | none => { lines := a.lines ++ b.lines, error := b.error }

instance : Append Report := ⟨append⟩

/-- Reports one behind the other, up to the first that was cut short. -/
def concat (rs : List Report) : Report := rs.foldr append {}

/-- The report on what a lookup found, or on its error. -/
def ofLookup {α : Type} (report : α → Report) : Except Error α → Report
  | .ok a => report a
  | .error e => { error := some e }

/-! ## Listing -/

/-- The names of the types, then those of the functions. -/
def list (f : SourceFile) : Report :=
  ofLines (f.typeNames.map (fun n => "class " ++ n.shown)
    ++ f.functionNames.map fun n => "function " ++ n.shown)

/-! ## Describing -/

/-- The word for a visibility. -/
def visibility : Visibility → String
  | .publicAccess => "public"
  | .protectedAccess => "protected"
  | .privateAccess => "private"

/-- The word for a kind of type. -/
def typeKind : TypeKind → String
  | .plainClass => "class"
  | .interface => "interface"
  | .trait => "trait"
  | .enumeration => "enum"

/-- The text `lead` and a value, when there is one. -/
def following (lead : String) (value : Option Text) (trail : String) : String :=
  match value with
  | some v => lead ++ v.shown ++ trail
  | none => ""

/-- A range of lines. -/
def lineRange (first last : Nat) : String :=
  "(lines " ++ toString first ++ "-" ++ toString last ++ ")"

/-- A parameter: its position, variable, class or else type, and default value. -/
def parameterLine (indent : String) (p : Parameter) : String :=
  indent ++ "  #" ++ toString p.position ++ " $" ++ p.name.shown
    ++ following " [" (p.className.or p.typeHint) "]" ++ following " = " p.defaultValue ""

/-- The words in front of a function, visibility first. -/
def flags (c : Callable) : String :=
  " ".intercalate ([visibility c.visibility] ++ (if c.isAbstract then ["abstract"] else [])
    ++ (if c.modifiers.isFinal then ["final"] else [])
    ++ (if c.modifiers.isStatic then ["static"] else []))

/-- A function or method with its parameters. -/
def callable (indent : String) (c : Callable) : Report :=
  ofLines ((indent ++ flags c ++ " function " ++ c.name.shown ++ "() "
    ++ lineRange c.lineFirst c.lineLast ++ following ": " c.returnType "")
      :: c.parameters.map (parameterLine indent))

/-- The first line of a type: kind, name, lines, parent and interfaces. -/
def headerLine (c : ClassLike) : String :=
  typeKind c.kind ++ " " ++ c.name.shown ++ " " ++ lineRange c.lineFirst c.lineLast
    ++ following " extends " c.parent ""
    ++ (if c.interfaces.isEmpty then ""
        else " implements " ++ ", ".intercalate (c.interfaces.map Text.shown))

/-- A constant under its listed name. -/
def constantLine (name : Text) (c : Constant) : String :=
  "  const " ++ name.shown ++ " = " ++ (c.value.getD []).shown

/-- A property under its listed name. -/
def propertyLine (name : Text) (p : Property) : String :=
  "  " ++ visibility p.visibility ++ " " ++ following "" p.typeHint " " ++ "$" ++ name.shown
    ++ following " = " p.defaultValue ""

/-- A type with its traits and members. -/
def classLike (c : ClassLike) : Report :=
  ofLines (headerLine c :: c.traits.map fun n => "  use " ++ n.shown)
    ++ concat (c.constants.map fun l =>
        ofLookup (fun r => ofLines [constantLine l.name r]) (c.constant l.name))
    ++ concat (c.properties.map fun l =>
        ofLookup (fun r => ofLines [propertyLine l.name r]) (c.property l.name))
    ++ concat (c.methods.map fun l => ofLookup (callable "  ") (c.method l.name))

/-- Every declaration of a file. -/
def describe (f : SourceFile) : Report :=
  ofLines ((f.outline.namespaceName.toList.map fun n => "namespace " ++ n.shown)
    ++ f.outline.uses.map fun b => "use " ++ b.2.shown ++ " as " ++ b.1.shown)
    ++ concat (f.typeNames.map fun n => ofLookup classLike (f.type n))
    ++ concat (f.functionNames.map fun n => ofLookup (callable "") (f.function n))

end Report

end PhpOutline
