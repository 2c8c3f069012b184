import PhpOutline.Declaration.ClassLike
import PhpOutline.Lexing.Basic
import PhpOutline.Outline

/-!
# Source files

A source file is cut into tokens and outlined once. The declared types and functions are read in
depth when they are asked for by name.

## Main definitions

* `SourceFile`, `SourceFile.ofSource`, and `SourceFile.strict`, which allows no lexical fault.
* `SourceFile.type`, `SourceFile.function`: declarations by name.
-/

namespace PhpOutline

/-- A file that has been read: its tokens, their faults, and the outline. -/
structure SourceFile where
  table : TokenTable
  diagnostics : List Diagnostic
  outline : Outline
deriving DecidableEq, Repr

namespace SourceFile

/-- Reads a file. -/
def ofSource (o : Options) (source : Text) : SourceFile :=
  let lexed := lex o source
  let table : TokenTable := ⟨unmarked source, lexed.tokens⟩
  ⟨table, lexed.diagnostics, .ofTable table⟩

/-- The first lexical fault as an error. -/
def fault? (f : SourceFile) : Option Error := f.diagnostics.head?.map .malformed

/-- Reads a file that must have no lexical faults. -/
def strict (o : Options) (source : Text) : Except Error SourceFile :=
  let f := ofSource o source
  match f.fault? with
  | some e => .error e
  | none => .ok f

/-- The names of the declared types, in order. -/
def typeNames (f : SourceFile) : List Text := f.outline.types.map Declared.name

/-- The names of the declared functions, in order. -/
def functionNames (f : SourceFile) : List Text := f.outline.functions.map Declared.name

/-- Reads a declared type in depth. -/
def readType (f : SourceFile) (d : Declared) : ClassLike :=
  .read f.table d.context d.span d.keyword

/-- Reads a declared function in depth. -/
def readFunction (f : SourceFile) (d : Declared) : Callable :=
  .read f.table d.context none false d.span

/-- The type of a name. -/
def type (f : SourceFile) (name : Text) : Except Error ClassLike :=
  orNotFound .type name
    ((f.outline.find? f.outline.types (Outline.withoutRoot name)).map f.readType)

/-- The function of a name. -/
def function (f : SourceFile) (name : Text) : Except Error Callable :=
  orNotFound .function name
    ((f.outline.find? f.outline.functions (Outline.withoutRoot name)).map f.readFunction)

end SourceFile

end PhpOutline
