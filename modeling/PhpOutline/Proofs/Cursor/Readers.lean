import PhpOutline.Proofs.Cursor.Discovery
import PhpOutline.Proofs.Cursor.Types
import PhpOutline.Proofs.Outline.Shifts

/-!
# Reading a table place by place

The readers that keep a cursor take it from what they find in a table: from where a bracket is
closed, or from the last place of a span where it is not. No table leads them astray. Whether its
brackets match or not, the cursor of each loop only moves forward, a reader asks for no token that
the table does not have, and lowers no place below zero. So each of them has a result, and it is
that of the reader on the entries of the table.

## Main definitions

* `Cursor.readDeclared`: the types and functions of a file.
* `Cursor.Completes`: every reader has its result on a table.

## Main statements

* `Cursor.completes`: on every table.
-/

namespace PhpOutline.Cursor

variable {t : TokenTable}

/-- The types and functions that are declared in the file of a table, each read in depth. -/
def readDeclared (t : TokenTable) : Guarded (List ClassLike × List Callable) := do
  let events ← discover t
  let outline := (Survey.ofEvents events).outline
  let types ← outline.types.mapM fun d => readClassLike t d.context d.span d.keyword
  let functions ← outline.functions.mapM fun d => readCallable t d.context none false d.span
  return (types, functions)

theorem readDeclared_eq (t : TokenTable) :
    readDeclared t =
      .ok ((Outline.ofTable t).types.map fun d => ClassLike.read t d.context d.span d.keyword,
        (Outline.ofTable t).functions.map fun d =>
          Callable.read t d.context none false d.span) := by
  rw [readDeclared, discover_eq, ok_bind]
  have htypes := mapM_eq_ok fun d (hd : d ∈ (Outline.ofTable t).types) =>
    readClassLike_eq (SourceFile.bounds_of_mem_types hd).2 d.context d.keyword
  have hfunctions := mapM_eq_ok fun d (hd : d ∈ (Outline.ofTable t).functions) =>
    readCallable_eq (SourceFile.bounds_of_mem_functions hd) d.context none false
  rw [Outline.ofTable] at htypes hfunctions
  simp only [htypes, hfunctions, ok_bind]
  rfl

/-- Every reader that keeps a cursor has a result on a table, and the one that it should have. What
it reads may be declared anywhere in the table; the word for a type may stand at any place. -/
structure Completes (t : TokenTable) : Prop where
  discovery : discover t = .ok (Event.discover t)
  declared : readDeclared t =
    .ok ((Outline.ofTable t).types.map fun d => ClassLike.read t d.context d.span d.keyword,
      (Outline.ofTable t).functions.map fun d => Callable.read t d.context none false d.span)
  classLike : ∀ (context : NameContext) (span : Span) (keyword : Nat), span.last < t.size →
    readClassLike t context span keyword = .ok (ClassLike.read t context span keyword)
  callable : ∀ (context : NameContext) (scope : Option ClassScope) (inInterface : Bool)
    (span : Span), span.last < t.size →
    readCallable t context scope inInterface span =
      .ok (Callable.read t context scope inInterface span)
  parameter : ∀ (context : NameContext) (scope : Option ClassScope) (span : Span) (position : Nat),
    readParameter t context scope span position =
      .ok (Parameter.read t context scope span position)
  property : ∀ (context : NameContext) (scope : Option ClassScope) (decl item : Span),
    decl.last < t.size →
    readProperty t context scope decl item = .ok (Property.read t context scope decl item)
  constant : ∀ decl item : Span, decl.last < t.size →
    readConstant t decl item = .ok (Constant.read t decl item)

/-- Every reader has its result on every table. -/
theorem completes (t : TokenTable) : Completes t where
  discovery := discover_eq t
  declared := readDeclared_eq t
  classLike context _ keyword h := readClassLike_eq h context keyword
  callable context scope inInterface _ h := readCallable_eq h context scope inInterface
  parameter := readParameter_eq t
  property context scope _ _ h := readProperty_eq h context scope
  constant _ _ h := readConstant_eq h

/-- The tokens of `class A{function f($x=[`, in which no bracket is closed. -/
def truncatedSample : TokenTable where
  source := "class A".toList ++ '{' :: "function f($x=[".toList
  tokens := [⟨.keyword (.declares .plainClass), "class".toList, 1, 0⟩,
    ⟨.whitespace, " ".toList, 1, 5⟩, ⟨.name, "A".toList, 1, 6⟩,
    ⟨.opener .brace, ['{'], 1, 7⟩, ⟨.keyword .function, "function".toList, 1, 8⟩,
    ⟨.whitespace, " ".toList, 1, 16⟩, ⟨.name, "f".toList, 1, 17⟩,
    ⟨.opener .paren, "(".toList, 1, 18⟩, ⟨.variableName, "$x".toList, 1, 19⟩,
    ⟨.equals, "=".toList, 1, 21⟩, ⟨.opener .square, "[".toList, 1, 22⟩]

/-- A class that is cut off is read through its last token, and so is its method. -/
theorem completes_truncatedSample :
    discover truncatedSample = .ok [.declaresType ⟨"A".toList, 0, .ofBounds 0 10⟩] ∧
    ∃ c, readClassLike truncatedSample {} (.ofBounds 0 10) 0 = .ok c ∧
      c.methods.map (fun l => (l.record.name, l.decl)) = [("f".toList, .ofBounds 4 9)] :=
  ⟨(completes truncatedSample).discovery.trans (congrArg _ (by decide)), _,
    (completes truncatedSample).classLike {} (.ofBounds 0 10) 0 (by decide), by decide⟩

end PhpOutline.Cursor
