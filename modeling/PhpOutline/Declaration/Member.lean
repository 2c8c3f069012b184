import PhpOutline.Declaration.Callable
import PhpOutline.Declaration.Property

/-!
# Members of a type

The body of a type is cut into its members in one pass over the tokens between its braces. A
declaration that introduces several properties or constants gives one member for each of them.

## Main definitions

* `Slot`: a member's name and the spans to read it from.
* `Member` and `Member.scan`.
-/

namespace PhpOutline

/-- Where a member is declared. -/
structure Slot where
  name : Text
  /-- The whole declaration, modifiers included. -/
  decl : Span
  /-- The part of it that introduces this member. -/
  item : Span
deriving DecidableEq, Repr

/-- What the body of a type can hold. -/
inductive Member where
  /-- A trait that the type uses, by its full name. -/
  | traitUse (name : Text)
  | constant (slot : Slot)
  | property (slot : Slot)
  | method (slot : Slot)
deriving DecidableEq, Repr

namespace Member

/-- How many entries behind `e` belong to the statement that begins with it. One without an end
takes all of them. -/
def statementLength (e : Entry) (es : List Entry) : Nat :=
  (statementEnd? (Entry.kinds (e :: es))).getD es.length

/-- The traits that a use statement names: the names behind the word, before a brace or the end. -/
def traitUses (context : NameContext) (es : List Entry) : List Member :=
  let listed := es.takeWhile fun e => e.kind != .opener .brace && e.kind != .semicolon
  (listed.filter fun e => e.kind == .name).map fun e => traitUse (context.resolve e.text)

/-- The constants among the pieces of a declaration. -/
def constants (t : TokenTable) (decl : Span) (es : List Entry) : List Member :=
  (Entry.pieces es).filterMap fun item =>
    (Constant.nameIndex? t item).map fun i => constant ⟨t.text i, decl, item⟩

/-- The properties among the pieces of a declaration. -/
def properties (t : TokenTable) (decl : Span) (es : List Entry) : List Member :=
  (Entry.pieces es).filterMap fun item =>
    (Property.named t item).head?.map fun e => property ⟨e.text.drop 1, decl, item⟩

/-- The place, counted behind the name, at which a method ends in a body that ends at place `stop`:
at a semicolon, or with the braces of its body, but never behind `stop`. -/
def methodEnd? (t : TokenTable) (stop : Nat) : List Entry → Option Nat :=
  seek (fun e es =>
    match e.kind with
    | .semicolon => .ends 0
    | .opener .brace =>
      match t.matchingClose? e.index with
      | some close => .ends (min close stop - e.index)
      | none => .fails
    | .opener .paren | .opener .square | .attributeOpener => passGroup e.kind (Entry.kinds es)
    | _ => .passes 0) 0

/-- The method whose word `function` stands before `es`, in a body that ends at place `stop`. Its
declaration begins at place `first`. There is none when the body ends before its name. -/
def method? (t : TokenTable) (stop first : Nat) (es : List Entry) : Option Slot :=
  match (Callable.naming es).2 with
  | name :: rest =>
    let last := ((methodEnd? t stop rest).map (name.index + 1 + ·)).getD (stop - 1)
    let span := Span.ofBounds first last
    some ⟨name.text, span, span⟩
  | [] => none

/-- One step over the body of a type that ends at place `stop`. The state is the place of the first
modifier of the declaration that is being read. -/
def step (t : TokenTable) (context : NameContext) (stop : Nat) (start : Option Nat) (e : Entry)
    (es : List Entry) : Stride (Option Nat) Member :=
  let first := start.getD e.index
  let n := statementLength e es
  let decl := Span.ofBounds first (e.index + n)
  match e.kind with
  | .attributeOpener | .opener _ =>
    ⟨[], start, (groupEnd? (Entry.kinds (e :: es))).getD es.length⟩
  | .keyword (.modifier _) => ⟨[], some first, 0⟩
  | .keyword .use =>
    if start.isNone then ⟨traitUses context (es.take (n - 1)), none, n⟩ else ⟨[], start, 0⟩
  | .keyword .const => ⟨constants t decl (es.take (n - 1)), none, n⟩
  | .keyword .function =>
    match method? t stop first es with
    | some slot => ⟨[method slot], none, slot.decl.last - e.index⟩
    | none => ⟨[], none, es.length⟩
  | .variableName => ⟨properties t decl ((e :: es).take n), none, n⟩
  | .semicolon | .closer .brace => ⟨[], none, 0⟩
  | .name => if start.isNone then ⟨[], none, n⟩ else ⟨[], start, 0⟩
  | _ => ⟨[], start, 0⟩

/-- The members of a type with the given body, from brace to brace. -/
def scan (t : TokenTable) (context : NameContext) (body : Span) : List Member :=
  sweep (step t context body.last) none 0 (t.window (body.first + 1) body.last)

/-- The trait that a member names. -/
def traitUse? : Member → Option Text
  | traitUse name => some name
  | _ => none

/-- The slot of a constant. -/
def constant? : Member → Option Slot
  | constant slot => some slot
  | _ => none

/-- The slot of a property. -/
def property? : Member → Option Slot
  | property slot => some slot
  | _ => none

/-- The slot of a method. -/
def methodSlot? : Member → Option Slot
  | method slot => some slot
  | _ => none

end Member

end PhpOutline
