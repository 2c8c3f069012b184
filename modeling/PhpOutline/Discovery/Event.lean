import PhpOutline.Discovery.Import
import PhpOutline.Sweep

/-!
# Discovery of declarations

One pass over the significant tokens of a file finds what is declared at its top level, in order:
namespaces, imports, types and functions. Bodies are passed over as a whole; the braces of a
namespace are not, since what is declared in them is at the top level. Which tokens the pass looks
at depends on their kinds alone.

## Main definitions

* `Event`: something found at the top level.
* `Event.discover`: everything found in a table.
-/

namespace PhpOutline

/-- Where a type or function is declared. -/
structure Site where
  /-- The name as written. -/
  shortName : Text
  /-- The place of the word that declares it. -/
  keyword : Nat
  span : Span
deriving DecidableEq, Repr

/-- Something found at the top level of a file. -/
inductive Event where
  /-- A namespace begins; the global one has no name. -/
  | entersNamespace (name : Option Text)
  | imports (i : Import)
  | declaresType (site : Site)
  | declaresFunction (site : Site)
deriving DecidableEq, Repr

namespace Event

/-- What the pass remembers. -/
structure State where
  /-- The word `new` stands just before. -/
  afterNew : Bool := false
  /-- The place of the first modifier of the declaration that follows. -/
  start : Option Nat := none
deriving DecidableEq, Repr

/-- How the pass goes on behind `n` further tokens. -/
def resume (events : List Event) (n : Nat) : Stride State Event := ⟨events, {}, n⟩

/-- The last place of a declaration that ends at position `n` of `es`, or `last`. -/
def lastPlace (last : Nat) (es : List Entry) (n : Option Nat) : Nat :=
  ((n.bind fun i => es[i]?).map Entry.index).getD last

/-- Behind the word `namespace`: its name, or a brace or semicolon for the global namespace.
Otherwise the word begins a relative name and declares nothing. -/
def readNamespace : List Entry → Stride State Event
  | [] => resume [] 0
  | e :: _ =>
    match e.kind with
    | .name => resume [entersNamespace (some (e.text.stripAll '\\'))] 1
    | .opener .brace | .semicolon => resume [entersNamespace none] 0
    | _ => resume [] 0

/-- The number of tokens through the first semicolon, or of all of them. -/
def statementSize (es : List Entry) : Nat :=
  (((Entry.kinds es).findIdx? (· == .semicolon)).map (· + 1)).getD es.length

/-- Behind the word `use`: imports of classes. A parenthesis begins the list of variables of a
closure instead. -/
def readUse (es : List Entry) : Stride State Event :=
  match (Entry.kinds es).head? with
  | some (.keyword .function) | some (.keyword .const) => resume [] (statementSize es)
  | some (.opener .paren) => resume [] 0
  | _ =>
    let n := statementSize es
    resume ((Import.ofStatement {} ((es.take n).map Entry.toToken)).map imports) n

/-- Behind the word that declares a type: its name, its header and its body. Without a body nothing
is declared. A class without a name, or behind `new`, is passed over together with its body; the
word for an enumeration is then an ordinary one. -/
def readType (last : Nat) (st : State) (kind : TypeKind) (word : Entry) (es : List Entry) :
    Stride State Event :=
  match es with
  | name :: rest =>
    if name.kind = .name ∧ st.afterNew = false then
      match headerEnd? (Entry.kinds rest) with
      | none => resume [] 1
      | some header =>
        let body := rest.drop header
        let close := groupEnd? (Entry.kinds body)
        let span := Span.ofBounds (st.start.getD word.index) (lastPlace last body close)
        resume [declaresType ⟨name.text, word.index, span⟩]
          ((close.map (header + 2 + ·)).getD es.length)
    else unnamed
  | [] => unnamed
where
  unnamed : Stride State Event :=
    if kind = .enumeration then resume [] 0
    else resume [] (((declarationEnd? (Entry.kinds es)).map (· + 1)).getD es.length)

/-- The number of tokens before the name of a function: one when an ampersand stands there. -/
def ampersands : List Entry → Nat
  | e :: _ => if e.kind = .ampersand then 1 else 0
  | [] => 0

/-- Behind the word `function`: a name, a parameter list and a body. A closure has no name and is
read as ordinary code. -/
def readFunction (last : Nat) (word : Entry) (es : List Entry) : Stride State Event :=
  let skip := ampersands es
  match es.drop skip with
  | name :: list :: rest =>
    if name.kind = .name ∧ list.kind = .opener .paren then
      let stop := declarationEnd? (Entry.kinds (list :: rest))
      let span := Span.ofBounds word.index (lastPlace last (list :: rest) stop)
      resume [declaresFunction ⟨name.text, word.index, span⟩]
        ((stop.map (skip + 2 + ·)).getD es.length)
    else resume [] 0
  | _ => resume [] 0

/-- One step of the pass over a file whose last place is `last`. -/
def step (last : Nat) (st : State) (e : Entry) (es : List Entry) : Stride State Event :=
  match e.kind with
  | .keyword (.modifier .abstract) | .keyword (.modifier .final) | .keyword (.modifier .readonly) =>
    ⟨[], { start := some (st.start.getD e.index) }, 0⟩
  | .keyword .namespaceWord => readNamespace es
  | .keyword .use => readUse es
  | .keyword (.declares kind) => readType last st kind e es
  | .keyword .function => readFunction last e es
  | .keyword .new => ⟨[], { afterNew := true }, 0⟩
  | _ => resume [] 0

/-- Everything found at the top level of a file, in order. -/
def discover (t : TokenTable) : List Event :=
  sweep (step t.lastIndex) {} 0 (Entry.significant (t.startingAt 0))

end Event

end PhpOutline
