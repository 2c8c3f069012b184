import PhpOutline.Nesting
import PhpOutline.Token.Basic

/-!
# Token tables

A token table is a source with its tokens, addressed by place. Questions about the tokens from a
place on are answered on the list of entries from there.

## Main definitions

* `TokenTable` and `Entry`: a token with its place.
* `TokenTable.startingAt`, `TokenTable.window`: the entries from a place on, or between two places.
* `TokenTable.nextSignificant?`, `prevSignificant?`, `findKind?`, `matchingClose?`: searches.
* `TokenTable.splitTopLevel`: the pieces of a comma-separated list.

## Main statements

* `Entry.number_append`: the entries of two sequences, one behind the other.
* `TokenTable.window_self`: a window of no places is empty.
-/

namespace PhpOutline

/-- A token and its place in a sequence. -/
structure Entry extends Token where
  index : Nat
deriving DecidableEq, Repr

namespace Entry

/-- The entries of a sequence of tokens of which the first has place `i`. -/
def number : (i : Nat) → List Token → List Entry
  | _, [] => []
  | i, t :: ts => ⟨t, i⟩ :: number (i + 1) ts

/-- The entries from the first significant one on. -/
def skipTrivia (es : List Entry) : List Entry := es.dropWhile fun e => e.kind.isInsignificant

/-- The significant entries. -/
def significant (es : List Entry) : List Entry := es.filter fun e => e.isSignificant

/-- The kinds of a sequence of entries. -/
def kinds (es : List Entry) : List Kind := es.map fun e => e.kind

/-- The span from the first to the last of some entries. -/
def extent? (es : List Entry) : Option Span :=
  match es.head?, es.getLast? with
  | some a, some b => some (.ofBounds a.index b.index)
  | _, _ => none

/-- The parts of a sequence between the commas at which no bracket is open, when `depth` brackets
are open before it. -/
def splitCommas : (depth : Nat) → List Entry → List (List Entry)
  | _, [] => [[]]
  | depth, e :: es =>
    if e.kind = .comma ∧ depth = 0 then [] :: splitCommas 0 es
    else
      match splitCommas (depthAfter depth e.kind) es with
      | g :: gs => (e :: g) :: gs
      | [] => [[e]]

/-- The spans of the significant entries of each part between top-level commas. Parts without any
are left out. -/
def pieces (es : List Entry) : List Span :=
  (splitCommas 0 es).filterMap fun g => extent? (significant g)

@[simp] theorem number_nil (i : Nat) : number i [] = [] := rfl

@[simp] theorem number_cons (i : Nat) (t : Token) (ts : List Token) :
    number i (t :: ts) = ⟨t, i⟩ :: number (i + 1) ts := rfl

@[simp] theorem length_number (i : Nat) (ts : List Token) : (number i ts).length = ts.length := by
  induction ts generalizing i with
  | nil => rfl
  | cons t ts ih => simp [ih]

@[simp] theorem kinds_number (i : Nat) (ts : List Token) :
    kinds (number i ts) = ts.map Token.kind := by
  induction ts generalizing i with
  | nil => rfl
  | cons t ts ih => simpa [kinds] using ih (i + 1)

theorem number_append (i : Nat) (ts us : List Token) :
    number i (ts ++ us) = number i ts ++ number (i + ts.length) us := by
  induction ts generalizing i with
  | nil => simp
  | cons t ts ih => simp [ih, Nat.add_right_comm i 1, Nat.add_assoc]

theorem splitCommas_ne_nil (depth : Nat) (es : List Entry) : splitCommas depth es ≠ [] := by
  cases es with
  | nil => simp [splitCommas]
  | cons e es =>
    rw [splitCommas]
    split
    · simp
    · split <;> simp

end Entry

/-- A source and its tokens. -/
structure TokenTable where
  source : Text
  tokens : List Token
deriving DecidableEq, Repr

namespace TokenTable

/-- The number of tokens. -/
def size (t : TokenTable) : Nat := t.tokens.length

/-- The last place, or zero in an empty table. -/
def lastIndex (t : TokenTable) : Nat := t.size - 1

/-- The token at a place. -/
def get? (t : TokenTable) (i : Nat) : Option Token := t.tokens[i]?

/-- The kind of the token at a place. -/
def kind? (t : TokenTable) (i : Nat) : Option Kind := (t.get? i).map Token.kind

/-- The text of the token at a place; there is none past the end. -/
def text (t : TokenTable) (i : Nat) : Text := ((t.get? i).map Token.text).getD []

/-- The line of the token at a place; past the end, that of the last token. -/
def line (t : TokenTable) (i : Nat) : Nat :=
  (((t.get? i).or t.tokens.getLast?).map Token.line).getD 1

/-- The entries from a place on. -/
def startingAt (t : TokenTable) (i : Nat) : List Entry := Entry.number i (t.tokens.drop i)

/-- The entries from place `first` up to, and without, place `stop`. -/
def window (t : TokenTable) (first stop : Nat) : List Entry :=
  Entry.number first ((t.tokens.drop first).take (stop - first))

/-- The entries of a span. -/
def within (t : TokenTable) (s : Span) : List Entry := t.window s.first (s.last + 1)

/-- The first significant place at or behind `i`. -/
def nextSignificant? (t : TokenTable) (i : Nat) : Option Nat :=
  (Entry.skipTrivia (t.startingAt i)).head?.map Entry.index

/-- The last significant place before `i`. -/
def prevSignificant? (t : TokenTable) (i : Nat) : Option Nat :=
  (Entry.significant (t.window 0 i)).getLast?.map Entry.index

/-- The first place of a kind from `first` through `last`. -/
def findKind? (t : TokenTable) (first last : Nat) (k : Kind) : Option Nat :=
  ((t.window first (last + 1)).find? fun e => e.kind == k).map Entry.index

/-- The place that closes the bracket at `i`. -/
def matchingClose? (t : TokenTable) (i : Nat) : Option Nat :=
  (groupEnd? (Entry.kinds (t.startingAt i))).map (i + ·)

/-- The place that closes the bracket at `i`, or the last place. -/
def matchingCloseOrLast (t : TokenTable) (i : Nat) : Nat := (t.matchingClose? i).getD t.lastIndex

/-- The pieces between top-level commas strictly inside a span. -/
def splitTopLevel (t : TokenTable) (s : Span) : List Span :=
  Entry.pieces (t.window (s.first + 1) s.last)

@[simp] theorem window_self (t : TokenTable) (i : Nat) : t.window i i = [] := by
  simp [window]

end TokenTable

end PhpOutline
