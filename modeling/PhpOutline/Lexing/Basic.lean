import PhpOutline.Lexing.Reading
import PhpOutline.Sweep
import PhpOutline.Token.Basic

/-!
# From source to tokens

A source is cut into pieces from left to right; every character goes into exactly one. A piece is a
token, or a control character that begins none. Lines and offsets are counted along the pieces.

## Main definitions

* `pieces`: the pieces of a source.
* `placed`, `faults`: their tokens and diagnostics, with places.
* `lex`: tokens and diagnostics of a source, which may begin with a byte order mark.

## Main statements

* `flatMap_text_pieces`: the pieces make up the source.
-/

namespace PhpOutline

/-- A piece of a source. -/
inductive Piece where
  /-- A token, with the fault of one that has no end. -/
  | token (kind : Kind) (text : Text) (fault : Option Fault)
  /-- A character that begins no token. -/
  | stray (c : Char)
deriving DecidableEq, Repr

namespace Piece

/-- The characters of a piece. -/
def text : Piece → Text
  | token _ text _ => text
  | stray c => [c]

/-- What is wrong with a piece. -/
def fault? : Piece → Option Fault
  | token _ _ fault => fault
  | stray c => some (.unexpectedCharacter c)

end Piece

namespace Reading

/-- The piece that a reading makes of the text `c :: s`. -/
def piece (c : Char) (s : Text) : Reading → Piece
  | lexeme kind n => .token kind (c :: s.take n) none
  | unterminated kind fault => .token kind (c :: s) (some fault)
  | stray => .stray c

/-- How many characters of `s` belong to the piece. -/
def claims (s : Text) : Reading → Nat
  | lexeme _ n => n
  | unterminated _ _ => s.length
  | stray => 0

/-- The mode behind the piece. -/
def mode (m : Mode) : Reading → Mode
  | lexeme kind _ => m.after kind
  | unterminated kind _ => m.after kind
  | stray => m

end Reading

/-- One step of the pass over a source. -/
def lexStep (short : Bool) (m : Mode) (c : Char) (s : Text) : Stride Mode Piece :=
  let r := Lexeme.read short m c s
  ⟨[r.piece c s], r.mode m, r.claims s⟩

/-- The pieces of a text that begins in mode `m`. -/
def pieces (short : Bool) (m : Mode) (s : Text) : List Piece := sweep (lexStep short) m 0 s

/-- The tokens among pieces of which the first begins at `line` and `offset`. -/
def placed : (line offset : Nat) → List Piece → List Token
  | _, _, [] => []
  | line, offset, .token kind text _ :: ps =>
    ⟨kind, text, line, offset⟩ :: placed (line + text.newlines) (offset + text.byteSize) ps
  | line, offset, .stray c :: ps => placed (line + Text.newlines [c]) (offset + c.utf8Size) ps

/-- The diagnostics of pieces of which the first begins at `line`. -/
def faults : (line : Nat) → List Piece → List Diagnostic
  | _, [] => []
  | line, p :: ps => p.fault?.toList.map (⟨·, line⟩) ++ faults (line + p.text.newlines) ps

/-- A source without the byte order mark at its start. -/
def unmarked (source : Text) : Text := (source.stripOne '\uFEFF').getD source

/-- The tokens of a source, and what is wrong with it. -/
structure Lexed where
  tokens : List Token
  diagnostics : List Diagnostic
deriving DecidableEq, Repr

/-- Cuts a source into tokens. Offsets count from behind a byte order mark. -/
def lex (o : Options) (source : Text) : Lexed :=
  let ps := pieces o.shortOpenTags (.initial o) (unmarked source)
  ⟨placed 1 0 ps, faults 1 ps⟩

/-! ## Nothing is lost -/

@[simp] theorem pieces_nil (short : Bool) (m : Mode) : pieces short m [] = [] := by
  simp [pieces]

theorem pieces_cons (short : Bool) (m : Mode) (c : Char) (s : Text) :
    pieces short m (c :: s) =
      (Lexeme.read short m c s).piece c s ::
        pieces short ((Lexeme.read short m c s).mode m)
          (s.drop ((Lexeme.read short m c s).claims s)) := by
  rw [pieces, sweep_cons, sweep_eq_drop]
  rfl

/-- A piece and what it leaves are the text that it was read from. -/
theorem Reading.text_piece_append (r : Reading) (c : Char) (s : Text) :
    (r.piece c s).text ++ s.drop (r.claims s) = c :: s := by
  cases r <;> simp [Reading.piece, Reading.claims, Piece.text]

/-- The pieces of a text, put together, are the text. -/
theorem flatMap_text_pieces (short : Bool) (m : Mode) (s : Text) :
    (pieces short m s).flatMap Piece.text = s := by
  induction hn : s.length using Nat.strongRecOn generalizing m s with
  | ind n ih =>
    cases s with
    | nil => simp
    | cons c s =>
      rw [pieces_cons, List.flatMap_cons, ih _ _ _ _ rfl]
      · exact Reading.text_piece_append _ c s
      · simp at hn ⊢
        omega

end PhpOutline
