import PhpOutline.Lexing.Basic
import PhpOutline.Proofs.Sweep

/-!
# Where tokens stand

The pieces of a source and the tokens made of them, seen as a whole: what a piece can be, how lines
and offsets go on from one run of pieces to the next, and where in the text a token was cut out.

## Main definitions

* `Token.moved`, `Diagnostic.moved`: the same further on in a source.

## Main statements

* `pieces_induction`: induction along the pieces of a text.
* `exists_read_of_mem_pieces`: every piece was read at some place of the text.
* `isControl_of_stray_mem`: only control characters are left out.
* `fault_ne_unexpected`: the fault of a token is that it has no end.
* `placed_append`, `faults_append`: the places behind some pieces count on from them.
* `dropBytes_textOf`: the text from inside a piece on.
* `mem_placed`, `dropBytes_stop`: a token stands behind the text of the pieces before it, and in
  front of that of the pieces behind it.
* `placed_add`, `faults_add`: the same pieces further on in a source.
-/

namespace PhpOutline

/-! ## What a piece can be -/

/-- Induction along the pieces of a text: behind the first piece stand a further mode and text. -/
@[elab_as_elim]
theorem pieces_induction (short : Bool) {motive : Mode → Text → Prop} (nil : ∀ m, motive m [])
    (cons : ∀ m c s, motive ((Lexeme.read short m c s).mode m)
      (s.drop ((Lexeme.read short m c s).claims s)) → motive m (c :: s)) (m : Mode) (s : Text) :
    motive m s :=
  sweep_induction (lexStep short) nil cons m s

/-- Every piece of a text was read at some place of it, in some mode. -/
theorem exists_read_of_mem_pieces {short : Bool} {m : Mode} {s : Text} {p : Piece}
    (h : p ∈ pieces short m s) :
    ∃ m' c r, p = (Lexeme.read short m' c r).piece c r := by
  induction m, s using pieces_induction short with
  | nil m => simp at h
  | cons m c s ih =>
    rw [pieces_cons, List.mem_cons] at h
    rcases h with h | h
    · exact ⟨m, c, s, h⟩
    · exact ih h

theorem Reading.text_piece_ne_nil (r : Reading) (c : Char) (s : Text) :
    (r.piece c s).text ≠ [] := by
  cases r <;> simp [Reading.piece, Piece.text]

/-- No piece is empty. -/
theorem text_ne_nil_of_mem_pieces {short : Bool} {m : Mode} {s : Text} {p : Piece}
    (h : p ∈ pieces short m s) : p.text ≠ [] := by
  obtain ⟨m', c, r, rfl⟩ := exists_read_of_mem_pieces h
  exact Reading.text_piece_ne_nil _ c r

/-- What a reading at the character `c` may be: only a control character begins no token, and the
fault of a token without its end is never that of a character. -/
def Reading.Fits (c : Char) : Reading → Prop
  | lexeme _ _ => True
  | unterminated _ fault => ∀ d, fault ≠ .unexpectedCharacter d
  | stray => Lexeme.isControl c = true

namespace Lexeme

theorem fits_readSign (c : Char) (s : Text) : (readSign c s).Fits c := by
  rw [readSign]
  split
  · assumption
  · trivial

theorem fits_readBlockComment (c : Char) (s : Text) : (readBlockComment s).Fits c := by
  rw [readBlockComment]
  cases blockEnd? s <;> simp [Reading.Fits]

theorem fits_readQuoted (frame : Frame) (c : Char) (s : Text) :
    (readQuoted frame s).Fits c := by
  rw [readQuoted]
  cases quotedEnd? [frame] s <;> simp [Reading.Fits]

theorem fits_readHeredoc? (c : Char) (s : Text) :
    ((readHeredoc? s).getD (.lexeme .other 0)).Fits c := by
  rw [readHeredoc?]
  rcases heredocOpening? s with _ | ⟨marker, body⟩
  · trivial
  · cases h : heredocEnd? marker true body <;> simp [h, Reading.Fits]

theorem fits_readMark (a : Bool) (c : Char) (s : Text) : (readMark a c s).Fits c := by
  unfold readMark
  split
  case h_2 => split <;> trivial
  case h_3 =>
    split
    · trivial
    split
    · exact fits_readBlockComment _ _
    · exact fits_readSign _ _
  case h_7 | h_8 | h_9 => exact fits_readQuoted _ _ _
  case h_10 =>
    split
    · exact fits_readHeredoc? _ _
    · exact fits_readSign _ _
  case h_11 => exact fits_readSign _ _
  all_goals
    split
    · trivial
    · exact fits_readSign _ _

theorem fits_readCode (a : Bool) (c : Char) (s : Text) : (readCode a c s).Fits c := by
  rw [readCode]
  split
  · trivial
  split
  · trivial
  split
  · trivial
  · exact fits_readMark a c s

theorem fits_read (short : Bool) (m : Mode) (c : Char) (s : Text) : (read short m c s).Fits c := by
  cases m with
  | html =>
    simp only [read, readHtml]
    split <;> trivial
  | code a => exact fits_readCode a c s

end Lexeme

/-- A character that is left out is a control character. -/
theorem isControl_of_stray_mem {short : Bool} {m : Mode} {s : Text} {c : Char}
    (h : .stray c ∈ pieces short m s) : Lexeme.isControl c = true := by
  obtain ⟨m', d, r, hp⟩ := exists_read_of_mem_pieces h
  have hfits := Lexeme.fits_read short m' d r
  cases hr : Lexeme.read short m' d r with
  | stray =>
    rw [hr] at hp hfits
    cases hp
    exact hfits
  | _ => simp [hr, Reading.piece] at hp

/-- The fault of a token is that it has no end. -/
theorem fault_ne_unexpected {short : Bool} {m : Mode} {s : Text} {kind : Kind} {text : Text}
    {fault : Fault} (h : .token kind text (some fault) ∈ pieces short m s) (d : Char) :
    fault ≠ .unexpectedCharacter d := by
  obtain ⟨m', c, r, hp⟩ := exists_read_of_mem_pieces h
  have hfits := Lexeme.fits_read short m' c r
  cases hr : Lexeme.read short m' c r with
  | unterminated kind' fault' =>
    rw [hr] at hp hfits
    cases hp
    exact hfits d
  | _ => simp [hr, Reading.piece] at hp

/-! ## Places count on -/

/-- The text that some pieces make up. -/
def textOf (ps : List Piece) : Text := ps.flatMap Piece.text

@[simp] theorem textOf_nil : textOf [] = [] := rfl

@[simp] theorem textOf_cons (p : Piece) (ps : List Piece) :
    textOf (p :: ps) = p.text ++ textOf ps := by
  simp [textOf]

@[simp] theorem textOf_append (ps qs : List Piece) :
    textOf (ps ++ qs) = textOf ps ++ textOf qs := by
  simp [textOf]

@[simp] theorem textOf_pieces (short : Bool) (m : Mode) (s : Text) :
    textOf (pieces short m s) = s :=
  flatMap_text_pieces short m s

/-- From inside a piece on, the text goes on with the rest of the piece. -/
theorem dropBytes_textOf {p : Piece} {a b : Text} (h : p.text = a ++ b)
    (before after : List Piece) :
    (textOf (before ++ p :: after)).dropBytes ((textOf before).byteSize + a.byteSize) =
      b ++ textOf after := by
  rw [textOf_append, textOf_cons, h, Text.dropBytes_append, List.append_assoc,
    Text.dropBytes_byteSize]

theorem placed_append (line offset : Nat) (ps qs : List Piece) :
    placed line offset (ps ++ qs) =
      placed line offset ps ++
        placed (line + (textOf ps).newlines) (offset + (textOf ps).byteSize) qs := by
  induction ps generalizing line offset with
  | nil => simp [placed]
  | cons p ps ih =>
    cases p with
    | token kind text fault => simp [placed, ih, Piece.text, Nat.add_assoc]
    | stray c => simp [placed, ih, Piece.text, Nat.add_assoc, Text.newlines, List.count_cons,
        Nat.add_comm (List.count _ _)]

theorem faults_append (line : Nat) (ps qs : List Piece) :
    faults line (ps ++ qs) = faults line ps ++ faults (line + (textOf ps).newlines) qs := by
  induction ps generalizing line with
  | nil => simp [faults]
  | cons p ps ih => simp [faults, ih, Nat.add_assoc]

/-- A token stands behind the text of the pieces before it. -/
theorem mem_placed {line offset : Nat} {ps : List Piece} {t : Token}
    (h : t ∈ placed line offset ps) :
    ∃ before fault after, ps = before ++ .token t.kind t.text fault :: after ∧
      t.offset = offset + (textOf before).byteSize := by
  induction ps generalizing line offset with
  | nil => simp [placed] at h
  | cons p ps ih =>
    cases p with
    | token kind text fault =>
      rw [placed, List.mem_cons] at h
      rcases h with rfl | h
      · exact ⟨[], fault, ps, rfl, by simp⟩
      · obtain ⟨before, fault', after, rfl, ht⟩ := ih h
        exact ⟨_ :: before, fault', after, rfl, by simp [ht, Piece.text, Nat.add_assoc]⟩
    | stray c =>
      rw [placed] at h
      obtain ⟨before, fault, after, rfl, ht⟩ := ih h
      exact ⟨_ :: before, fault, after, rfl, by simp [ht, Piece.text, Nat.add_assoc]⟩

/-- The text behind a token is that of the pieces behind it. -/
theorem dropBytes_stop {short : Bool} {m : Mode} {s : Text} {before after : List Piece} {t : Token}
    {fault : Option Fault}
    (hps : pieces short m s = before ++ .token t.kind t.text fault :: after)
    (hoffset : t.offset = 0 + (textOf before).byteSize) : s.dropBytes t.stop = textOf after := by
  have hpiece : (Piece.token t.kind t.text fault).text = t.text ++ [] :=
    (List.append_nil _).symm
  rw [← textOf_pieces short m s, hps, Token.stop, hoffset, Nat.zero_add]
  exact dropBytes_textOf hpiece before after

/-- No token stands before the place at which the first piece begins. -/
theorem offset_le_of_mem_placed {line offset : Nat} {ps : List Piece} {t : Token}
    (h : t ∈ placed line offset ps) : offset ≤ t.offset := by
  obtain ⟨_, _, _, _, ht⟩ := mem_placed h
  omega

/-! ## The same pieces further on -/

/-- The token `lines` lines and `bytes` bytes further on. -/
def Token.moved (lines bytes : Nat) (t : Token) : Token :=
  { t with line := t.line + lines, offset := t.offset + bytes }

/-- The diagnostic `lines` lines further on. -/
def Diagnostic.moved (lines : Nat) (d : Diagnostic) : Diagnostic :=
  { d with line := d.line + lines }

theorem placed_add (lines bytes line offset : Nat) (ps : List Piece) :
    placed (line + lines) (offset + bytes) ps =
      (placed line offset ps).map (Token.moved lines bytes) := by
  induction ps generalizing line offset with
  | nil => rfl
  | cons p ps ih =>
    cases p with
    | token kind text fault =>
      rw [placed, placed, List.map_cons, Nat.add_right_comm line, Nat.add_right_comm offset, ih]
      rfl
    | stray c => rw [placed, placed, Nat.add_right_comm line, Nat.add_right_comm offset, ih]

theorem faults_add (lines line : Nat) (ps : List Piece) :
    faults (line + lines) ps = (faults line ps).map (Diagnostic.moved lines) := by
  induction ps generalizing line with
  | nil => rfl
  | cons p ps ih =>
    rw [faults, faults, List.map_append, Nat.add_right_comm line, ih, List.map_map]
    rfl

/-- A source that does not begin with a byte order mark is cut as it stands. -/
theorem unmarked_eq_self {s : Text} (h : s.head? ≠ some '\uFEFF') : unmarked s = s := by
  cases s with
  | nil => rfl
  | cons c s =>
    have hc : c ≠ '\uFEFF' := by simpa using h
    simp [unmarked, Text.stripOne, hc]

end PhpOutline
