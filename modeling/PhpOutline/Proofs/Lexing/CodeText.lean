import PhpOutline.Proofs.Lexing.Lexemes
import PhpOutline.Proofs.TokenTable.Items
import PhpOutline.Proofs.TokenTable.Parts

/-!
# Texts that stand in code

A text is put between two known parts of a source. When it has no fault, ends in code and has an end
of its own, a separator or closing bracket behind it stands alone, and the text is cut as it would
be cut by itself.

## Main definitions

* `codePieces`: the pieces of a text that stands in code, and `newlinePiece`, a line end in it.
* `IsContained`: a text that ends in code with an end of its own.
* `LineSyntax`: a way to write lines of code.

## Main statements

* `pieces_contained`: a contained text in front of a fence.
* `isContained_of_delimited`: a text with a significant token at its end is contained.
* `exists_pieces_blank`: a text with significant ends in front of a blank.
* `LineSyntax.pieces_lines`: the pieces of lines.
-/

namespace PhpOutline

open Lexeme

/-- The pieces of a text that stands in code. -/
def codePieces (s : Text) : List Piece := pieces false (.code false) s

/-- The end of a line. -/
def newlinePiece : Piece := .token .whitespace "\n".toList none

/-! ## Contained texts -/

/-- A text that stands in code, has no fault, ends in code and has an end of its own. -/
structure IsContained (s : Text) : Prop where
  faultless : Faultless (codePieces s)
  endsInCode : ∃ a, modeAfter (.code false) (codePieces s) = .code a
  endsClosed : EndsClosed (codePieces s)

/-- A separator or closing bracket is a token by itself. -/
theorem pieces_fence {short a : Bool} {d : Char} (hd : isFence d = true) (rest : Text) :
    pieces short (.code a) (d :: rest) =
      .token (plainSign d) [d] none :: pieces short (.code false) rest := by
  rcases isFence_cases hd with rfl | rfl | rfl | rfl | rfl <;> exact pieces_sign rfl

/-- A contained text in front of a separator or closing bracket is cut as by itself. -/
theorem pieces_contained {s : Text} (h : IsContained s) {d : Char} (hd : isFence d = true)
    (rest : Text) :
    pieces false (.code false) (s ++ d :: rest) =
      codePieces s ++ .token (plainSign d) [d] none :: pieces false (.code false) rest := by
  obtain ⟨a, ha⟩ := h.endsInCode
  rw [pieces_append hd h.endsClosed]
  change codePieces s ++ pieces false (modeAfter (.code false) (codePieces s)) (d :: rest) = _
  rw [ha, pieces_fence hd]

/-! ## Texts with significant ends -/

theorem isClosed_of_significant {kind : Kind} {text : Text} (h : kind.isInsignificant = false) :
    (Piece.token kind text none).IsClosed := by
  refine ⟨rfl, ?_, ?_, ?_⟩
  · rintro rfl
    simp [Kind.isInsignificant] at h
  · rintro rfl
    simp [Kind.isInsignificant, Kind.isTrivia] at h
  · rintro rfl
    simp [Kind.isInsignificant] at h

theorem exists_after_of_significant {kind : Kind} (h : kind.isInsignificant = false) (m : Mode) :
    ∃ a, m.after kind = .code a := by
  cases kind <;> simp_all [Mode.after, Kind.isInsignificant, Kind.isTrivia]

/-- The last piece of a text without faults that ends with a significant token. -/
theorem exists_concat_of_delimited {ps : List Piece} (hf : Faultless ps)
    (h : Delimited (kindsOf ps)) :
    ∃ init kind text, ps = init ++ [.token kind text none] ∧ kind.isInsignificant = false := by
  obtain ⟨k, hk, hsig⟩ := h.last
  rcases List.eq_nil_or_concat ps with rfl | ⟨init, p, rfl⟩
  · simp at hk
  · rw [List.concat_eq_append] at hf hk ⊢
    have hp := hf p (by simp)
    cases p with
    | stray c => simp [Piece.fault?] at hp
    | token kind text fault =>
      have hfault : fault = none := hp
      have hkind : kind = k := by simpa [List.getLast?_append] using hk
      exact ⟨init, kind, text, by rw [hfault], by rw [hkind]; exact hsig⟩

/-- A text without faults that ends with a significant token is contained. -/
theorem isContained_of_delimited {s : Text} (hf : Faultless (codePieces s))
    (h : Delimited (kindsOf (codePieces s))) : IsContained s := by
  obtain ⟨init, kind, text, hps, hsig⟩ := exists_concat_of_delimited hf h
  refine ⟨hf, ?_, ?_⟩
  · rw [hps, modeAfter_append, modeAfter_cons, modeAfter_nil]
    exact exists_after_of_significant hsig _
  · intro p hp
    rw [hps, List.getLast?_append] at hp
    have : Piece.token kind text none = p := by simpa using hp
    rw [← this]
    exact isClosed_of_significant hsig

/-- A text with significant ends is cut as by itself in front of a blank that stands before a
sign. -/
theorem exists_pieces_blank {s : Text} (hf : Faultless (codePieces s))
    (h : Delimited (kindsOf (codePieces s))) {d : Char} (hd : StandsApart d) (rest : Text) :
    ∃ a, pieces false (.code false) (s ++ ' ' :: d :: rest) =
      codePieces s ++ .token .whitespace " ".toList none :: pieces false (.code a) (d :: rest) := by
  have hcontained := isContained_of_delimited hf h
  obtain ⟨a, ha⟩ := hcontained.endsInCode
  have hends : EndsBefore (' ' :: d :: rest) (codePieces s) := by
    refine ⟨hcontained.endsClosed, ?_⟩
    intro _ text fault hlast
    obtain ⟨init, kind, text', hps, hsig⟩ := exists_concat_of_delimited hf h
    rw [hps, List.getLast?_concat] at hlast
    cases hlast
    cases hsig
  refine ⟨a, ?_⟩
  have hspace : startsWith isSpace (d :: rest) = false := hd.space
  refine (pieces_append_of_endsBefore (separates_blank hd rest) hends).trans ?_
  change codePieces s ++ pieces false (modeAfter (.code false) (codePieces s)) _ = _
  rw [ha, pieces_blank rfl hspace]
  rfl

/-- A text that begins with a significant token begins with no white space. -/
theorem startsWith_isSpace_of_head {s : Text}
    (h : ∃ k ∈ (kindsOf (codePieces s)).head?, k.isInsignificant = false) (rest : Text) :
    startsWith isSpace (s ++ rest) = false := by
  obtain ⟨k, hk, hsig⟩ := h
  cases s with
  | nil => simp [codePieces] at hk
  | cons c s =>
    cases hc : isSpace c with
    | false => exact hc
    | true =>
      have hread : Lexeme.read false (.code false) c s =
          .lexeme .whitespace (runLength isSpace s) := by
        simp [Lexeme.read, readCode, hc]
      rw [codePieces, pieces_cons, hread] at hk
      have : k = .whitespace := by simpa [Reading.piece, kindsOf, Piece.kind?] using hk.symm
      simp [this, Kind.isInsignificant, Kind.isTrivia] at hsig

theorem startsWith_isSpace_of_delimited {s : Text} (h : Delimited (kindsOf (codePieces s)))
    (rest : Text) : startsWith isSpace (s ++ rest) = false :=
  startsWith_isSpace_of_head h.head rest

/-! ## Lines -/

/-- A way to write lines of code: the text of a line is cut into the pieces of the line, whatever
follows it. -/
structure LineSyntax (α : Type) where
  render : α → Text
  pieces : α → List Piece
  pieces_render : ∀ a rest, PhpOutline.pieces false (.code false) (render a ++ rest) =
    pieces a ++ PhpOutline.pieces false (.code false) rest
  startsWith_isSpace : ∀ a rest, startsWith isSpace (render a ++ rest) = false
  faultless : ∀ a, Faultless (pieces a)

namespace LineSyntax

variable {α : Type} (L : LineSyntax α)

/-- The lines, each with its end. -/
def lines (as : List α) : Text := as.flatMap fun a => L.render a ++ ['\n']

/-- The pieces of the lines. -/
def linePieces (as : List α) : List Piece := as.flatMap fun a => L.pieces a ++ [newlinePiece]

theorem linePieces_cons (a : α) (as : List α) :
    L.linePieces (a :: as) = L.pieces a ++ newlinePiece :: L.linePieces as := by
  simp [linePieces]

theorem startsWith_isSpace_lines (as : List α) {rest : Text}
    (hrest : startsWith isSpace rest = false) :
    startsWith isSpace (L.lines as ++ rest) = false := by
  cases as with
  | nil => exact hrest
  | cons a as =>
    rw [lines, List.flatMap_cons, List.append_assoc, List.append_assoc]
    exact L.startsWith_isSpace a _

/-- Lines in front of what does not begin with white space. -/
theorem pieces_lines (as : List α) {rest : Text} (hrest : startsWith isSpace rest = false) :
    PhpOutline.pieces false (.code false) (L.lines as ++ rest) =
      L.linePieces as ++ PhpOutline.pieces false (.code false) rest := by
  induction as with
  | nil => rfl
  | cons a as ih =>
    have hsplit : L.lines (a :: as) ++ rest = L.render a ++ '\n' :: (L.lines as ++ rest) := by
      simp [lines]
    rw [hsplit, L.pieces_render, pieces_blank rfl (L.startsWith_isSpace_lines as hrest), ih,
      linePieces_cons, List.append_assoc]
    rfl

theorem faultless_linePieces (as : List α) : Faultless (L.linePieces as) := by
  induction as with
  | nil => exact .nil
  | cons a as ih =>
    rw [linePieces_cons]
    exact (L.faultless a).append (.cons rfl ih)

end LineSyntax

end PhpOutline
