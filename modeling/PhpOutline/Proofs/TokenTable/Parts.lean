import PhpOutline.Proofs.Lexing.Placement
import PhpOutline.Proofs.TokenTable.Windows
import PhpOutline.TokenTable.Slices

/-!
# Parts of a gapless table

When a source has no lexical fault, its tokens follow each other without gaps. Then the text of a
span is what its tokens spell, and the text between two tokens is what stands between them.

## Main definitions

* `Faultless`: pieces that are tokens, each with its end.
* `kindsOf`: the kinds among some pieces.
* `TokenTable.IsGapless`: the tokens of a table spell its source.

## Main statements

* `exists_cons_of_map_piece`: the token of a piece.
* `isGapless_of_faultless`: without faults there are no gaps.
* `TokenTable.within_part`, `TokenTable.sourceOf_part`, `TokenTable.sourceBetween_part`: the entries
  and the text of a part of the tokens.
-/

namespace PhpOutline

/-! ## Pieces without faults -/

/-- A token as a piece of its source. -/
def Token.piece (t : Token) : Piece := .token t.kind t.text none

/-- Pieces that are tokens, each with its end. -/
def Faultless (ps : List Piece) : Prop := ∀ p ∈ ps, p.fault? = none

theorem Faultless.nil : Faultless [] := fun _ hp => absurd hp List.not_mem_nil

theorem Faultless.cons {p : Piece} {ps : List Piece} (hp : p.fault? = none) (h : Faultless ps) :
    Faultless (p :: ps) := by
  intro q hq
  rcases List.mem_cons.1 hq with rfl | hq
  · exact hp
  · exact h q hq

theorem Faultless.append {ps qs : List Piece} (hp : Faultless ps) (hq : Faultless qs) :
    Faultless (ps ++ qs) := by
  intro p h
  rcases List.mem_append.1 h with h | h
  · exact hp p h
  · exact hq p h

theorem Faultless.tail {p : Piece} {ps : List Piece} (h : Faultless (p :: ps)) : Faultless ps :=
  fun q hq => h q (List.mem_cons_of_mem p hq)

/-- No diagnostics, no faults. -/
theorem faultless_of_faults_eq_nil {line : Nat} {ps : List Piece} (h : faults line ps = []) :
    Faultless ps := by
  induction ps generalizing line with
  | nil => intro p hp; simp at hp
  | cons p ps ih =>
    rw [faults, List.append_eq_nil_iff] at h
    refine .cons ?_ (ih h.2)
    cases hf : p.fault? with
    | none => rfl
    | some fault => simp [hf] at h

/-- Without faults, the tokens are the pieces. -/
theorem map_piece_placed {line offset : Nat} {ps : List Piece} (h : Faultless ps) :
    (placed line offset ps).map Token.piece = ps := by
  induction ps generalizing line offset with
  | nil => rfl
  | cons p ps ih =>
    have hp := h p List.mem_cons_self
    cases p with
    | stray c => simp [Piece.fault?] at hp
    | token kind text fault =>
      have hfault : fault = none := hp
      rw [placed, List.map_cons, ih h.tail, hfault]
      rfl

theorem length_placed {line offset : Nat} {ps : List Piece} (h : Faultless ps) :
    (placed line offset ps).length = ps.length := by
  conv_rhs => rw [← @map_piece_placed line offset ps h, List.length_map]

/-- Without faults, a token stands at the size of what is spelled before it. -/
theorem offset_of_placed {line offset : Nat} {ps : List Piece} (h : Faultless ps)
    {before after : List Token} {t : Token}
    (ht : placed line offset ps = before ++ t :: after) :
    t.offset = offset + (textOf (before.map Token.piece)).byteSize := by
  induction ps generalizing line offset before with
  | nil => simp [placed] at ht
  | cons p ps ih =>
    have hp := h p List.mem_cons_self
    cases p with
    | stray c => simp [Piece.fault?] at hp
    | token kind text fault =>
      rw [placed] at ht
      cases before with
      | nil =>
        rw [List.nil_append, List.cons.injEq] at ht
        simp [← ht.1]
      | cons b before =>
        rw [List.cons_append, List.cons.injEq] at ht
        have hb : b.piece.text = text := by
          rw [← ht.1]
          rfl
        rw [ih h.tail ht.2, List.map_cons, textOf_cons, hb, Text.byteSize_append, Nat.add_assoc]

/-! ## Kinds of pieces -/

/-- The kind of a piece that is a token. -/
def Piece.kind? : Piece → Option Kind
  | token kind _ _ => some kind
  | stray _ => none

/-- The kinds among some pieces. -/
def kindsOf (ps : List Piece) : List Kind := ps.filterMap Piece.kind?

@[simp] theorem kindsOf_nil : kindsOf [] = [] := rfl

@[simp] theorem kindsOf_token (kind : Kind) (text : Text) (fault : Option Fault)
    (ps : List Piece) : kindsOf (.token kind text fault :: ps) = kind :: kindsOf ps := rfl

@[simp] theorem kindsOf_append (ps qs : List Piece) :
    kindsOf (ps ++ qs) = kindsOf ps ++ kindsOf qs := by
  simp [kindsOf]

theorem kindsOf_map_piece (ts : List Token) : kindsOf (ts.map Token.piece) = ts.map Token.kind := by
  induction ts with
  | nil => rfl
  | cons x ts ih => simpa [Token.piece] using ih

theorem map_kind_placed (line offset : Nat) (ps : List Piece) :
    (placed line offset ps).map Token.kind = kindsOf ps := by
  induction ps generalizing line offset with
  | nil => rfl
  | cons p ps ih =>
    cases p with
    | token kind text fault => simp [placed, ih]
    | stray c =>
      rw [placed, ih]
      rfl

/-- The token of a piece. -/
theorem exists_cons_of_map_piece {ts : List Token} {kind : Kind} {text : Text} {ps : List Piece}
    (h : ts.map Token.piece = .token kind text none :: ps) :
    ∃ x tail, ts = x :: tail ∧ x.kind = kind ∧ x.text = text ∧ tail.map Token.piece = ps := by
  obtain ⟨x, tail, rfl, hx, htail⟩ := List.map_eq_cons_iff.1 h
  rw [Token.piece, Piece.token.injEq] at hx
  exact ⟨x, tail, rfl, hx.1, hx.2.1, htail⟩

/-! ## Tables without gaps -/

namespace TokenTable

/-- The tokens of a table spell its source, one behind the other. -/
structure IsGapless (t : TokenTable) : Prop where
  source_eq : t.source = textOf (t.tokens.map Token.piece)
  offset_eq : ∀ before tok after, t.tokens = before ++ tok :: after →
    tok.offset = (textOf (before.map Token.piece)).byteSize

end TokenTable

/-- A source without faults has no gaps between its tokens. -/
theorem isGapless_of_faultless {ps : List Piece} (h : Faultless ps) (line : Nat) :
    TokenTable.IsGapless ⟨textOf ps, placed line 0 ps⟩ where
  source_eq := by rw [map_piece_placed h]
  offset_eq := by
    intro before tok after ht
    rw [offset_of_placed h ht, Nat.zero_add]

namespace TokenTable

variable {t : TokenTable} {before part after : List Token}

/-! ## Entries of a part -/

theorem window_part (h : t.tokens = before ++ (part ++ after)) {i j : Nat} (hi : i = before.length)
    (hj : j = before.length + part.length) : t.window i j = Entry.number i part := by
  subst hi hj
  exact window_length (by rw [h, List.append_assoc])

theorem within_part (h : t.tokens = before ++ (part ++ after)) {i j : Nat} (hi : i = before.length)
    (hj : j + 1 = before.length + part.length) (hij : i ≤ j) :
    t.within (.ofBounds i j) = Entry.number i part := by
  rw [within, Span.first_ofBounds, Span.last_ofBounds, Nat.max_eq_right hij]
  exact window_part h hi hj

theorem get?_length {x : Token} (h : t.tokens = before ++ x :: after) :
    t.get? before.length = some x := by
  simp [get?, h]

/-! ## Text of a part -/

/-- The text of a span is what its tokens spell. -/
theorem sourceOf_part (ht : t.IsGapless) (h : t.tokens = before ++ (part ++ after)) {i j : Nat}
    (hi : i = before.length) (hj : j + 1 = before.length + part.length) (hij : i ≤ j) :
    t.sourceOf (.ofBounds i j) = textOf (part.map Token.piece) := by
  subst hi
  have hne : part ≠ [] := by
    rintro rfl
    simp only [List.length_nil] at hj
    omega
  obtain ⟨a, tail, htail⟩ := List.exists_cons_of_ne_nil hne
  obtain ⟨init, z, hinit⟩ := List.eq_nil_or_concat part |>.resolve_left hne
  rw [List.concat_eq_append] at hinit
  have hjz : j = (before ++ init).length := by
    rw [hinit] at hj
    simp only [List.length_append, List.length_singleton] at hj ⊢
    omega
  have ha : t.tokens = before ++ a :: (tail ++ after) := by
    rw [h, htail, List.cons_append]
  have hz : t.tokens = (before ++ init) ++ z :: after := by
    rw [h, hinit]
    simp
  have hstop : z.stop = (textOf (before.map Token.piece)).byteSize +
      (textOf (part.map Token.piece)).byteSize := by
    rw [Token.stop, ht.offset_eq _ _ _ hz, hinit]
    simp [Token.piece, Piece.text, Nat.add_assoc]
  rw [sourceOf, Span.first_ofBounds, Span.last_ofBounds, Nat.max_eq_right hij, get?_length ha, hjz,
    get?_length hz]
  simp only
  rw [ht.offset_eq _ _ _ ha, hstop, ht.source_eq, h, List.map_append, List.map_append,
    textOf_append, textOf_append, ← List.append_assoc, Text.slice_append]

/-- The text between two tokens is what the tokens between them spell. -/
theorem sourceBetween_part (ht : t.IsGapless) {a b : Token}
    (h : t.tokens = before ++ a :: (part ++ b :: after)) {i j : Nat} (hi : i = before.length)
    (hj : j = before.length + 1 + part.length) :
    t.sourceBetween i j = textOf (part.map Token.piece) := by
  subst hi
  have hb : t.tokens = (before ++ a :: part) ++ b :: after := by
    simp [h]
  have hjb : j = (before ++ a :: part).length := by
    simp only [hj, List.length_append, List.length_cons]
    omega
  have hstop : a.stop = (textOf ((before ++ [a]).map Token.piece)).byteSize := by
    rw [Token.stop, ht.offset_eq _ _ _ h]
    simp [Token.piece, Piece.text]
  have hoffset : b.offset = (textOf ((before ++ [a]).map Token.piece)).byteSize +
      (textOf (part.map Token.piece)).byteSize := by
    rw [ht.offset_eq _ _ _ hb]
    simp [Nat.add_assoc]
  have hsource : t.source = textOf ((before ++ [a]).map Token.piece) ++
      textOf (part.map Token.piece) ++ textOf ((b :: after).map Token.piece) := by
    rw [ht.source_eq, h]
    simp
  rw [sourceBetween, get?_length h, hjb, get?_length hb]
  simp only
  rw [hstop, hoffset, if_pos (Nat.le_add_right _ _), hsource, Text.slice_append]

end TokenTable

end PhpOutline
