import Mathlib.Data.List.Induction
import PhpOutline.Proofs.Lexing.Lexemes
import PhpOutline.Proofs.TokenTable.Parts

/-!
# Beginning at a token

All that is remembered from one token to the next is whether the place stands in code, and whether a
member operator stands before it. So a source can be cut from any of its tokens on: unless a member
operator stands before the token, the rest of the source by itself is cut into the same tokens, with
the same faults, and only lines and offsets count from the new beginning.

## Main definitions

* `lastTelling?`: the last kind of some that is no trivia.
* `Lexed.GoesOnAs`: tokens and diagnostics from a place on, counted anew.

## Main statements

* `modeAfter_eq_code_true`: the mode remembers a member operator only right behind one.
* `lex_goesOnAs`: the rest of a source, from one of its tokens on.
-/

namespace PhpOutline

/-! ## Modes behind member operators -/

/-- The operators behind which every word is a name. -/
def Kind.isMemberOperator (k : Kind) : Bool := k == .objectOperator || k == .doubleColon

/-- The last kind of some that is no trivia. -/
def lastTelling? (ks : List Kind) : Option Kind := (ks.filter fun k => !k.isTrivia).getLast?

theorem lastTelling?_concat (ks : List Kind) (k : Kind) :
    lastTelling? (ks ++ [k]) = if k.isTrivia then lastTelling? ks else some k := by
  by_cases hk : k.isTrivia = true
  · simp [lastTelling?, List.filter_append, hk]
  · simp [lastTelling?, List.filter_append, hk]

/-- The mode remembers a member operator only when that is the last token before, trivia apart. -/
theorem modeAfter_eq_code_true {m : Mode} (hm : m ≠ .code true) {ps : List Piece}
    (h : modeAfter m ps = .code true) :
    ∃ k, lastTelling? (kindsOf ps) = some k ∧ k.isMemberOperator = true := by
  induction ps using List.reverseRecOn with
  | nil => exact absurd h hm
  | append_singleton ps p ih =>
    rw [modeAfter_append, modeAfter_cons, modeAfter_nil] at h
    rw [kindsOf_append]
    cases p with
    | stray c =>
      have hkinds : kindsOf [.stray c] = [] := rfl
      rw [hkinds, List.append_nil]
      exact ih h
    | token kind text fault =>
      have hkinds : kindsOf [.token kind text fault] = [kind] := rfl
      rw [hkinds, lastTelling?_concat]
      cases kind with
      | objectOperator => exact ⟨_, rfl, rfl⟩
      | doubleColon => exact ⟨_, rfl, rfl⟩
      | whitespace => exact ih h
      | comment => exact ih h
      | docComment => exact ih h
      | _ => cases h

theorem initial_ne_code_true (o : Options) : Mode.initial o ≠ .code true := by
  rw [Mode.initial]
  split <;> simp

/-! ## Pieces behind some pieces -/

/-- The pieces behind some pieces of a text are those of the rest of the text, in the mode that the
first ones leave. -/
theorem pieces_of_append {short : Bool} {m : Mode} {s : Text} {before after : List Piece}
    (h : pieces short m s = before ++ after) :
    after = pieces short (modeAfter m before) (textOf after) := by
  induction before generalizing m s with
  | nil =>
    rw [List.nil_append] at h
    rw [modeAfter_nil, ← h, textOf_pieces]
  | cons p before ih =>
    cases s with
    | nil => simp at h
    | cons c s =>
      rw [pieces_cons, List.cons_append, List.cons.injEq] at h
      obtain ⟨rfl, hrest⟩ := h
      rw [modeAfter_cons, Reading.mode_piece]
      exact ih hrest

/-- The token at a place splits the pieces: the tokens before it are those of the pieces before. -/
theorem exists_of_getElem?_placed {line offset k : Nat} {ps : List Piece} {t : Token}
    (h : (placed line offset ps)[k]? = some t) :
    ∃ before fault after, ps = before ++ .token t.kind t.text fault :: after ∧
      (placed line offset ps).take k = placed line offset before ∧
      t.line = line + (textOf before).newlines ∧ t.offset = offset + (textOf before).byteSize := by
  induction ps generalizing line offset k with
  | nil => simp [placed] at h
  | cons p ps ih =>
    cases p with
    | token kind text fault =>
      rw [placed] at h ⊢
      cases k with
      | zero =>
        obtain rfl := Option.some.inj h
        exact ⟨[], fault, ps, rfl, rfl, rfl, rfl⟩
      | succ k =>
        obtain ⟨before, fault', after, rfl, htake, hline, hoffset⟩ := ih h
        refine ⟨.token kind text fault :: before, fault', after, rfl, ?_, ?_, ?_⟩
        · rw [List.take_succ_cons, htake, placed]
        · rw [hline, textOf_cons, Text.newlines_append, Nat.add_assoc]
          rfl
        · rw [hoffset, textOf_cons, Text.byteSize_append, Nat.add_assoc]
          rfl
    | stray c =>
      rw [placed] at h ⊢
      obtain ⟨before, fault, after, rfl, htake, hline, hoffset⟩ := ih h
      refine ⟨.stray c :: before, fault, after, rfl, by rw [htake, placed], ?_, ?_⟩
      · rw [hline, textOf_cons, Text.newlines_append, Nat.add_assoc]
        rfl
      · rw [hoffset, textOf_cons, Text.byteSize_append, Nat.add_assoc]
        rfl

/-! ## The rest of a source -/

/-- Tokens and diagnostics go on from the token `first` at place `k` as `rest`: with the same
tokens, and the last of the same diagnostics, all counted in `rest` from `first` on. -/
structure Lexed.GoesOnAs (l : Lexed) (k : Nat) (first : Token) (rest : Lexed) : Prop where
  tokens : l.tokens.drop k = rest.tokens.map (Token.moved (first.line - 1) first.offset)
  diagnostics : rest.diagnostics.map (Diagnostic.moved (first.line - 1)) <:+ l.diagnostics

/-- The mode behind some pieces is the one in which a source begins whose first token is the next
one, unless that stands behind a member operator. -/
theorem modeAfter_eq_initial {o : Options} {s : Text} {before after : List Piece} {kind : Kind}
    {text : Text} {fault : Option Fault}
    (h : pieces o.shortOpenTags (.initial o) s = before ++ .token kind text fault :: after)
    (htelling : ∀ k, lastTelling? (kindsOf before) = some k → k.isMemberOperator = false) :
    modeAfter (.initial o) before = .initial ⟨!kind.isOutside, o.shortOpenTags⟩ := by
  have hread : if kind.isOutside then modeAfter (.initial o) before = .html
      else ∃ a, modeAfter (.initial o) before = .code a := by
    have hrest := pieces_of_append h
    cases hs : textOf (.token kind text fault :: after) with
    | nil => simp [hs] at hrest
    | cons c r =>
      rw [hs, pieces_cons, List.cons.injEq] at hrest
      exact Lexeme.mode_of_kind_read hrest.1.symm
  cases hout : kind.isOutside with
  | true => simpa [hout, Mode.initial] using hread
  | false =>
    obtain ⟨a, ha⟩ : ∃ a, modeAfter (.initial o) before = .code a := by
      simpa [hout] using hread
    cases a with
    | false => simpa [Mode.initial] using ha
    | true =>
      obtain ⟨k, hk, hoperator⟩ := modeAfter_eq_code_true (initial_ne_code_true o) ha
      rw [htelling k hk] at hoperator
      cases hoperator

/-- From one of its tokens on, a source is cut as it is cut by itself: unless a member operator
stands before the token, trivia apart, the rest of the source has the remaining tokens and their
diagnostics, with lines and offsets counted from the token on. Only a byte order mark must not come
to stand at the beginning. -/
theorem lex_goesOnAs (o : Options) (source : Text) {k : Nat} {first : Token}
    (hfirst : (lex o source).tokens[k]? = some first)
    (htelling : ∀ p, lastTelling? (((lex o source).tokens.take k).map Token.kind) = some p →
      p.isMemberOperator = false)
    (hmark : ((unmarked source).dropBytes first.offset).head? ≠ some '\uFEFF') :
    (lex o source).GoesOnAs k first
      (lex ⟨!first.kind.isOutside, o.shortOpenTags⟩
        ((unmarked source).dropBytes first.offset)) := by
  obtain ⟨before, fault, after, hps, htake, hline, hoffset⟩ := exists_of_getElem?_placed hfirst
  have hlength : (placed 1 0 before).length = k := by
    obtain ⟨hk, -⟩ := List.getElem?_eq_some_iff.1 hfirst
    rw [← htake, List.length_take]
    exact Nat.min_eq_left (Nat.le_of_lt hk)
  have hmode : modeAfter (.initial o) before =
      .initial ⟨!first.kind.isOutside, o.shortOpenTags⟩ := by
    refine modeAfter_eq_initial hps ?_
    rw [← map_kind_placed 1 0, ← htake]
    exact htelling
  have hdrop : (unmarked source).dropBytes first.offset =
      textOf (.token first.kind first.text fault :: after) := by
    rw [← textOf_pieces o.shortOpenTags (.initial o) (unmarked source), hps, hoffset, Nat.zero_add,
      textOf_cons]
    exact dropBytes_textOf (List.nil_append _).symm before after
  have hrest := pieces_of_append hps
  rw [hmode] at hrest
  rw [hdrop] at hmark ⊢
  have hlines : first.line - 1 = (textOf before).newlines := by omega
  constructor
  case tokens =>
    rw [lex, lex, unmarked_eq_self hmark, ← hrest, hps, placed_append, ← hlength, List.drop_left,
      placed_add, hlines, hoffset, Nat.zero_add]
  case diagnostics =>
    rw [lex, lex, unmarked_eq_self hmark, ← hrest, hps, faults_append, faults_add, hlines]
    exact List.suffix_append _ _

/-- A closing tag, and a string behind it that nothing closes. -/
def restartTail : Text := "?>\n<b>\n<?= \"d\n".toList ++ '{' :: "$e".toList

/-- Text outside the tags and a stray control character in front of them. -/
def restartSample : Text :=
  "\uFEFF<p>\n<?php $a->b;\x01\n/* c */ echo 1 ".toList ++ restartTail

/-- From the closing tag on, the third line of the sample is its first one. -/
theorem goesOnAs_restartSample :
    (lex {} restartSample).tokens[13]? = some ⟨.closeTag, "?>\n".toList, 3, 33⟩ ∧
      (lex {} restartSample).GoesOnAs 13 ⟨.closeTag, "?>\n".toList, 3, 33⟩
        (lex ⟨true, false⟩ restartTail) := by
  have hfirst : (lex {} restartSample).tokens[13]? =
      some ⟨.closeTag, "?>\n".toList, 3, 33⟩ := by
    decide +kernel
  have htelling : ∀ p,
      lastTelling? (((lex {} restartSample).tokens.take 13).map Token.kind) = some p →
        p.isMemberOperator = false := by
    intro p hp
    have hnumber : lastTelling? (((lex {} restartSample).tokens.take 13).map Token.kind) =
        some .number := by
      decide +kernel
    rw [hnumber] at hp
    cases hp
    rfl
  have hrest : (unmarked restartSample).dropBytes 33 = restartTail := by
    decide +kernel
  have hgoes := lex_goesOnAs {} restartSample hfirst htelling (by rw [hrest]; decide)
  rw [hrest] at hgoes
  exact ⟨hfirst, hgoes⟩

end PhpOutline
