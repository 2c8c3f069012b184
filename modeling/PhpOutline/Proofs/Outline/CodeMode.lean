import PhpOutline.Proofs.Lexing.Lexemes
import PhpOutline.Proofs.Lexing.Placement
import PhpOutline.Proofs.Outline.Shifts

/-!
# Code without an opening tag

A source that is code from its first character on is read as the same source behind an opening tag.
The tag is one insignificant token: it moves every other token by one place and six bytes, and
nothing else about what is found changes, whatever the source is. Only a byte order mark at the
start makes a difference, since behind the tag it is no longer at the start.

## Main statements

* `lex_code`: without a tag, a source is cut into the pieces that stand behind one.
* `SourceFile.shiftedBy_behind_tag`: both files declare the same.
-/

namespace PhpOutline

/-- Behind a leading part, a slice is the slice of what follows. -/
theorem Text.slice_behind (a s : Text) (i j : Nat) :
    (a ++ s).slice (i + a.byteSize) (j + a.byteSize) = s.slice i j := by
  rw [slice, slice, Nat.add_sub_add_right, Nat.add_comm i, dropBytes_append]

theorem placed_add_offset (d line offset : Nat) (ps : List Piece) :
    placed line (offset + d) ps = (placed line offset ps).map (Token.shifted d) :=
  placed_add 0 d line offset ps

/-! ## Both sources in pieces -/

variable (short : Bool) {s : Text}

theorem lex_code (h : s.head? ≠ some '\uFEFF') :
    lex ⟨true, short⟩ s = ⟨placed 1 0 (pieces short (.code false) s),
      faults 1 (pieces short (.code false) s)⟩ := by
  rw [lex, unmarked_eq_self h]
  rfl

namespace SourceFile

/-- The tag moves every token by one place and six bytes. -/
theorem tokens_behind_tag (h : s.head? ≠ some '\uFEFF') :
    (ofSource ⟨false, short⟩ (longTag ++ s)).table.tokens =
      ⟨.openTag, longTag, 1, 0⟩ ::
        (ofSource ⟨true, short⟩ s).table.tokens.map (Token.shifted 6) := by
  have htokens : (ofSource ⟨true, short⟩ s).table.tokens =
      placed 1 0 (pieces short (.code false) s) := congrArg Lexed.tokens (lex_code short h)
  rw [htokens, ← placed_add_offset]
  exact congrArg Lexed.tokens (lex_behind_tag short s)

theorem shift_behind_tag (h : s.head? ≠ some '\uFEFF') :
    TokenTable.Shift [⟨.openTag, longTag, 1, 0⟩] (ofSource ⟨true, short⟩ s).table.tokens 6
      (ofSource ⟨true, short⟩ s).table (ofSource ⟨false, short⟩ (longTag ++ s)).table := by
  have hsource : (ofSource ⟨true, short⟩ s).table.source = s := unmarked_eq_self h
  have hsource' : (ofSource ⟨false, short⟩ (longTag ++ s)).table.source = longTag ++ s :=
    unmarked_behind_tag s
  have hslice : ∀ i j, (longTag ++ s).slice (i + 6) (j + 6) = s.slice i j :=
    Text.slice_behind longTag s
  refine ⟨⟨[], by simp, by simp⟩, ⟨[], ?_, by simp⟩, by simp, ?_, ?_⟩
  · rw [tokens_behind_tag short h, List.append_nil]
    rfl
  · intro x _ y _
    rw [hsource, hsource', hslice]
  · intro x _ y _
    rw [hsource, hsource', hslice]

/-- Code from the first character on declares what it declares behind an opening tag, one place
later. -/
theorem shiftedBy_behind_tag (h : s.head? ≠ some '\uFEFF') :
    (ofSource ⟨true, short⟩ s).ShiftedBy 1 (ofSource ⟨false, short⟩ (longTag ++ s)) := by
  refine shiftedBy_of_shift rfl rfl ?_ (shift_behind_tag short h) ?_
  · exact (congrArg Lexed.diagnostics (lex_behind_tag short s)).trans
      (congrArg Lexed.diagnostics (lex_code short h)).symm
  · rw [TokenTable.size, tokens_behind_tag short h, List.length_cons, List.length_map]
    rfl

/-- A class with a doc comment and a member of every sort, and a brace that stays open. -/
def taglessSource : Text :=
  ("/** A. */ class A { const X = 1; public $x = [2]; function f(?B $b = 3): C {} }" ++
    " function g(").toList

theorem shiftedBy_tagless : taglessSource.head? ≠ some '\uFEFF' ∧
    (ofSource ⟨true, false⟩ taglessSource).ShiftedBy 1
      (ofSource ⟨false, false⟩ (longTag ++ taglessSource)) :=
  ⟨by decide, shiftedBy_behind_tag false (by decide)⟩

end SourceFile

end PhpOutline
