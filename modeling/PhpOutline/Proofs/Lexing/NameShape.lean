import PhpOutline.Proofs.Lexing.Lexemes
import PhpOutline.Proofs.TokenTable.Windows
import PhpOutline.SourceFile

/-!
# The shape of names

A name is a sequence of identifiers with single backslashes between them. One more backslash may
stand in front, and one behind, where a group of names follows.

## Main definitions

* `IsNameText`: a text of this shape.
* `Entry.NamesShaped`: entries all of whose names have it.

## Main statements

* `isChain_nameTail`: no two backslashes of a name stand side by side.
* `SourceFile.namesShaped`: the names of every file have this shape.
-/

namespace PhpOutline

namespace Lexeme

/-- No two characters that are both backslashes. -/
def Apart (a b : Char) : Prop := a = '\\' → b ≠ '\\'

theorem ne_backslash_of_isIdentChar {c : Char} (h : isIdentChar c = true) : c ≠ '\\' := by
  rintro rfl
  simp [isIdentChar, isIdentStart] at h

/-- A name goes on without two backslashes side by side, behind a character that is itself none
unless an identifier follows it. -/
theorem isChain_nameTail {c : Char} {s : Text} (h : c = '\\' → startsWith isIdentStart s = true) :
    (c :: s.take (nameTail s)).IsChain Apart := by
  induction s generalizing c with
  | nil => exact .singleton c
  | cons d s ih =>
    rw [nameTail]
    split
    case isTrue hd =>
      have hd := ne_backslash_of_isIdentChar hd
      rw [List.take_succ_cons]
      exact .cons_cons (fun _ => hd) (ih fun h => absurd h hd)
    case isFalse hd =>
      split
      case isFalse => exact .singleton c
      case isTrue hbackslash =>
        -- an identifier follows `c` if that is a backslash, and it does not begin with one
        have hc : c ≠ '\\' := by
          intro hc
          have hstart : isIdentStart d = true := h hc
          simp [isIdentChar, hstart] at hd
        split
        case isTrue hs =>
          rw [List.take_succ_cons]
          exact .cons_cons (fun h => absurd h hc) (ih fun _ => hs)
        case isFalse =>
          split
          · exact .cons_cons (fun h => absurd h hc) (.singleton d)
          · exact .singleton c

theorem BeginsName.take_nameTail {c : Char} {s : Text} (h : BeginsName c s) :
    BeginsName c (s.take (nameTail s)) := by
  rcases h with h | ⟨hc, hs⟩
  · exact .inl h
  · refine .inr ⟨hc, ?_⟩
    cases s with
    | nil => exact hs
    | cons d s =>
      have hd : isIdentStart d = true := hs
      simp [nameTail, isIdentChar, startsWith, hd]

end Lexeme

/-- The text of a name: identifiers with single backslashes between them. One may stand in front,
and one behind. -/
structure IsNameText (w : Text) : Prop where
  begins : ∃ c s, w = c :: s ∧ Lexeme.BeginsName c s
  apart : w.IsChain Lexeme.Apart

namespace IsNameText

theorem ofTail {c : Char} {s : Text} (h : Lexeme.BeginsName c s) :
    IsNameText (c :: s.take (Lexeme.nameTail s)) where
  begins := ⟨c, _, rfl, h.take_nameTail⟩
  apart := by
    apply Lexeme.isChain_nameTail
    intro hc
    rcases h with h | h
    · simp [hc, Lexeme.isIdentStart] at h
    · exact h.2

theorem ofPiece {short : Bool} {m : Mode} {s w : Text} {fault : Option Fault}
    (h : .token .name w fault ∈ pieces short m s) : IsNameText w := by
  obtain ⟨m', c, r, hp⟩ := exists_read_of_mem_pieces h
  obtain ⟨a, rfl⟩ : ∃ a, m' = .code a := Lexeme.mode_of_kind_read hp.symm
  rcases Lexeme.readCode_cases a c r with ⟨hbegins, hread⟩ | hmark
  · rw [Lexeme.read, hread, Lexeme.readName] at hp
    obtain ⟨-, rfl, -⟩ := Piece.token.inj hp
    exact .ofTail hbegins
  · cases hmark.kind hp.symm

end IsNameText

/-- Every name among some entries has the shape of a name. -/
def Entry.NamesShaped (es : List Entry) : Prop := ∀ e ∈ es, e.kind = .name → IsNameText e.text

theorem Entry.NamesShaped.subset {es fs : List Entry} (h : NamesShaped es) (hfs : fs ⊆ es) :
    NamesShaped fs :=
  fun e he => h e (hfs he)

theorem SourceFile.namesShaped (o : Options) (source : Text) :
    Entry.NamesShaped ((ofSource o source).table.startingAt 0) := by
  intro e he hkind
  have htoken : e.toToken ∈ (lex o source).tokens := Entry.toToken_mem_of_mem_number he
  obtain ⟨before, fault, after, hpieces, -⟩ := mem_placed htoken
  rw [hkind] at hpieces
  exact .ofPiece (hpieces ▸ List.mem_append_right before List.mem_cons_self)

end PhpOutline
