import Mathlib.Data.List.Forall2
import PhpOutline.Proofs.Declaration.ClassSource
import PhpOutline.Proofs.Declaration.Lead

/-!
# Class bodies, line by line

A class whose body is written in lines is found, and where every line is taken as one member, its
members are those of the lines.

## Main definitions

* `LineSyntax.bodyText`: the body of a class in lines.
* `Member.Takes`: the pass over a body takes some tokens as one member.

## Main statements

* `LineSyntax.pieces_bodyText`: the pieces of a body in lines.
* `LineSyntax.forall₂_sweep`: the pass over the lines.
* `LineSyntax.forall₂_members`: the members of a class with a body in lines.
-/

namespace PhpOutline

open Lexeme

namespace LineSyntax

variable {α : Type} (L : LineSyntax α)

/-- The text between the braces: a new line, then the lines. -/
def bodyText (as : List α) : Text := '\n' :: L.lines as

theorem pieces_bodyText (as : List α) :
    PhpOutline.pieces false (.code false) (L.bodyText as ++ ['}']) =
      (newlinePiece :: L.linePieces as) ++ [closerPiece] := by
  have hspace : startsWith isSpace ['}'] = false := rfl
  have hcloser : PhpOutline.pieces false (.code false) ['}'] = [closerPiece] := pieces_fence rfl []
  rw [← hcloser, List.cons_append, ← L.pieces_lines as hspace]
  exact pieces_blank rfl (L.startsWith_isSpace_lines as hspace)

theorem nested_linePieces (h : ∀ a, Nested (fun _ => True) (kindsOf (L.pieces a))) (as : List α) :
    Nested (fun _ => True) (kindsOf (L.linePieces as)) := by
  induction as with
  | nil => exact .nil
  | cons a as ih =>
    rw [linePieces_cons, kindsOf_append, newlinePiece, kindsOf_token]
    exact (h a).append (.plain trivial rfl rfl ih)

end LineSyntax

/-- The pass over the body takes the tokens `ts`, of which the first has place `i`, as one member,
and goes on behind them in the state it began with. -/
def Member.Takes (t : TokenTable) (stop i : Nat) (ts : List Token) (member : Member) : Prop :=
  ∀ rest, sweep (step t {} stop) none 0 (Entry.number i (ts ++ rest)) =
    member :: sweep (step t {} stop) none 0 (Entry.number (i + ts.length) rest)

namespace LineSyntax

variable {α : Type} (L : LineSyntax α) {t : TokenTable} {stop : Nat} {R : α → Member → Prop}

/-- The pass over the body takes every line as one member, which is related to the line. -/
def Taken (t : TokenTable) (stop : Nat) (R : α → Member → Prop) : Prop :=
  ∀ {before ts after : List Token} (a : α), t.tokens = before ++ (ts ++ after) →
    ts.map Token.piece = L.pieces a → before.length + ts.length ≤ stop →
      ∃ member, R a member ∧ member.Takes t stop before.length ts

variable {L}

/-- The pass over the lines gives the members, one for each line. -/
theorem forall₂_sweep (htaken : L.Taken t stop R) {before after ts : List Token} {as : List α}
    (hts : ts.map Token.piece = L.linePieces as) (h : t.tokens = before ++ (ts ++ after))
    (hstop : before.length + ts.length ≤ stop) :
    List.Forall₂ R as
      (sweep (Member.step t {} stop) none 0 (Entry.number before.length ts)) := by
  -- behind every line the pass is in its first state again, so only the place changes
  induction as generalizing before ts with
  | nil =>
    obtain rfl := List.map_eq_nil_iff.1 hts
    exact .nil
  | cons a as ih =>
    rw [linePieces_cons] at hts
    obtain ⟨line, rest, rfl, hline, hrest⟩ := List.map_eq_append_iff.1 hts
    obtain ⟨newline, rest, rfl, hnewline, -, hrest⟩ := exists_cons_of_map_piece hrest
    have hlength : before.length + (line ++ newline :: rest).length =
        before.length + line.length + 1 + rest.length := by
      simp only [List.length_append, List.length_cons]
      omega
    have hfirst : t.tokens = before ++ (line ++ (newline :: rest ++ after)) := by
      simp [h]
    have htail : t.tokens = (before ++ line ++ [newline]) ++ (rest ++ after) := by
      simp [h]
    obtain ⟨member, hmember, htakes⟩ := htaken a hfirst hline (by omega)
    have hlast : (before ++ line ++ [newline]).length + rest.length ≤ stop := by
      simp only [List.length_append, List.length_singleton]
      omega
    have hmembers := ih hrest htail hlast
    rw [htakes (newline :: rest), Member.sweep_whitespace hnewline]
    refine .cons hmember ?_
    simpa [Nat.add_assoc] using hmembers

/-- The members of a class with a body in lines are those of the lines. -/
theorem forall₂_members (f : OneType t) (htaken : L.Taken t f.last R) {as : List α}
    (hbody : f.body.map Token.piece = newlinePiece :: L.linePieces as) :
    List.Forall₂ R as f.members := by
  obtain ⟨newline, rest, hrest, hnewline, -, hlines⟩ := exists_cons_of_map_piece hbody
  have htokens : t.tokens = [f.tag, f.word, f.gap₁, f.name, f.gap₂, f.opener, newline] ++
      (rest ++ [f.closer]) := by
    simp [f.tokens_eq, hrest]
  have hstop : [f.tag, f.word, f.gap₁, f.name, f.gap₂, f.opener, newline].length + rest.length ≤
      f.last := by
    simp only [OneType.last, hrest, List.length_cons, List.length_nil]
    omega
  rw [OneType.members, hrest, Member.sweep_whitespace hnewline]
  exact forall₂_sweep htaken hlines htokens hstop

end LineSyntax

end PhpOutline
