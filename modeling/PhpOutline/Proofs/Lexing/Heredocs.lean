import PhpOutline.Proofs.Lexing.HeredocSyntax
import PhpOutline.Proofs.Lexing.Interpolation

/-!
# Heredocs in a source

Where three angle brackets stand in code, what follows decides whether a heredoc begins. If it does,
the token ends with the marker on the first line that closes it, or with the source where there is
no such line. Otherwise the first angle bracket is a sign of its own.

## Main definitions

* `CodePlace`: a place of a source in code at which a piece begins.

## Main statements

* `CodePlace.after_of_opensHeredoc`, `CodePlace.after_of_not_opensHeredoc`: the piece at three angle
  brackets.
* `CodePlace.lex_angles`: the token at three angle brackets.
-/

namespace PhpOutline

/-- A place of a source in code at which a piece begins. -/
structure CodePlace (o : Options) (source : Text) where
  /-- The pieces in front of the place. -/
  before : List Piece
  /-- The pieces from the place on. -/
  after : List Piece
  cut : pieces o.shortOpenTags (.initial o) (unmarked source) = before ++ after
  code : ∃ a, modeAfter (.initial o) before = .code a

/-- A heredoc is read where its opening line stands, and goes on to its end, if it has one. -/
theorem Lexeme.readHeredoc?_of_opensHeredoc {marker line : Text} (h : OpensHeredoc marker line)
    (body : Text) :
    readHeredoc? (line ++ body) = some (match heredocEnd? marker true body with
      | some n => .lexeme .string (2 + line.length + n)
      | none => .unterminated .string (.unterminatedHeredoc marker)) := by
  have hopen : heredocOpening? (line ++ body) = some (marker, body) :=
    heredocOpening?_eq_some_iff.2 ⟨line, rfl, h⟩
  cases hend : heredocEnd? marker true body with
  | some n => simp [readHeredoc?, hopen, hend]
  | none => simp [readHeredoc?, hopen, hend]

namespace CodePlace

open Lexeme

variable {o : Options} {source : Text} (x : CodePlace o source)

/-- A string that has its end stands at the place. -/
def HasString (text : Text) : Prop :=
  ∃ behind, x.after = .token .string text none :: behind ∧
    (lex o source).HasString x.before text none behind

/-- A sign that is one character stands at the place. -/
def HasSign (kind : Kind) (c : Char) : Prop :=
  (∃ behind, x.after = .token kind [c] none :: behind) ∧
    ⟨kind, [c], 1 + (textOf x.before).newlines, (textOf x.before).byteSize⟩ ∈ (lex o source).tokens

theorem hasString_of_after {text : Text} {behind : List Piece}
    (h : x.after = .token .string text none :: behind) : x.HasString text :=
  ⟨behind, h, hasString_of_pieces (h ▸ x.cut)⟩

theorem hasSign_of_after {kind : Kind} {c : Char} {behind : List Piece}
    (h : x.after = .token kind [c] none :: behind) : x.HasSign kind c := by
  refine ⟨⟨behind, h⟩, ?_⟩
  rw [lex, x.cut, h, placed_append, placed, Nat.zero_add]
  exact List.mem_append_right _ List.mem_cons_self

/-- The pieces from three angle brackets on. -/
theorem exists_after_eq {rest : Text} (h : textOf x.after = "<<<".toList ++ rest) :
    ∃ m, x.after = ((readHeredoc? rest).getD (.lexeme .other 0)).piece '<' ('<' :: '<' :: rest) ::
      pieces o.shortOpenTags m (('<' :: '<' :: rest).drop
        (((readHeredoc? rest).getD (.lexeme .other 0)).claims ('<' :: '<' :: rest))) := by
  obtain ⟨a, ha⟩ := x.code
  have hread : Lexeme.read o.shortOpenTags (.code a) '<' ('<' :: '<' :: rest) =
      (readHeredoc? rest).getD (.lexeme .other 0) := rfl
  have hafter := pieces_of_append x.cut
  rw [ha, h, show "<<<".toList ++ rest = '<' :: '<' :: '<' :: rest from rfl, pieces_cons,
    hread] at hafter
  exact ⟨_, hafter⟩

/-- A heredoc goes on to the end that the reader finds. -/
theorem after_of_heredocEnd? {marker line body : Text}
    (h : textOf x.after = "<<<".toList ++ (line ++ body)) (hline : OpensHeredoc marker line)
    {n : Nat}
    (hend : heredocEnd? marker true body = some n) :
    ∃ behind, x.after =
      .token .string ("<<<".toList ++ (line ++ body.take n)) none :: behind := by
  obtain ⟨m, hafter⟩ := x.exists_after_eq h
  have htake : List.take (2 + line.length + n) ('<' :: '<' :: (line ++ body)) =
      '<' :: '<' :: (line ++ body.take n) := by
    rw [Nat.add_assoc, Nat.add_comm 2, List.take_succ_cons, List.take_succ_cons,
      List.take_length_add_append]
  rw [readHeredoc?_of_opensHeredoc hline, hend, Option.getD_some, Reading.piece, htake] at hafter
  exact ⟨_, hafter⟩

/-- Where the reader finds no end, a heredoc is the last piece of the source. -/
theorem after_of_heredocEnd?_eq_none {marker line body : Text}
    (h : textOf x.after = "<<<".toList ++ (line ++ body)) (hline : OpensHeredoc marker line)
    (hend : heredocEnd? marker true body = none) :
    x.after = [.token .string ("<<<".toList ++ (line ++ body))
      (some (.unterminatedHeredoc marker))] := by
  obtain ⟨m, hafter⟩ := x.exists_after_eq h
  rw [readHeredoc?_of_opensHeredoc hline, hend, Option.getD_some, Reading.piece, Reading.claims,
    List.drop_length, pieces_nil] at hafter
  exact hafter

/-- Where no opening line follows, the first angle bracket stands for itself. -/
theorem after_of_not_opensHeredoc {rest : Text} (h : textOf x.after = "<<<".toList ++ rest)
    (hline : ∀ marker line body, rest = line ++ body → ¬ OpensHeredoc marker line) :
    ∃ behind, x.after = .token .other ['<'] none :: behind := by
  obtain ⟨m, hafter⟩ := x.exists_after_eq h
  have hopen : heredocOpening? rest = none := by
    rw [Option.eq_none_iff_forall_ne_some]
    rintro ⟨marker, body⟩ hsome
    obtain ⟨line, hrest, hopens⟩ := heredocOpening?_eq_some_iff.1 hsome
    exact hline marker line body hrest hopens
  rw [readHeredoc?, hopen] at hafter
  exact ⟨_, hafter⟩

/-- At three angle brackets in code: when an opening line of a heredoc follows, the token ends with
the marker on the first line that closes it, which there is if any line does. Without such a line it
takes the rest of the source, and the diagnostic names the marker and stands on the opening line.
When no opening line follows, the first angle bracket is a token of its own. -/
theorem lex_angles {rest : Text} (h : textOf x.after = "<<<".toList ++ rest) :
    (∀ marker line body, rest = line ++ body → OpensHeredoc marker line →
      (∀ lines indent behind, FirstCloses marker body lines indent behind →
        x.HasString ("<<<".toList ++ (line ++ (lines ++ (indent ++ marker))))) ∧
      ((∃ lines indent behind, ClosesHeredoc marker body lines indent behind) →
        ∃ lines indent behind, FirstCloses marker body lines indent behind) ∧
      ((∀ lines indent behind, ¬ ClosesHeredoc marker body lines indent behind) →
        x.after = [.token .string ("<<<".toList ++ rest) (some (.unterminatedHeredoc marker))] ∧
        (lex o source).HasString x.before ("<<<".toList ++ rest)
          (some (.unterminatedHeredoc marker)) [])) ∧
    ((∀ marker line body, rest = line ++ body → ¬ OpensHeredoc marker line) →
      x.HasSign .other '<') := by
  constructor
  · rintro marker line body rfl hline
    have hmarker := hline.isIdentifier
    refine ⟨?_, ?_, ?_⟩
    · intro lines indent behind hfirst
      obtain ⟨next, hafter⟩ := x.after_of_heredocEnd? h hline
        (heredocEnd?_of_firstCloses hmarker hfirst)
      have htake : body.take (lines ++ (indent ++ marker)).length =
          lines ++ (indent ++ marker) := by
        rw [hfirst.closes.body_eq]
        simp only [← List.append_assoc, List.take_left]
      rw [htake] at hafter
      exact x.hasString_of_after hafter
    · rintro ⟨lines, indent, behind, hcloses⟩
      cases hend : heredocEnd? marker true body with
      | none => exact absurd hcloses (not_closesHeredoc hmarker hend lines indent behind)
      | some n =>
        obtain ⟨lines', indent', behind', hfirst, -⟩ := exists_firstCloses hmarker hend
        exact ⟨lines', indent', behind', hfirst⟩
    · intro hnone
      cases hend : heredocEnd? marker true body with
      | none =>
        have hafter := x.after_of_heredocEnd?_eq_none h hline hend
        exact ⟨hafter, hasString_of_pieces (hafter ▸ x.cut)⟩
      | some n =>
        obtain ⟨lines, indent, behind, hfirst, -⟩ := exists_firstCloses hmarker hend
        exact absurd hfirst.closes (hnone lines indent behind)
  · intro hline
    obtain ⟨behind, hafter⟩ := x.after_of_not_opensHeredoc h hline
    exact x.hasSign_of_after hafter

end CodePlace

/-- A source with a heredoc whose marker begins a longer word on the line before the one that closes
it, and with a sign behind the marker there. -/
def heredocSource : Text := "<?php <<<\t\"E\"\r\nEX\n E;".toList

/-- The place of the heredoc. -/
def heredocPlace : CodePlace {} heredocSource where
  before := [.token .openTag "<?php ".toList none]
  after := [.token .string "<<<\t\"E\"\r\nEX\n E".toList none, .token .semicolon [';'] none]
  cut := by decide +kernel
  code := ⟨false, rfl⟩

/-- The heredoc ends with the marker on its second line. -/
theorem CodePlace.lex_angles_indented :
    textOf heredocPlace.after = "<<<".toList ++ "\t\"E\"\r\nEX\n E;".toList ∧
      Lexeme.OpensHeredoc ['E'] "\t\"E\"\r\n".toList ∧
      Lexeme.FirstCloses ['E'] "EX\n E;".toList "EX\n".toList [' '] [';'] ∧
      heredocPlace.HasString "<<<\t\"E\"\r\nEX\n E".toList := by
  have htext : textOf heredocPlace.after = "<<<".toList ++ "\t\"E\"\r\nEX\n E;".toList := rfl
  have hopens : Lexeme.OpensHeredoc ['E'] "\t\"E\"\r\n".toList :=
    ⟨['\t'], some '"', ['\r', '\n'], rfl, List.all_eq_true.1 rfl, by simp, rfl, .inr rfl⟩
  have hcloses : Lexeme.ClosesHeredoc ['E'] "EX\n E;".toList "EX\n".toList [' '] [';'] :=
    ⟨rfl, .inr rfl, List.all_eq_true.1 rfl, rfl⟩
  have hfirst := hcloses.firstCloses (by decide) (by decide)
  exact ⟨htext, hopens, hfirst,
    ((heredocPlace.lex_angles htext).1 _ _ _ rfl hopens).1 _ _ _ hfirst⟩

example : (lex {} "<?=<<<E\nEX\n".toList).diagnostics =
    [⟨.unterminatedHeredoc ['E'], 1⟩] := by
  decide +kernel

end PhpOutline
