import PhpOutline.Proofs.Discovery.OneType
import PhpOutline.Proofs.Lexing.CodeText

/-!
# A class with a given body

A source that is one class, given by the text between its braces. Where the pieces of the body are
known and properly nested, the class is found, and its members are read from these pieces.

## Main definitions

* `classSource`: the source of a class `A` with a body.

## Main statements

* `exists_oneType_classSource`: the tokens of the source are those of one class around the body.
-/

namespace PhpOutline

open Lexeme

/-- The source of a class `A` with the given text between its braces. -/
def classSource (body : Text) : Text := "<?php class A ".toList ++ '{' :: (body ++ ['}'])

/-- The pieces in front of the body. -/
def headerPieces : List Piece :=
  [.token .openTag "<?php ".toList none,
    .token (.keyword (.declares .plainClass)) "class".toList none,
    .token .whitespace " ".toList none,
    .token .name "A".toList none,
    .token .whitespace " ".toList none,
    .token (.opener .brace) ['{'] none]

/-- The brace behind the body. -/
def closerPiece : Piece := .token (.closer .brace) ['}'] none

theorem pieces_header (rest : Text) :
    pieces false .html ("<?php class A ".toList ++ '{' :: rest) =
      headerPieces ++ pieces false (.code false) rest := by
  have hsplit : "<?php class A ".toList ++ '{' :: rest =
      "<?php ".toList ++ ("class".toList ++ ' ' :: ("A".toList ++ ' ' :: '{' :: rest)) := by
    rfl
  have hclass : Keyword.ofWord? "class".toList = some (.declares .plainClass) := by decide
  have hname : Keyword.ofWord? "A".toList = none := by decide
  rw [hsplit, pieces_openTag, pieces_keyword (by decide) hclass (by simp) rfl,
    pieces_blank rfl rfl, pieces_word (by decide) rfl, wordKind_of_ofWord?_eq_none hname,
    pieces_blank rfl rfl, pieces_brace]
  rfl

theorem pieces_classSource {body : Text} {ps : List Piece}
    (h : pieces false (.code false) (body ++ ['}']) = ps ++ [closerPiece]) :
    pieces false .html (classSource body) = headerPieces ++ (ps ++ [closerPiece]) := by
  rw [← h]
  exact pieces_header _

/-- The table of a class with a body. -/
def classTable (body : Text) : TokenTable := (SourceFile.ofSource {} (classSource body)).table

theorem classTable_eq (body : Text) :
    classTable body = ⟨classSource body, placed 1 0 (pieces false .html (classSource body))⟩ := by
  have hmark : unmarked (classSource body) = classSource body := by rfl
  simp only [classTable, SourceFile.ofSource, lex, hmark]
  rfl

section

variable {body : Text} {ps : List Piece}

theorem faultless_classSource (hf : Faultless ps) :
    Faultless (headerPieces ++ (ps ++ [closerPiece])) := by
  have hheader : Faultless headerPieces := by
    intro p hp
    simp only [headerPieces, List.mem_cons, List.not_mem_nil, or_false] at hp
    rcases hp with rfl | rfl | rfl | rfl | rfl | rfl <;> rfl
  exact hheader.append (hf.append (.cons rfl .nil))

variable (h : pieces false (.code false) (body ++ ['}']) = ps ++ [closerPiece])
  (hf : Faultless ps)

include h hf

theorem isGapless_classTable : (classTable body).IsGapless := by
  have hpieces := pieces_classSource h
  have hgapless := isGapless_of_faultless (faultless_classSource hf) 1
  rw [← hpieces, textOf_pieces] at hgapless
  rw [classTable_eq]
  exact hgapless

theorem map_piece_classTable :
    (classTable body).tokens.map Token.piece = headerPieces ++ (ps ++ [closerPiece]) := by
  rw [classTable_eq, pieces_classSource h]
  exact map_piece_placed (faultless_classSource hf)

/-- The tokens of the source are those of one class around the body. -/
theorem exists_oneType_classSource (hn : Nested (fun _ => True) (kindsOf ps)) :
    ∃ f : OneType (classTable body), f.kind = .plainClass ∧ f.body.map Token.piece = ps ∧
      (SourceFile.ofSource {} (classSource body)).type "A".toList = .ok f.read := by
  have htokens := map_piece_classTable h hf
  simp only [headerPieces, List.cons_append, List.nil_append] at htokens
  obtain ⟨tag, rest, htokens₁, htag, -, hrest⟩ := exists_cons_of_map_piece htokens
  obtain ⟨word, rest, rfl, hword, -, hrest⟩ := exists_cons_of_map_piece hrest
  obtain ⟨gap₁, rest, rfl, hgap₁, -, hrest⟩ := exists_cons_of_map_piece hrest
  obtain ⟨name, rest, rfl, hname, htext, hrest⟩ := exists_cons_of_map_piece hrest
  obtain ⟨gap₂, rest, rfl, hgap₂, -, hrest⟩ := exists_cons_of_map_piece hrest
  obtain ⟨opener, rest, rfl, hopener, -, hrest⟩ := exists_cons_of_map_piece hrest
  obtain ⟨inside, rest, rfl, hinside, hrest⟩ := List.map_eq_append_iff.1 hrest
  obtain ⟨closer, rest, rfl, hcloser, -, hrest⟩ := exists_cons_of_map_piece hrest
  obtain rfl := List.map_eq_nil_iff.1 hrest
  let f : OneType (classTable body) :=
    { tag, word, gap₁, name, gap₂, opener, body := inside, closer, kind := .plainClass
      tokens_eq := htokens₁
      tag_kind := by rw [htag]; rfl
      word_kind := hword
      gap₁_kind := by rw [hgap₁]; rfl
      name_kind := hname
      gap₂_kind := by rw [hgap₂]; rfl
      opener_kind := hopener
      closer_kind := hcloser
      nested := by rw [← kindsOf_map_piece, hinside]; exact hn }
  refine ⟨f, rfl, hinside, ?_⟩
  have hfound := f.type_eq (by rw [show f.name.text = "A".toList from htext]; rfl)
    (SourceFile.ofSource {} (classSource body)).diagnostics
  rw [show f.name.text = "A".toList from htext] at hfound
  exact hfound

end

end PhpOutline
