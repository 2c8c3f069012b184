import PhpOutline.Proofs.Declaration.MemberSyntax

/-!
# Items of a file as they are written

The syntax of what stands at the top level of a file: namespaces, imports, types and functions, with
parameter lists and bodies as plain texts. Each part carries the proof that it is well formed. An
item is written on a line, and that line is cut into exactly the pieces that belong to it.

## Main definitions

* `PlainName`, `QualifiedName`, `TypeWord`: the parts of an item.
* `TypeSyntax`, `FunctionSyntax`, `Item`: items, each with its text and its pieces.
* `fileSource`: a file with one item on each line.

## Main statements

* `QualifiedName.pieces_text`: a name of several segments is one token.
* `Item.pieces_render`: the text of an item is cut into its pieces, whatever follows it.
* `pieces_fileSource`: the pieces of a file.
-/

namespace PhpOutline

open Lexeme

/-! ## Parts of an item -/

/-- An identifier that is no keyword. -/
structure PlainName extends Identifier where
  plain : Keyword.ofWord? text = none

/-- A name of one or more segments, with no backslash in front. A name of one segment is no
keyword. -/
structure QualifiedName where
  head : Identifier
  tail : List Identifier
  plain : tail = [] → Keyword.ofWord? head.text = none

/-- The word for a kind of type, in any case. -/
structure TypeWord where
  text : Text
  kind : TypeKind
  spells : Keyword.ofWord? text = some (.declares kind)

/-- Segments, each behind a backslash. -/
def renderSegments (ns : List Identifier) : Text := ns.flatMap fun n => '\\' :: n.text

/-- The name as it is written. -/
def QualifiedName.text (n : QualifiedName) : Text := n.head.text ++ renderSegments n.tail

/-- A namespace as it begins. -/
structure NamespaceSyntax where
  name : QualifiedName

/-- An import of a name under an alias. -/
structure ImportSyntax where
  name : QualifiedName
  key : PlainName

/-- A type as it is written. -/
structure TypeSyntax where
  modifiers : List ModifierWord
  leading : ∀ w ∈ modifiers,
    w.modifier = .abstract ∨ w.modifier = .final ∨ w.modifier = .readonly
  word : TypeWord
  name : PlainName
  body : BlockText

/-- A function as it is written. -/
structure FunctionSyntax where
  name : PlainName
  parameters : BlockText
  body : BlockText

/-- What stands at the top level of a file. -/
inductive Item where
  | enters (n : NamespaceSyntax)
  | imports (i : ImportSyntax)
  | type (t : TypeSyntax)
  | function (f : FunctionSyntax)

/-- A function is written like a method without modifiers. -/
def FunctionSyntax.method (f : FunctionSyntax) : MethodSyntax where
  modifiers := []
  name := f.name.toIdentifier
  parameters := f.parameters
  body := some f.body

/-- The text of a namespace. -/
def NamespaceSyntax.render (n : NamespaceSyntax) : Text :=
  "namespace".toList ++ ' ' :: (n.name.text ++ [';'])

/-- The text of an import. -/
def ImportSyntax.render (i : ImportSyntax) : Text :=
  "use".toList ++ ' ' :: (i.name.text ++ ' ' :: ("as".toList ++ ' ' :: (i.key.text ++ [';'])))

/-- The text of a type. -/
def TypeSyntax.render (t : TypeSyntax) : Text :=
  renderModifiers t.modifiers ++ (t.word.text ++ ' ' :: (t.name.text ++ ' ' :: '{' ::
    (t.body.text ++ ['}'])))

/-- The pieces of a namespace. -/
def NamespaceSyntax.pieces (n : NamespaceSyntax) : List Piece :=
  [.token (.keyword .namespaceWord) "namespace".toList none, .token .whitespace " ".toList none,
    .token .name n.name.text none, .token .semicolon ";".toList none]

/-- The pieces of an import. -/
def ImportSyntax.pieces (i : ImportSyntax) : List Piece :=
  [.token (.keyword .use) "use".toList none, .token .whitespace " ".toList none,
    .token .name i.name.text none, .token .whitespace " ".toList none,
    .token .name "as".toList none, .token .whitespace " ".toList none,
    .token .name i.key.text none, .token .semicolon ";".toList none]

/-- The pieces of a type. -/
def TypeSyntax.pieces (t : TypeSyntax) : List Piece :=
  modifierPieces t.modifiers ++ .token (.keyword (.declares t.word.kind)) t.word.text none ::
    .token .whitespace " ".toList none :: .token .name t.name.text none ::
    .token .whitespace " ".toList none :: .token (.opener .brace) ['{'] none ::
    (codePieces t.body.text ++ [.token (.closer .brace) ['}'] none])

namespace Item

/-- The item as it is written. -/
def render : Item → Text
  | enters n => n.render
  | imports i => i.render
  | type t => t.render
  | function f => f.method.render

/-- The pieces of the item. -/
def pieces : Item → List Piece
  | enters n => n.pieces
  | imports i => i.pieces
  | type t => t.pieces
  | function f => f.method.pieces

end Item

/-! ## Names -/

/-- A name goes on over further segments. -/
theorem nameTail_renderSegments_append (ns : List Identifier) (rest : Text) :
    nameTail (renderSegments ns ++ rest) = (renderSegments ns).length + nameTail rest := by
  induction ns with
  | nil => simp [renderSegments]
  | cons n ns ih =>
    obtain ⟨c, r, htext, hc, hr⟩ := exists_cons_of_isIdentifier n.isIdentifier
    have hsplit : renderSegments (n :: ns) ++ rest =
        '\\' :: (n.text ++ (renderSegments ns ++ rest)) := by
      simp [renderSegments]
    have hstart : startsWith isIdentStart (n.text ++ (renderSegments ns ++ rest)) = true := by
      rw [htext]
      exact hc
    have hslash : isIdentChar '\\' = false := by decide
    have htail := @nameTail_append n.text (fun c => isIdentChar_of_mem n.isIdentifier)
      (renderSegments ns ++ rest)
    have hlength : (renderSegments (n :: ns)).length =
        n.text.length + (renderSegments ns).length + 1 := by
      simp [renderSegments]
    rw [hsplit, nameTail, hslash, hlength]
    simp only [Bool.false_eq_true, if_false, beq_self_eq_true, if_true, hstart, htail, ih]
    omega

theorem nameTail_renderSegments (ns : List Identifier) {rest : Text}
    (hrest : startsWith continuesWord rest = false) :
    nameTail (renderSegments ns ++ rest) = (renderSegments ns).length := by
  rw [nameTail_renderSegments_append, nameTail_eq_zero hrest, Nat.add_zero]

namespace QualifiedName

/-- A name is no keyword, whatever its segments are. -/
theorem wordKind_text (n : QualifiedName) (rest : Text) : wordKind false n.text rest = .name := by
  cases htail : n.tail with
  | nil =>
    have htext : n.text = n.head.text := by simp [text, htail, renderSegments]
    rw [htext]
    exact wordKind_of_ofWord?_eq_none (n.plain htail) false rest
  | cons m ms =>
    have hslash : n.text.contains '\\' = true := by
      simp [text, htail, renderSegments]
    rw [wordKind, hslash]
    rfl

/-- A name of several segments is one token. -/
theorem pieces_text (n : QualifiedName) {rest : Text}
    (hrest : startsWith continuesWord rest = false) :
    pieces false (.code false) (n.text ++ rest) =
      .token .name n.text none :: pieces false (.code false) rest := by
  obtain ⟨c, r, hhead, hc, hr⟩ := exists_cons_of_isIdentifier n.head.isIdentifier
  have htext : n.text = c :: (r ++ renderSegments n.tail) := by
    rw [text, hhead, List.cons_append]
  have htail : nameTail (r ++ renderSegments n.tail ++ rest) =
      (r ++ renderSegments n.tail).length := by
    rw [List.append_assoc, nameTail_append hr, nameTail_renderSegments n.tail hrest,
      List.length_append]
  have hkind := n.wordKind_text rest
  have hread : Lexeme.read false (.code false) c (r ++ renderSegments n.tail ++ rest) =
      .lexeme .name (r ++ renderSegments n.tail).length := by
    rw [htext] at hkind
    simp only [Lexeme.read, readCode, isSpace_of_isIdentStart hc, hc, readName, htail,
      List.take_left, List.drop_left, hkind, Bool.false_eq_true, if_false, if_true]
  rw [htext, List.cons_append, pieces_of_read hread]
  rfl

/-- A name has no backslash in front. -/
theorem stripAll_text (n : QualifiedName) : n.text.stripAll '\\' = n.text := by
  obtain ⟨c, r, hhead, hc, -⟩ := exists_cons_of_isIdentifier n.head.isIdentifier
  have hne : c ≠ '\\' := by
    rintro rfl
    revert hc
    decide
  rw [Text.stripAll, text, hhead, List.cons_append, List.dropWhile_cons_of_neg (by simpa using hne)]

/-- A name has no backslash at its end. -/
theorem getLast?_text_ne (n : QualifiedName) : n.text.getLast? ≠ some '\\' := by
  have hword : ∀ w : Identifier, w.text.getLast? ≠ some '\\' := by
    intro w h
    have := isIdentChar_of_mem w.isIdentifier (List.mem_of_getLast? h)
    revert this
    decide
  have happend : ∀ (w : Identifier) (s : Text), s.getLast? ≠ some '\\' →
      (w.text ++ s).getLast? ≠ some '\\' := by
    intro w s hs
    rw [List.getLast?_append]
    cases h : s.getLast? with
    | none => simpa using hword w
    | some d => simpa [h] using hs
  have htail : ∀ ns : List Identifier, (renderSegments ns).getLast? ≠ some '\\' := by
    intro ns
    induction ns with
    | nil => simp [renderSegments]
    | cons w ns ih =>
      obtain ⟨c, r, htext, -, -⟩ := exists_cons_of_isIdentifier w.isIdentifier
      have hsplit : renderSegments (w :: ns) = '\\' :: (w.text ++ renderSegments ns) := by
        simp [renderSegments]
      have hlast : ('\\' :: (w.text ++ renderSegments ns)).getLast? =
          (w.text ++ renderSegments ns).getLast? := by
        rw [htext]
        rfl
      rw [hsplit, hlast]
      exact happend w _ ih
  exact happend n.head _ (htail n.tail)

theorem startsWith_isSpace_text (n : QualifiedName) (rest : Text) :
    startsWith isSpace (n.text ++ rest) = false := by
  rw [text, List.append_assoc]
  exact startsWith_isSpace_of_isIdentifier n.head.isIdentifier _

end QualifiedName

theorem PlainName.kind_eq (n : PlainName) : n.kind = .name :=
  wordKind_of_ofWord?_eq_none n.plain false []

theorem PlainName.pieces_text (n : PlainName) {rest : Text}
    (hrest : startsWith continuesWord rest = false) :
    pieces false (.code false) (n.text ++ rest) =
      .token .name n.text none :: pieces false (.code false) rest := by
  rw [pieces_word n.isIdentifier hrest, wordKind_of_ofWord?_eq_none n.plain]

/-! ## Words for types -/

/-- A name that is no keyword makes the word `enum` in front of it one. -/
theorem enumFollows_plainName (n : PlainName) (rest : Text) :
    enumFollows (' ' :: (n.text ++ ' ' :: rest)) = true := by
  obtain ⟨c, r, htext, hc, hr⟩ := exists_cons_of_isIdentifier n.isIdentifier
  have hgap : isGap c = false := by
    have := isSpace_of_isIdentStart hc
    simp only [isSpace, Bool.or_eq_false_iff] at this
    simp [isGap, isIndent, this]
  have hdrop : (' ' :: (n.text ++ ' ' :: rest)).dropWhile isGap = n.text ++ ' ' :: rest := by
    rw [List.dropWhile_cons_of_pos (by decide), htext, List.cons_append,
      List.dropWhile_cons_of_neg (by simp [hgap])]
  have hident : identAt (n.text ++ ' ' :: rest) = n.text := by
    have hall : ∀ d ∈ n.text, isIdentChar d = true := fun d hd =>
      isIdentChar_of_mem n.isIdentifier hd
    rw [identAt, List.takeWhile_append_of_pos hall, List.takeWhile_cons_of_neg (by decide),
      List.append_nil]
  have hnot : ∀ k : Keyword, n.text.lower ≠ k.spelling := by
    intro k hk
    have := Keyword.ofWord?_eq_some_iff.2 hk
    rw [n.plain] at this
    cases this
  have hextends : n.text.sameWord "extends".toList = false := by
    rw [Text.sameWord, beq_eq_false_iff_ne]
    exact hnot .extendsWord
  have himplements : n.text.sameWord "implements".toList = false := by
    rw [Text.sameWord, beq_eq_false_iff_ne]
    exact hnot .implementsWord
  have hstart : startsWith isIdentStart (n.text ++ ' ' :: rest) = true := by
    rw [htext]
    exact hc
  simp only [enumFollows, hdrop, hident, hstart, hextends, himplements]
  rfl

/-- The word for a type in front of its name. -/
theorem TypeWord.pieces_text (w : TypeWord) (n : PlainName) (rest : Text) :
    pieces false (.code false) (w.text ++ ' ' :: (n.text ++ ' ' :: rest)) =
      .token (.keyword (.declares w.kind)) w.text none ::
        pieces false (.code false) (' ' :: (n.text ++ ' ' :: rest)) := by
  have hword := Keyword.isIdentifier_of_ofWord? w.spells
  by_cases hk : w.kind = .enumeration
  · rw [pieces_word hword rfl, wordKind, contains_backslash_eq_false hword, w.spells, hk]
    simp [enumFollows_plainName]
  · exact pieces_keyword hword w.spells (by simpa using hk) rfl

/-! ## The pieces of the text -/

theorem NamespaceSyntax.pieces_render (n : NamespaceSyntax) (rest : Text) :
    PhpOutline.pieces false (.code false) (n.render ++ rest) =
      n.pieces ++ PhpOutline.pieces false (.code false) rest := by
  have hline : ∀ word : Text, Keyword.ofWord? word = some .namespaceWord →
      PhpOutline.pieces false (.code false) (word ++ ' ' :: (n.name.text ++ [';']) ++ rest) =
        .token (.keyword .namespaceWord) word none :: .token .whitespace " ".toList none ::
          .token .name n.name.text none :: .token .semicolon ";".toList none ::
          PhpOutline.pieces false (.code false) rest := by
    intro word hword
    have hsplit : word ++ ' ' :: (n.name.text ++ [';']) ++ rest =
        word ++ ' ' :: (n.name.text ++ ';' :: rest) := by
      simp
    rw [hsplit, pieces_keyword (Keyword.isIdentifier_of_ofWord? hword) hword (by simp) rfl,
      pieces_blank rfl (n.name.startsWith_isSpace_text _), n.name.pieces_text rfl,
      pieces_fence rfl]
    rfl
  exact hline _ (by decide)

theorem ImportSyntax.pieces_render (i : ImportSyntax) (rest : Text) :
    PhpOutline.pieces false (.code false) (i.render ++ rest) =
      i.pieces ++ PhpOutline.pieces false (.code false) rest := by
  have hsplit : ∀ word as : Text, word ++ ' ' :: (i.name.text ++ ' ' :: (as ++ ' ' ::
      (i.key.text ++ [';']))) ++ rest =
        word ++ ' ' :: (i.name.text ++ ' ' :: (as ++ ' ' :: (i.key.text ++ ';' :: rest))) := by
    intro word as
    simp
  have hword : Keyword.ofWord? "use".toList = some .use := by decide
  have has : Keyword.ofWord? "as".toList = none := by decide
  rw [render, hsplit, pieces_keyword (by decide) hword (by simp) rfl,
    pieces_blank rfl (i.name.startsWith_isSpace_text _), i.name.pieces_text rfl,
    pieces_blank rfl rfl, pieces_word (by decide) rfl, wordKind_of_ofWord?_eq_none has,
    pieces_blank rfl (startsWith_isSpace_of_isIdentifier i.key.isIdentifier _),
    i.key.pieces_text rfl, pieces_fence rfl]
  rfl

theorem TypeSyntax.pieces_render (t : TypeSyntax) (rest : Text) :
    PhpOutline.pieces false (.code false) (t.render ++ rest) =
      t.pieces ++ PhpOutline.pieces false (.code false) rest := by
  have hsplit : t.render ++ rest = renderModifiers t.modifiers ++ (t.word.text ++ ' ' ::
      (t.name.text ++ ' ' :: '{' :: (t.body.text ++ '}' :: rest))) := by
    simp [render]
  have hword := startsWith_isSpace_of_isIdentifier (Keyword.isIdentifier_of_ofWord? t.word.spells)
    (' ' :: (t.name.text ++ ' ' :: '{' :: (t.body.text ++ '}' :: rest)))
  rw [hsplit, pieces_renderModifiers _ hword, t.word.pieces_text,
    pieces_blank rfl (startsWith_isSpace_of_isIdentifier t.name.isIdentifier _),
    t.name.pieces_text rfl, pieces_blank rfl rfl, pieces_brace,
    pieces_contained t.body.isContained rfl]
  simp [pieces, plainSign]

namespace Item

/-- The text of an item is cut into its pieces, whatever follows it. -/
theorem pieces_render (i : Item) (rest : Text) :
    PhpOutline.pieces false (.code false) (i.render ++ rest) =
      i.pieces ++ PhpOutline.pieces false (.code false) rest := by
  cases i with
  | enters n => exact n.pieces_render rest
  | imports i => exact i.pieces_render rest
  | type t => exact t.pieces_render rest
  | function f => exact f.method.pieces_render rest

/-- An item does not begin with white space. -/
theorem startsWith_isSpace_render (i : Item) (rest : Text) :
    startsWith isSpace (i.render ++ rest) = false := by
  cases i with
  | enters n => rfl
  | imports i => rfl
  | type t =>
    rw [render, TypeSyntax.render, List.append_assoc]
    refine startsWith_isSpace_renderModifiers _ ?_
    rw [List.append_assoc]
    exact startsWith_isSpace_of_isIdentifier (Keyword.isIdentifier_of_ofWord? t.word.spells) _
  | function f => exact (MemberSyntax.method f.method).startsWith_isSpace_render rest

end Item

theorem Item.faultless_pieces (i : Item) : Faultless i.pieces := by
  cases i with
  | enters n => exact .cons rfl (.cons rfl (.cons rfl (.cons rfl .nil)))
  | imports i =>
    exact .cons rfl (.cons rfl (.cons rfl (.cons rfl (.cons rfl (.cons rfl (.cons rfl
      (.cons rfl .nil)))))))
  | type t =>
    exact (faultless_modifierPieces _).append (.cons rfl (.cons rfl (.cons rfl (.cons rfl
      (.cons rfl (t.body.isContained.faultless.append (.cons rfl .nil)))))))
  | function f => exact f.method.faultless_pieces

/-! ## Files -/

/-- Items as lines. -/
def itemLines : LineSyntax Item where
  render := Item.render
  pieces := Item.pieces
  pieces_render := Item.pieces_render
  startsWith_isSpace := Item.startsWith_isSpace_render
  faultless := Item.faultless_pieces

/-- A file with one item on each line. -/
def fileSource (items : List Item) : Text := "<?php\n".toList ++ itemLines.lines items

/-- The pieces of a file. -/
theorem pieces_fileSource (items : List Item) :
    pieces false .html (fileSource items) =
      .token .openTag "<?php\n".toList none :: itemLines.linePieces items := by
  have hspace : startsWith isSpace [] = false := rfl
  have hlines := itemLines.pieces_lines items hspace
  rw [List.append_nil, pieces_nil, List.append_nil] at hlines
  rw [← hlines]
  exact pieces_of_read (s := "?php\n".toList) (by rfl)

end PhpOutline
