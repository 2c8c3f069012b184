import PhpOutline.Proofs.Discovery.ItemEvents

/-!
# Use statements as they are written

The syntax of use statements: lists of names, groups of names behind a common stem, and statements
about functions and constants. Each part carries the proof that it is well formed, and the text of a
statement is cut into exactly the pieces that belong to it.

## Main definitions

* `RootedName`, `OtherWord`, `UseClause`: the parts of a statement.
* `UseStatement`: a statement, with its text and its pieces.
* `IsUseBody`: what is needed of the text between `use` and the semicolon.

## Main statements

* `RootedName.pieces_text`, `RootedName.pieces_stem`: a name, and the stem of a group.
* `UseStatement.isUseBody`: a statement is cut into its pieces.
-/

namespace PhpOutline

open Lexeme

/-! ## Parts of a statement -/

/-- A name, with or without a backslash in front. -/
structure RootedName where
  rooted : Bool
  name : QualifiedName

/-- The word that stands in front of what names no class, in any case. -/
structure OtherWord where
  text : Text
  keyword : Keyword
  spells : Keyword.ofWord? text = some keyword
  isOther : keyword = .function ∨ keyword = .const

/-- One of the names of a statement, with its alias, if it has one. In a group, it may name a
function or a constant. -/
structure UseClause where
  word : Option OtherWord
  name : RootedName
  key : Option PlainName

/-- A statement about functions or constants, without the word `use` and its semicolon. -/
structure OtherText where
  text : Text
  isContained : IsContained text
  isOther : (kindsOf (codePieces text)).head? = some (.keyword .function) ∨
    (kindsOf (codePieces text)).head? = some (.keyword .const)
  one : .semicolon ∉ kindsOf (codePieces text)

/-- A use statement. -/
inductive UseStatement where
  /-- Names, the first of which is that of a class. -/
  | names (first : UseClause) (others : List UseClause) (isClass : first.word = none)
  /-- A group of names behind a stem, with or without a comma behind the last of them. -/
  | group (stem : RootedName) (first : UseClause) (others : List UseClause) (comma : Bool)
  | other (body : OtherText)

/-- The name as it is written. -/
def RootedName.text (n : RootedName) : Text := (if n.rooted then ['\\'] else []) ++ n.name.text

/-- The word with a blank behind it, where there is one. -/
def renderWord : Option OtherWord → Text
  | none => []
  | some w => w.text ++ [' ']

/-- An alias behind the word `as`, where there is one. -/
def renderKey : Option PlainName → Text
  | none => []
  | some a => " as ".toList ++ a.text

/-- The text of a clause. -/
def UseClause.render (c : UseClause) : Text := renderWord c.word ++ (c.name.text ++ renderKey c.key)

/-- Clauses with commas between them. -/
def renderClauses (first : UseClause) (others : List UseClause) : Text :=
  first.render ++ others.flatMap fun c => ", ".toList ++ c.render

/-- The pieces of the word in front of a name. -/
def wordPieces : Option OtherWord → List Piece
  | none => []
  | some w => [.token (.keyword w.keyword) w.text none, .token .whitespace " ".toList none]

/-- The pieces of an alias. -/
def keyPieces : Option PlainName → List Piece
  | none => []
  | some a => [.token .whitespace " ".toList none, .token .name "as".toList none,
      .token .whitespace " ".toList none, .token .name a.text none]

/-- The pieces of a clause with the name `text`. -/
def piecesOfClause (word : Option OtherWord) (text : Text) (key : Option PlainName) : List Piece :=
  wordPieces word ++ .token .name text none :: keyPieces key

def UseClause.pieces (c : UseClause) : List Piece := piecesOfClause c.word c.name.text c.key

/-- A comma. -/
def commaPiece : Piece := .token .comma ",".toList none

/-- The pieces of clauses with commas between them. -/
def clausePieces (first : UseClause) (others : List UseClause) : List Piece :=
  first.pieces ++ others.flatMap fun c =>
    commaPiece :: .token .whitespace " ".toList none :: c.pieces

namespace UseStatement

/-- What stands between the word `use` and the semicolon. -/
def body : UseStatement → Text
  | names first others _ => renderClauses first others
  | group stem first others comma => stem.text ++ '\\' :: '{' ::
      (renderClauses first others ++ ((if comma then [','] else []) ++ ['}']))
  | other b => b.text

/-- The statement as it is written. -/
def render (s : UseStatement) : Text := "use".toList ++ ' ' :: (s.body ++ [';'])

/-- The pieces of what stands between the word `use` and the semicolon. -/
def bodyPieces : UseStatement → List Piece
  | names first others _ => clausePieces first others
  | group stem first others comma => .token .name (stem.text ++ ['\\']) none ::
      .token (.opener .brace) ['{'] none ::
      (clausePieces first others ++ ((if comma then [commaPiece] else []) ++
        [.token (.closer .brace) ['}'] none]))
  | other b => codePieces b.text

end UseStatement

/-- A text that, between the word `use` and a semicolon, is cut into the pieces `ps`. -/
structure IsUseBody (body : Text) (ps : List Piece) : Prop where
  tight : startsWith isSpace (body ++ [';']) = false
  pieces : pieces false (.code false) (body ++ [';']) =
    ps ++ [.token .semicolon ";".toList none]
  faultless : Faultless ps
  one : .semicolon ∉ kindsOf ps

/-! ## Names -/

theorem QualifiedName.nameTail_text (n : QualifiedName) (rest : Text) :
    nameTail (n.text ++ rest) = n.text.length + nameTail rest := by
  have hhead := fun c => @isIdentChar_of_mem _ n.head.isIdentifier c
  rw [text, List.append_assoc, nameTail_append hhead, nameTail_renderSegments_append,
    List.length_append, Nat.add_assoc]

/-- A text that begins as a name, goes on to its end and is no keyword is one token. -/
theorem pieces_of_beginsName {c : Char} {s rest : Text} (hbegins : BeginsName c s)
    (hend : nameTail (s ++ rest) = s.length) (hkind : wordKind false (c :: s) rest = .name) :
    pieces false (.code false) (c :: s ++ rest) =
      .token .name (c :: s) none :: pieces false (.code false) rest := by
  refine pieces_of_read ?_
  change readCode false c (s ++ rest) = _
  rw [readCode_of_beginsName (hbegins.append rest), readName, hend, List.take_left, List.drop_left,
    hkind]

namespace RootedName

/-- A name begins as one, and goes on to its end. -/
theorem exists_cons (n : RootedName) : ∃ c s, n.text = c :: s ∧ BeginsName c s ∧
    ∀ rest, nameTail (s ++ rest) = s.length + nameTail rest := by
  obtain ⟨c, r, hhead, hc, -⟩ := exists_cons_of_isIdentifier n.name.head.isIdentifier
  have hname : n.name.text = c :: (r ++ renderSegments n.name.tail) := by
    rw [QualifiedName.text, hhead, List.cons_append]
  cases hroot : n.rooted with
  | false =>
    refine ⟨c, r ++ renderSegments n.name.tail, ?_, .inl hc, ?_⟩
    · rw [text, hroot, hname]
      rfl
    · intro rest
      have htail := n.name.nameTail_text rest
      have hident : isIdentChar c = true := by simp [isIdentChar, hc]
      rw [hname, List.cons_append, nameTail, if_pos hident, List.length_cons] at htail
      omega
  | true =>
    refine ⟨'\\', n.name.text, ?_, .inr ⟨rfl, ?_⟩, n.name.nameTail_text⟩
    · rw [text, hroot]
      rfl
    · rw [hname]
      exact hc

/-- A name is no keyword, whatever its segments are. -/
theorem wordKind_text (n : RootedName) (rest : Text) : wordKind false n.text rest = .name := by
  cases hroot : n.rooted with
  | false =>
    have htext : n.text = n.name.text := by simp [text, hroot]
    rw [htext]
    exact n.name.wordKind_text rest
  | true =>
    have hslash : n.text.contains '\\' = true := by simp [text, hroot]
    rw [wordKind, hslash]
    rfl

/-- A name is one token. -/
theorem pieces_text (n : RootedName) {rest : Text} (hrest : startsWith continuesWord rest = false) :
    pieces false (.code false) (n.text ++ rest) =
      .token .name n.text none :: pieces false (.code false) rest := by
  obtain ⟨c, s, htext, hbegins, htail⟩ := n.exists_cons
  have hend : nameTail (s ++ rest) = s.length := by
    rw [htail, nameTail_eq_zero hrest, Nat.add_zero]
  have hkind := n.wordKind_text rest
  rw [htext] at hkind ⊢
  exact pieces_of_beginsName hbegins hend hkind

/-- The stem of a group takes the backslash in front of the brace. -/
theorem pieces_stem (n : RootedName) (rest : Text) :
    pieces false (.code false) (n.text ++ '\\' :: '{' :: rest) =
      .token .name (n.text ++ ['\\']) none :: .token (.opener .brace) ['{'] none ::
        pieces false (.code false) rest := by
  obtain ⟨c, s, htext, hbegins, htail⟩ := n.exists_cons
  have hsplit : n.text ++ '\\' :: '{' :: rest = c :: (s ++ ['\\']) ++ '{' :: rest := by
    simp [htext]
  have hend : nameTail (s ++ ['\\'] ++ '{' :: rest) = (s ++ ['\\']).length := by
    rw [List.append_assoc, htail, List.length_append]
    rfl
  have hkind : wordKind false (c :: (s ++ ['\\'])) ('{' :: rest) = .name := by
    have hslash : (c :: (s ++ ['\\'])).contains '\\' = true := by simp
    rw [wordKind, hslash]
    rfl
  rw [hsplit, pieces_of_beginsName (hbegins.append _) hend hkind, pieces_brace, htext]
  rfl

theorem startsWith_isSpace_text (n : RootedName) (rest : Text) :
    startsWith isSpace (n.text ++ rest) = false := by
  obtain ⟨c, s, htext, hbegins, -⟩ := n.exists_cons
  rw [htext]
  rcases hbegins with hc | ⟨rfl, -⟩
  · exact isSpace_of_isIdentStart hc
  · rfl

end RootedName

/-! ## Clauses -/

theorem faultless_piecesOfClause (word : Option OtherWord) (text : Text) (key : Option PlainName) :
    Faultless (piecesOfClause word text key) := by
  have hword : Faultless (wordPieces word) := by
    cases word with
    | none => exact .nil
    | some w => exact .cons rfl (.cons rfl .nil)
  have hkey : Faultless (keyPieces key) := by
    cases key with
    | none => exact .nil
    | some a => exact .cons rfl (.cons rfl (.cons rfl (.cons rfl .nil)))
  exact hword.append (.cons rfl hkey)

/-- No token of a clause ends it. -/
theorem endsItem_piecesOfClause (word : Option OtherWord) (text : Text) (key : Option PlainName) :
    ∀ k ∈ kindsOf (piecesOfClause word text key), Import.endsItem k = false := by
  have hword : ∀ k ∈ kindsOf (wordPieces word), Import.endsItem k = false := by
    cases word <;> simp [wordPieces, Import.endsItem]
  have hkey : ∀ k ∈ kindsOf (keyPieces key), Import.endsItem k = false := by
    cases key <;> simp [keyPieces, Import.endsItem]
  rw [piecesOfClause, kindsOf_append, kindsOf_token]
  intro k hk
  rcases List.mem_append.1 hk with hk | hk
  · exact hword k hk
  · rcases List.mem_cons.1 hk with rfl | hk
    · rfl
    · exact hkey k hk

theorem pieces_renderKey (key : Option PlainName) {rest : Text}
    (hrest : startsWith continuesWord rest = false) :
    pieces false (.code false) (renderKey key ++ rest) =
      keyPieces key ++ pieces false (.code false) rest := by
  cases key with
  | none => rfl
  | some a =>
    have hsplit : renderKey (some a) ++ rest = ' ' :: ("as".toList ++ ' ' :: (a.text ++ rest)) := by
      simp [renderKey]
    have has : Keyword.ofWord? "as".toList = none := by decide
    rw [hsplit, pieces_blank rfl rfl, pieces_word (by decide) rfl, wordKind_of_ofWord?_eq_none has,
      pieces_blank rfl (startsWith_isSpace_of_isIdentifier a.isIdentifier _), a.pieces_text hrest]
    rfl

namespace UseClause

theorem startsWith_isSpace_render (c : UseClause) (rest : Text) :
    startsWith isSpace (c.render ++ rest) = false := by
  rw [render, List.append_assoc, List.append_assoc]
  cases hword : c.word with
  | none => exact c.name.startsWith_isSpace_text _
  | some w =>
    rw [renderWord, List.append_assoc]
    exact startsWith_isSpace_of_isIdentifier (Keyword.isIdentifier_of_ofWord? w.spells) _

/-- The text of a clause is cut into its pieces. -/
theorem pieces_render (c : UseClause) {rest : Text}
    (hrest : startsWith continuesWord rest = false) :
    PhpOutline.pieces false (.code false) (c.render ++ rest) =
      c.pieces ++ PhpOutline.pieces false (.code false) rest := by
  have hkey : startsWith continuesWord (renderKey c.key ++ rest) = false := by
    cases c.key with
    | none => exact hrest
    | some a => rfl
  have hname : PhpOutline.pieces false (.code false) (c.name.text ++ (renderKey c.key ++ rest)) =
      .token .name c.name.text none :: (keyPieces c.key ++
        PhpOutline.pieces false (.code false) rest) := by
    rw [c.name.pieces_text hkey, pieces_renderKey c.key hrest]
  have hsplit : c.render ++ rest =
      renderWord c.word ++ (c.name.text ++ (renderKey c.key ++ rest)) := by
    simp [render]
  rw [hsplit]
  cases hword : c.word with
  | none =>
    rw [renderWord, List.nil_append, hname, pieces, piecesOfClause, hword]
    rfl
  | some w =>
    have hne : w.keyword ≠ .declares .enumeration := by
      rcases w.isOther with h | h <;> rw [h] <;> decide
    have hwordText : renderWord (some w) ++ (c.name.text ++ (renderKey c.key ++ rest)) =
        w.text ++ ' ' :: (c.name.text ++ (renderKey c.key ++ rest)) := by
      simp [renderWord]
    rw [hwordText, pieces_keyword (Keyword.isIdentifier_of_ofWord? w.spells) w.spells hne rfl,
      pieces_blank rfl (c.name.startsWith_isSpace_text _), hname, pieces, piecesOfClause, hword]
    rfl

theorem faultless_pieces (c : UseClause) : Faultless c.pieces := faultless_piecesOfClause _ _ _

theorem semicolon_notMem (c : UseClause) : .semicolon ∉ kindsOf c.pieces := by
  intro h
  exact absurd (endsItem_piecesOfClause _ _ _ _ h) (by decide)

end UseClause

theorem startsWith_isSpace_renderClauses (first : UseClause) (others : List UseClause)
    (rest : Text) : startsWith isSpace (renderClauses first others ++ rest) = false := by
  rw [renderClauses, List.append_assoc]
  exact first.startsWith_isSpace_render _

theorem pieces_renderClauses (first : UseClause) (others : List UseClause) {rest : Text}
    (hrest : startsWith continuesWord rest = false) :
    pieces false (.code false) (renderClauses first others ++ rest) =
      clausePieces first others ++ pieces false (.code false) rest := by
  induction others generalizing first with
  | nil =>
    have hsplit : renderClauses first [] = first.render := by simp [renderClauses]
    rw [hsplit, first.pieces_render hrest]
    simp [clausePieces]
  | cons c others ih =>
    have hsplit : renderClauses first (c :: others) ++ rest =
        first.render ++ ',' :: ' ' :: (renderClauses c others ++ rest) := by
      simp [renderClauses]
    rw [hsplit, first.pieces_render rfl, pieces_fence rfl,
      pieces_blank rfl (startsWith_isSpace_renderClauses c others rest), ih c]
    simp [clausePieces, commaPiece, plainSign]

theorem faultless_clausePieces (first : UseClause) (others : List UseClause) :
    Faultless (clausePieces first others) := by
  induction others generalizing first with
  | nil => simpa [clausePieces] using first.faultless_pieces
  | cons c others ih =>
    exact first.faultless_pieces.append (.cons rfl (.cons rfl (ih c)))

theorem semicolon_notMem_clausePieces (first : UseClause) (others : List UseClause) :
    .semicolon ∉ kindsOf (clausePieces first others) := by
  induction others generalizing first with
  | nil => simpa [clausePieces] using first.semicolon_notMem
  | cons c others ih =>
    have hsplit : clausePieces first (c :: others) = first.pieces ++ commaPiece ::
        .token .whitespace " ".toList none :: clausePieces c others := by
      rfl
    simp [hsplit, commaPiece, first.semicolon_notMem, ih c]

/-! ## Statements -/

/-- A statement is cut into its pieces. -/
theorem UseStatement.isUseBody (s : UseStatement) : IsUseBody s.body s.bodyPieces := by
  cases s with
  | names first others isClass =>
    refine ⟨startsWith_isSpace_renderClauses _ _ _, ?_, faultless_clausePieces _ _,
      semicolon_notMem_clausePieces _ _⟩
    rw [body, pieces_renderClauses first others rfl, pieces_fence rfl]
    rfl
  | group stem first others comma =>
    refine ⟨?_, ?_, ?_, ?_⟩
    · rw [body, List.append_assoc]
      exact stem.startsWith_isSpace_text _
    · have hsplit : (group stem first others comma).body ++ [';'] = stem.text ++ '\\' :: '{' ::
          (renderClauses first others ++ ((if comma then [','] else []) ++ ['}', ';'])) := by
        simp [body]
      rw [hsplit, stem.pieces_stem]
      cases comma with
      | false =>
        rw [pieces_renderClauses first others rfl]
        simp [bodyPieces, pieces_fence, isFence, plainSign]
      | true =>
        rw [pieces_renderClauses first others rfl]
        simp [bodyPieces, pieces_fence, isFence, plainSign, commaPiece]
    · refine .cons rfl (.cons rfl ((faultless_clausePieces first others).append ?_))
      cases comma with
      | false => exact .cons rfl .nil
      | true => exact .cons rfl (.cons rfl .nil)
    · have hclauses := semicolon_notMem_clausePieces first others
      cases comma <;> simp [bodyPieces, commaPiece, hclauses]
  | other b =>
    have hhead : ∃ k ∈ (kindsOf (codePieces b.text)).head?, k.isInsignificant = false := by
      rcases b.isOther with h | h <;> exact ⟨_, h, rfl⟩
    refine ⟨startsWith_isSpace_of_head hhead _, ?_, b.isContained.faultless, b.one⟩
    rw [body, pieces_contained b.isContained rfl]
    rfl

end PhpOutline
