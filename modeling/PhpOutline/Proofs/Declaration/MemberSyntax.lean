import PhpOutline.Proofs.Declaration.Constants
import PhpOutline.Proofs.Declaration.Methods
import PhpOutline.Proofs.Declaration.Properties
import PhpOutline.Proofs.Lexing.CodeText

/-!
# Members as they are written

The syntax of constants, properties and methods, with their values, parameter lists and bodies as
plain texts. Each part carries the proof that it is well formed, so that every member can be written
down as a line of a class body, and that line is cut into exactly the pieces that belong to it.

## Main definitions

* `Identifier`, `ModifierWord`, `TypeName`, `ValueText`, `BlockText`: the parts of a member.
* `ConstantSyntax`, `PropertySyntax`, `MethodSyntax`, `MemberSyntax`: members, each with its text
  and its pieces.

## Main statements

* `MemberSyntax.pieces_render`: the text of a member is cut into its pieces, whatever follows it.
-/

namespace PhpOutline

open Lexeme

/-! ## Parts of a member -/

/-- An identifier, which may be a keyword. -/
structure Identifier where
  text : Text
  isIdentifier : isIdentifier text = true

/-- A modifier as it is written, in any case. -/
structure ModifierWord where
  text : Text
  modifier : Modifier
  spells : Keyword.ofWord? text = some (.modifier modifier)

/-- A type: a name that is no keyword, with or without a question mark in front. -/
structure TypeName where
  nullable : Bool
  name : Text
  isName : codePieces name = [.token .name name none]

/-- The value of a constant or property: it is cut without faults, its first and last token are
significant, its brackets are properly nested, and no attribute, comma, semicolon or brace stands
outside them. -/
structure ValueText where
  text : Text
  faultless : faults 1 (codePieces text) = []
  delimited : Delimited (kindsOf (codePieces text))
  nested : Nested Kind.FitsValue (kindsOf (codePieces text))

/-- Whether a piece is a comment that goes on to the end of its line. -/
def Piece.isLineComment : Piece → Bool
  | .token .comment text _ => !(['/', '*'].isPrefixOf text)
  | _ => false

/-- Whether a piece is a long opening tag without the space that belongs to it. -/
def Piece.isBareTag : Piece → Bool
  | .token .openTag text _ => text.length == 5
  | _ => false

/-- A text between brackets, such as a parameter list or a body: it is cut without faults, ends in
code, neither with a line comment nor with a bare tag, and its brackets are properly nested. -/
structure BlockText where
  text : Text
  faultless : faults 1 (codePieces text) = []
  endsInCode : ∃ a, modeAfter (.code false) (codePieces text) = .code a
  not_lineComment : ∀ p ∈ (codePieces text).getLast?, p.isLineComment = false
  not_bareTag : ∀ p ∈ (codePieces text).getLast?, p.isBareTag = false
  nested : Nested (fun _ => True) (kindsOf (codePieces text))

/-- The kind of an identifier that declares something. -/
def Identifier.kind (n : Identifier) : Kind := wordKind false n.text []

theorem Identifier.isSubject_kind (n : Identifier) : n.kind.isSubject = true := by
  rcases wordKind_cases false n.text [] with h | ⟨k, h⟩ <;> rw [Identifier.kind, h] <;> rfl

theorem isAlpha_of_isAlpha_toLower {c : Char} (h : c.toLower.isAlpha = true) :
    c.isAlpha = true := by
  by_cases hc : c.isUpper = true
  · change (c.isUpper || c.isLower) = true
    rw [hc, Bool.true_or]
  · have hlower : c.toLower = c := dif_neg fun hrange => hc (decide_eq_true hrange)
    rwa [hlower] at h

/-- A keyword is spelled with letters. -/
theorem Keyword.all_isAlpha_spelling (k : Keyword) :
    k.spelling ≠ [] ∧ k.spelling.all Char.isAlpha = true := by
  have hall : ∀ k ∈ all, k.spelling ≠ [] ∧ k.spelling.all Char.isAlpha = true := by decide
  exact hall k (mem_all k)

/-- A keyword, in any case, is an identifier. -/
theorem Keyword.isIdentifier_of_ofWord? {w : Text} {k : Keyword} (h : ofWord? w = some k) :
    isIdentifier w = true := by
  have hspell := ofWord?_eq_some_iff.1 h
  obtain ⟨hne, hall⟩ := k.all_isAlpha_spelling
  rw [← hspell] at hne hall
  have halpha : ∀ c ∈ w, c.isAlpha = true := by
    intro c hc
    exact isAlpha_of_isAlpha_toLower (List.all_eq_true.1 hall _ (List.mem_map_of_mem hc))
  cases w with
  | nil => exact absurd rfl hne
  | cons c s =>
    have hstart : isIdentStart c = true := by
      simp [isIdentStart, halpha c (by simp)]
    simp only [Lexeme.isIdentifier, hstart, Bool.true_and, List.all_eq_true]
    intro d hd
    simp [isIdentChar, isIdentStart, halpha d (by simp [hd])]

theorem ModifierWord.isIdentifier (w : ModifierWord) : isIdentifier w.text = true :=
  Keyword.isIdentifier_of_ofWord? w.spells

theorem ValueText.isContained (v : ValueText) : IsContained v.text :=
  isContained_of_delimited (faultless_of_faults_eq_nil v.faultless) v.delimited

/-- A text between brackets has an end of its own. -/
theorem BlockText.isContained (b : BlockText) : IsContained b.text := by
  have hf := faultless_of_faults_eq_nil b.faultless
  refine ⟨hf, b.endsInCode, ?_⟩
  intro p hp
  have hline := b.not_lineComment p hp
  have hbare := b.not_bareTag p hp
  obtain ⟨init, hinit⟩ := List.getLast?_eq_some_iff.1 hp
  obtain ⟨a, ha⟩ := b.endsInCode
  rw [hinit, modeAfter_append, modeAfter_cons, modeAfter_nil] at ha
  cases p with
  | stray c => trivial
  | token kind text fault =>
    have hfault : (Piece.token kind text fault).fault? = none := hf _ (by rw [hinit]; simp)
    refine ⟨hfault, ?_, ?_, ?_⟩
    · rintro rfl
      simp [Piece.mode, Mode.after] at ha
    · rintro rfl
      simpa [Piece.isLineComment] using hline
    · rintro rfl
      simpa [Piece.isBareTag] using hbare

/-! ## Members -/

/-- A constant as it is written. -/
structure ConstantSyntax where
  modifiers : List ModifierWord
  name : Identifier
  value : ValueText

/-- A property as it is written, with a modifier at least. -/
structure PropertySyntax where
  modifiers : List ModifierWord
  marked : modifiers ≠ []
  type : Option TypeName
  name : Identifier
  value : Option ValueText

/-- A method as it is written. -/
structure MethodSyntax where
  modifiers : List ModifierWord
  name : Identifier
  parameters : BlockText
  body : Option BlockText

/-- A member of a class. -/
inductive MemberSyntax where
  | constant (c : ConstantSyntax)
  | property (p : PropertySyntax)
  | method (m : MethodSyntax)

/-- Modifiers, each with a blank behind it. -/
def renderModifiers (ws : List ModifierWord) : Text := ws.flatMap fun w => w.text ++ [' ']

/-- A type with a blank behind it. -/
def TypeName.render (t : TypeName) : Text :=
  (if t.nullable then ['?'] else []) ++ (t.name ++ [' '])

/-- A default value behind its equals sign. -/
def renderDefault : Option ValueText → Text
  | none => []
  | some v => " = ".toList ++ v.text

/-- A body in its braces, or a semicolon. -/
def renderBody : Option BlockText → Text
  | none => [';']
  | some b => [' ', '{'] ++ (b.text ++ ['}'])

/-- The pieces of modifiers. -/
def modifierPieces (ws : List ModifierWord) : List Piece :=
  ws.flatMap fun w => [.token (.keyword (.modifier w.modifier)) w.text none,
    .token .whitespace " ".toList none]

/-- The pieces of a type. -/
def TypeName.pieces (t : TypeName) : List Piece :=
  (if t.nullable then [.token .question "?".toList none] else []) ++
    [.token .name t.name none, .token .whitespace " ".toList none]

/-- The text of a constant. -/
def ConstantSyntax.render (c : ConstantSyntax) : Text :=
  renderModifiers c.modifiers ++ ("const ".toList ++ (c.name.text ++ (" = ".toList ++
    (c.value.text ++ [';']))))

/-- The text of a property. -/
def PropertySyntax.render (p : PropertySyntax) : Text :=
  renderModifiers p.modifiers ++ ((p.type.map TypeName.render).getD [] ++
    ('$' :: (p.name.text ++ (renderDefault p.value ++ [';']))))

/-- The text of a method. -/
def MethodSyntax.render (m : MethodSyntax) : Text :=
  renderModifiers m.modifiers ++ ("function ".toList ++ (m.name.text ++ ('(' ::
    (m.parameters.text ++ (')' :: renderBody m.body)))))

/-- The pieces of a constant. -/
def ConstantSyntax.pieces (c : ConstantSyntax) : List Piece :=
  ConstantTokens.pieces (modifierPieces c.modifiers) c.name.kind c.name.text
    (codePieces c.value.text)

/-- The pieces of a property. -/
def PropertySyntax.pieces (p : PropertySyntax) : List Piece :=
  PropertyTokens.pieces (modifierPieces p.modifiers) ((p.type.map TypeName.pieces).getD [])
    ('$' :: p.name.text) (p.value.map fun v => codePieces v.text)

/-- The pieces of a method. -/
def MethodSyntax.pieces (m : MethodSyntax) : List Piece :=
  MethodTokens.pieces (modifierPieces m.modifiers) m.name.kind m.name.text
    (codePieces m.parameters.text) (m.body.map fun b => codePieces b.text)

namespace MemberSyntax

/-- The member as it is written. -/
def render : MemberSyntax → Text
  | constant c => c.render
  | property p => p.render
  | method m => m.render

/-- The pieces of the member. -/
def pieces : MemberSyntax → List Piece
  | constant c => c.pieces
  | property p => p.pieces
  | method m => m.pieces

end MemberSyntax

/-! ## The pieces of the text -/

theorem startsWith_isSpace_of_isIdentifier {w : Text} (h : isIdentifier w = true) (rest : Text) :
    startsWith isSpace (w ++ rest) = false := by
  obtain ⟨c, r, rfl, hc, -⟩ := exists_cons_of_isIdentifier h
  exact isSpace_of_isIdentStart hc

theorem startsWith_isSpace_renderModifiers (ws : List ModifierWord) {rest : Text}
    (h : startsWith isSpace rest = false) :
    startsWith isSpace (renderModifiers ws ++ rest) = false := by
  cases ws with
  | nil => exact h
  | cons w ws =>
    rw [renderModifiers, List.flatMap_cons, List.append_assoc, List.append_assoc]
    exact startsWith_isSpace_of_isIdentifier w.isIdentifier _

theorem pieces_renderModifiers (ws : List ModifierWord) {rest : Text}
    (h : startsWith isSpace rest = false) :
    pieces false (.code false) (renderModifiers ws ++ rest) =
      modifierPieces ws ++ pieces false (.code false) rest := by
  induction ws with
  | nil => rfl
  | cons w ws ih =>
    have hsplit : renderModifiers (w :: ws) ++ rest =
        w.text ++ ' ' :: (renderModifiers ws ++ rest) := by
      simp [renderModifiers]
    rw [hsplit, pieces_keyword w.isIdentifier w.spells (by simp) rfl,
      pieces_blank rfl (startsWith_isSpace_renderModifiers ws h), ih]
    rfl

theorem Identifier.pieces_text (n : Identifier) {rest : Text}
    (hrest : startsWith continuesWord rest = false) (henum : enumFollows rest = false) :
    pieces false (.code false) (n.text ++ rest) =
      .token n.kind n.text none :: pieces false (.code false) rest := by
  have hkind : wordKind false n.text rest = n.kind := wordKind_congr (by rw [henum]; rfl) _ _
  rw [pieces_word n.isIdentifier hrest, hkind]

/-- A name, an equals sign and a value in front of a semicolon. -/
theorem ValueText.pieces_text (v : ValueText) (rest : Text) :
    pieces false (.code false) (' ' :: '=' :: ' ' :: (v.text ++ ';' :: rest)) =
      .token .whitespace " ".toList none :: .token .equals "=".toList none ::
        .token .whitespace " ".toList none :: (codePieces v.text ++
          .token .semicolon ";".toList none :: pieces false (.code false) rest) := by
  have hspace := startsWith_isSpace_of_delimited v.delimited (';' :: rest)
  rw [pieces_blank rfl rfl, pieces_equals, pieces_blank rfl hspace,
    pieces_contained v.isContained rfl]
  rfl

theorem pieces_renderBody (body : Option BlockText) (rest : Text) :
    pieces false (.code false) (renderBody body ++ rest) =
      MethodEnd.pieces (body.map fun b => codePieces b.text) ++
        pieces false (.code false) rest := by
  cases body with
  | none => exact pieces_fence rfl rest
  | some b =>
    have hsplit : renderBody (some b) ++ rest = ' ' :: '{' :: (b.text ++ '}' :: rest) := by
      simp [renderBody]
    rw [hsplit, pieces_blank rfl rfl, pieces_brace, pieces_contained b.isContained rfl]
    simp [MethodEnd.pieces, plainSign]

theorem pieces_renderType (t : TypeName) (rest : Text) :
    pieces false (.code false) (t.render ++ '$' :: rest) =
      t.pieces ++ pieces false (.code false) ('$' :: rest) := by
  have hname : pieces false (.code false) (t.name ++ ' ' :: '$' :: rest) =
      .token .name t.name none :: .token .whitespace " ".toList none ::
        pieces false (.code false) ('$' :: rest) := by
    rw [pieces_name t.isName rfl rfl, pieces_blank rfl rfl]
    rfl
  cases hnull : t.nullable with
  | false =>
    have hsplit : t.render ++ '$' :: rest = t.name ++ ' ' :: '$' :: rest := by
      simp [TypeName.render, hnull]
    rw [hsplit, hname]
    simp [TypeName.pieces, hnull]
  | true =>
    have hsplit : t.render ++ '$' :: rest = '?' :: (t.name ++ ' ' :: '$' :: rest) := by
      simp [TypeName.render, hnull]
    rw [hsplit, pieces_question t.isName, hname]
    simp [TypeName.pieces, hnull]

theorem startsWith_type (type : Option TypeName) (rest : Text) :
    startsWith isSpace ((type.map TypeName.render).getD [] ++ '$' :: rest) = false := by
  cases type with
  | none => rfl
  | some t =>
    have hname : startsWith isSpace (t.name ++ ' ' :: '$' :: rest) = false :=
      startsWith_isSpace_of_delimited (by rw [t.isName]; exact .singleton rfl) _
    cases hnull : t.nullable with
    | false => simpa [TypeName.render, hnull] using hname
    | true => simp [TypeName.render, hnull, startsWith, isSpace]

theorem pieces_item (name : Identifier) (v : Option ValueText) (rest : Text) :
    pieces false (.code false) ('$' :: (name.text ++ (renderDefault v ++ ';' :: rest))) =
      PropertyItem.pieces ('$' :: name.text) (v.map fun v => codePieces v.text) ++
        .token .semicolon ";".toList none :: pieces false (.code false) rest := by
  cases v with
  | none =>
    rw [renderDefault, List.nil_append, pieces_variable name.isIdentifier rfl, pieces_fence rfl]
    rfl
  | some v =>
    have hsplit : renderDefault (some v) ++ ';' :: rest =
        ' ' :: '=' :: ' ' :: (v.text ++ ';' :: rest) := by
      simp [renderDefault]
    rw [hsplit, pieces_variable name.isIdentifier rfl, v.pieces_text]
    rfl

theorem ConstantSyntax.pieces_render (c : ConstantSyntax) (rest : Text) :
    PhpOutline.pieces false (.code false) (c.render ++ rest) =
      c.pieces ++ PhpOutline.pieces false (.code false) rest := by
  have hsplit : c.render ++ rest =
      renderModifiers c.modifiers ++ ("const".toList ++ ' ' :: (c.name.text ++ ' ' :: '=' :: ' ' ::
        (c.value.text ++ ';' :: rest))) := by
    have hconst : "const ".toList = "const".toList ++ [' '] := by rfl
    have hequals : " = ".toList = [' ', '=', ' '] := by rfl
    simp [render, hconst, hequals]
  have hword : Keyword.ofWord? "const".toList = some .const := by decide
  rw [hsplit, pieces_renderModifiers _ rfl, pieces_keyword (by decide) hword (by simp) rfl,
    pieces_blank rfl (startsWith_isSpace_of_isIdentifier c.name.isIdentifier _),
    c.name.pieces_text rfl rfl, c.value.pieces_text]
  simp [pieces, ConstantTokens.pieces, Binding.pieces]

theorem PropertySyntax.pieces_render (p : PropertySyntax) (rest : Text) :
    PhpOutline.pieces false (.code false) (p.render ++ rest) =
      p.pieces ++ PhpOutline.pieces false (.code false) rest := by
  have hsplit : p.render ++ rest =
      renderModifiers p.modifiers ++ ((p.type.map TypeName.render).getD [] ++
        ('$' :: (p.name.text ++ (renderDefault p.value ++ ';' :: rest)))) := by
    simp [render]
  rw [hsplit, pieces_renderModifiers p.modifiers (startsWith_type p.type _)]
  cases htype : p.type with
  | none =>
    rw [Option.map_none, Option.getD_none, List.nil_append, pieces_item]
    simp [pieces, PropertyTokens.pieces, htype]
  | some t =>
    rw [Option.map_some, Option.getD_some, pieces_renderType, pieces_item]
    simp [pieces, PropertyTokens.pieces, htype]

theorem MethodSyntax.pieces_render (m : MethodSyntax) (rest : Text) :
    PhpOutline.pieces false (.code false) (m.render ++ rest) =
      m.pieces ++ PhpOutline.pieces false (.code false) rest := by
  have hsplit : m.render ++ rest =
      renderModifiers m.modifiers ++ ("function".toList ++ ' ' :: (m.name.text ++ '(' ::
        (m.parameters.text ++ ')' :: (renderBody m.body ++ rest)))) := by
    have hfunction : "function ".toList = "function".toList ++ [' '] := by rfl
    simp [render, hfunction]
  have hword : Keyword.ofWord? "function".toList = some .function := by decide
  rw [hsplit, pieces_renderModifiers _ rfl, pieces_keyword (by decide) hword (by simp) rfl,
    pieces_blank rfl (startsWith_isSpace_of_isIdentifier m.name.isIdentifier _),
    m.name.pieces_text rfl rfl, pieces_paren, pieces_contained m.parameters.isContained rfl,
    pieces_renderBody]
  simp [pieces, MethodTokens.pieces, plainSign]

theorem faultless_modifierPieces (ws : List ModifierWord) : Faultless (modifierPieces ws) := by
  induction ws with
  | nil => exact .nil
  | cons w ws ih => exact .cons rfl (.cons rfl ih)

theorem MethodSyntax.faultless_pieces (m : MethodSyntax) : Faultless m.pieces := by
  refine MethodTokens.faultless_pieces (faultless_modifierPieces _)
    m.parameters.isContained.faultless ?_
  intro ps hps
  obtain ⟨b, -, rfl⟩ := Option.map_eq_some_iff.1 hps
  exact b.isContained.faultless

namespace MemberSyntax

/-- The text of a member is cut into its pieces, whatever follows it. -/
theorem pieces_render (m : MemberSyntax) (rest : Text) :
    PhpOutline.pieces false (.code false) (m.render ++ rest) =
      m.pieces ++ PhpOutline.pieces false (.code false) rest := by
  cases m with
  | constant c => exact c.pieces_render rest
  | property p => exact p.pieces_render rest
  | method m => exact m.pieces_render rest

/-- A member does not begin with white space. -/
theorem startsWith_isSpace_render (m : MemberSyntax) (rest : Text) :
    startsWith isSpace (m.render ++ rest) = false := by
  cases m with
  | constant c =>
    rw [render, ConstantSyntax.render, List.append_assoc]
    exact startsWith_isSpace_renderModifiers _ rfl
  | property p =>
    rw [render, PropertySyntax.render, List.append_assoc, List.append_assoc]
    exact startsWith_isSpace_renderModifiers _ (startsWith_type p.type _)
  | method m =>
    rw [render, MethodSyntax.render, List.append_assoc]
    exact startsWith_isSpace_renderModifiers _ rfl

end MemberSyntax

end PhpOutline
