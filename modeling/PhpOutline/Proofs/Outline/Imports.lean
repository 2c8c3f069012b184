import PhpOutline.Proofs.Discovery.Imports
import PhpOutline.Proofs.Outline.CodeMode
import PhpOutline.Proofs.Outline.Snapshots

/-!
# Imports of a file

A file with one use statement imports what the statement says: its names under their aliases or last
segments, in order, where the last import of an alias counts.

The word `enum` is the exception. It is a keyword in front of any identifier but `extends` and
`implements`, and the word `as` is an identifier, so that an import of a class `Enum` under an alias
loses the name of the class.

## Main definitions

* `useSource`: a file with one use statement.
* `EnumWord`, `takenFor`: the word `enum`, and what is imported instead of it.

## Main statements

* `SourceFile.imports_statement`: a use statement binds what it says.
* `SourceFile.imports_enum`: what an import of a class with the name `Enum` binds.
-/

namespace PhpOutline

open Lexeme Import

/-- A file with one use statement, which has `body` between the word `use` and the semicolon. -/
def useSource (body : Text) : Text := longTag ++ ("use".toList ++ ' ' :: (body ++ [';']))

/-! ## The tokens of a file -/

theorem map_piece_useSource {body : Text} {ps : List Piece} (h : IsUseBody body ps) :
    (SourceFile.ofSource {} (useSource body)).table.tokens.map Token.piece =
      .token .openTag longTag none :: .token (.keyword .use) "use".toList none ::
        .token .whitespace " ".toList none :: (ps ++ [.token .semicolon ";".toList none]) := by
  have hword : Keyword.ofWord? "use".toList = some .use := by decide
  have hpieces : pieces false (.code false) ("use".toList ++ ' ' :: (body ++ [';'])) =
      .token (.keyword .use) "use".toList none :: .token .whitespace " ".toList none ::
        (ps ++ [.token .semicolon ";".toList none]) := by
    rw [pieces_keyword (by decide) hword (by simp) rfl, pieces_blank rfl h.tight, h.pieces]
    rfl
  have htokens : (SourceFile.ofSource {} (useSource body)).table.tokens =
      ⟨.openTag, longTag, 1, 0⟩ ::
        placed 1 6 (pieces false (.code false) ("use".toList ++ ' ' :: (body ++ [';']))) :=
    congrArg Lexed.tokens (lex_behind_tag false _)
  rw [htokens, hpieces, List.map_cons,
    map_piece_placed (.cons rfl (.cons rfl (h.faultless.append (.cons rfl .nil))))]
  rfl

/-- What a file imports is what its statement is read as. -/
theorem uses_useSource {body : Text} {ps : List Piece} {is : List Import} (h : IsUseBody body ps)
    (hread : ∀ (es : List Entry) (semicolon : Entry),
      es.map Entry.piece = ps.filter Piece.isSignificant → semicolon.kind = .semicolon →
      Event.readUse (es ++ [semicolon]) =
        Event.resume (is.map Event.imports) (es ++ [semicolon]).length) :
    (SourceFile.ofSource {} (useSource body)).outline.uses = .ofImports is := by
  have hentries : (Entry.significant ((SourceFile.ofSource {}
      (useSource body)).table.startingAt 0)).map Entry.piece =
      .token (.keyword .use) "use".toList none ::
        (ps.filter Piece.isSignificant ++ [.token .semicolon ";".toList none]) := by
    rw [TokenTable.startingAt, List.drop_zero, Entry.map_piece_significant, map_piece_useSource h]
    simp [Piece.isSignificant, Kind.isInsignificant, Kind.isTrivia]
  obtain ⟨word, tail, hes, hword, -, htail⟩ := exists_cons_of_map_entry hentries
  obtain ⟨es, last, rfl, hps, hlast⟩ := List.map_eq_append_iff.1 htail
  obtain ⟨semicolon, rest, rfl, hsemicolon, -, hrest⟩ := exists_cons_of_map_entry hlast
  obtain rfl := List.map_eq_nil_iff.1 hrest
  have hdiscover : Event.discover (SourceFile.ofSource {} (useSource body)).table =
      is.map Event.imports := by
    have hstep : Event.step (SourceFile.ofSource {} (useSource body)).table.lastIndex {} word
        (es ++ [semicolon] ++ []) =
        Event.resume (is.map Event.imports) (es ++ [semicolon]).length := by
      rw [Event.step, hword, List.append_nil]
      exact hread es semicolon hps hsemicolon
    have hsweep := Event.sweep_of_step hstep
    rw [sweep_nil, List.append_nil, List.append_nil] at hsweep
    rw [Event.discover, hes, hsweep]
  have himports : (is.map Event.imports).filterMap Event.import? = is := by
    rw [List.filterMap_map]
    exact List.filterMap_some
  change (Outline.ofTable (SourceFile.ofSource {} (useSource body)).table).uses = _
  rw [Outline.ofTable_eq_replay, hdiscover, Outline.uses_replay, himports]

/-! ## Statements -/

/-- A use statement binds what it says, in order, and the last import of an alias counts. -/
theorem SourceFile.imports_statement (s : UseStatement) :
    (ofSource {} (longTag ++ s.render)).outline.uses = .ofImports s.imports ∧
      ∀ key, (ofSource {} (longTag ++ s.render)).outline.uses.get? key =
        lastBound key s.imports := by
  have huses : (ofSource {} (useSource s.body)).outline.uses = .ofImports s.imports :=
    uses_useSource s.isUseBody fun es semicolon hes => s.readUse_eq hes
  refine ⟨huses, ?_⟩
  intro key
  exact (congrArg _ huses).trans (Bindings.get?_ofImports _ key)

/-- Names of classes: a full name, and a name with an alias. -/
def namesSample : UseStatement :=
  .names
    { word := none
      name := ⟨true, ⟨⟨"App".toList, by decide⟩, [⟨"User".toList, by decide⟩], by decide⟩⟩
      key := none }
    [{ word := none
       name := ⟨false, ⟨⟨"Mailer".toList, by decide⟩, [], by decide⟩⟩
       key := some ⟨⟨"Post".toList, by decide⟩, by decide⟩ }] rfl

/-- A group with a function, a constant, and three classes, of which the last has the alias of the
first. -/
def groupSample : UseStatement :=
  .group ⟨false, ⟨⟨"Lib".toList, by decide⟩, [], by decide⟩⟩
    { word := some ⟨"function".toList, .function, by decide, .inl rfl⟩
      name := ⟨false, ⟨⟨"run".toList, by decide⟩, [], by decide⟩⟩
      key := none }
    [{ word := some ⟨"CONST".toList, .const, by decide, .inr rfl⟩
       name := ⟨false, ⟨⟨"Limit".toList, by decide⟩, [], by decide⟩⟩
       key := some ⟨⟨"Max".toList, by decide⟩, by decide⟩ },
      { word := none
        name := ⟨false, ⟨⟨"Data".toList, by decide⟩, [⟨"Map".toList, by decide⟩], by decide⟩⟩
        key := some ⟨⟨"Key".toList, by decide⟩, by decide⟩ },
      { word := none
        name := ⟨false, ⟨⟨"Entry".toList, by decide⟩, [], by decide⟩⟩
        key := none },
      { word := none
        name := ⟨false, ⟨⟨"Row".toList, by decide⟩, [], by decide⟩⟩
        key := some ⟨⟨"Key".toList, by decide⟩, by decide⟩ }] true

/-- Names of functions. -/
def functionsSample : UseStatement :=
  .other ⟨"function Lib\\run, stop as halt".toList,
    isContained_of_delimited (@faultless_of_faults_eq_nil 1 _ (by decide +kernel))
      (by decide +kernel),
    .inl (by decide +kernel), by decide +kernel⟩

/-- Classes are imported, in a group as well as by themselves. Functions and constants are not. -/
theorem SourceFile.imports_samples :
    (namesSample.render = "use \\App\\User, Mailer as Post;".toList ∧
      (ofSource {} (longTag ++ namesSample.render)).outline.uses =
        [("Post".toList, "Mailer".toList), ("User".toList, "App\\User".toList)]) ∧
    (groupSample.render = "use Lib\\".toList ++ '{' ::
        ("function run, CONST Limit as Max, Data\\Map as Key, Entry, Row as Key,".toList ++
          ['}', ';']) ∧
      (ofSource {} (longTag ++ groupSample.render)).outline.uses =
        [("Entry".toList, "Lib\\Entry".toList), ("Key".toList, "Lib\\Row".toList)]) ∧
    functionsSample.render = "use function Lib\\run, stop as halt;".toList ∧
      (ofSource {} (longTag ++ functionsSample.render)).outline.uses = [] := by
  have hnames := (imports_statement namesSample).1
  have hgroup := (imports_statement groupSample).1
  have hfunctions := (imports_statement functionsSample).1
  exact ⟨⟨by decide +kernel, hnames.trans (by decide +kernel)⟩,
    ⟨by decide +kernel, hgroup.trans (by decide +kernel)⟩,
    by decide +kernel, hfunctions.trans rfl⟩

/-! ## Statements with one clause -/

/-- A token of a clause that neither ends it nor makes it one about functions or constants. -/
def Import.isPlain (k : Kind) : Bool :=
  !endsItem k && k != .keyword .function && k != .keyword .const && k != .opener .paren

/-- A text that is cut into the pieces `ps` of a clause in front of a separator or closing
bracket. -/
structure IsClause (text : Text) (ps : List Piece) : Prop where
  tight : ∀ rest, startsWith isSpace (text ++ rest) = false
  pieces : ∀ {d : Char} (rest : Text), isFence d = true →
    pieces false (.code false) (text ++ d :: rest) = ps ++ pieces false (.code false) (d :: rest)
  faultless : Faultless ps
  plain : ∀ k ∈ kindsOf ps, Import.isPlain k = true

/-- The text of a group with one clause. -/
def groupOf (stem : RootedName) (text : Text) : Text := stem.text ++ '\\' :: '{' :: (text ++ ['}'])

/-- The pieces of a group with one clause. -/
def groupPieces (stem : RootedName) (ps : List Piece) : List Piece :=
  .token .name (stem.text ++ ['\\']) none :: .token (.opener .brace) ['{'] none ::
    (ps ++ [.token (.closer .brace) ['}'] none])

namespace IsClause

variable {text : Text} {ps : List Piece} {is : List Import}

theorem semicolon_notMem (h : IsClause text ps) : .semicolon ∉ kindsOf ps := by
  intro hmem
  exact absurd (h.plain _ hmem) (by decide)

theorem isUseBody (h : IsClause text ps) : IsUseBody text ps where
  tight := h.tight _
  pieces := by rw [h.pieces [] rfl, pieces_fence rfl, pieces_nil]; rfl
  faultless := h.faultless
  one := h.semicolon_notMem

theorem isUseBody_group (h : IsClause text ps) (stem : RootedName) :
    IsUseBody (groupOf stem text) (groupPieces stem ps) where
  tight := by
    rw [groupOf, List.append_assoc]
    exact stem.startsWith_isSpace_text _
  pieces := by
    have hsplit : groupOf stem text ++ [';'] =
        stem.text ++ '\\' :: '{' :: (text ++ '}' :: [';']) := by
      simp [groupOf]
    rw [hsplit, stem.pieces_stem, h.pieces [';'] rfl, pieces_fence rfl, pieces_fence rfl,
      pieces_nil]
    simp [groupPieces, plainSign]
  faultless := .cons rfl (.cons rfl (h.faultless.append (.cons rfl .nil)))
  one := by simp [groupPieces, h.semicolon_notMem]

/-- A statement with one clause imports what the clause binds. -/
theorem uses_eq (h : IsClause text ps) (hreads : Reads [] (ps.filter Piece.isSignificant) is) :
    (SourceFile.ofSource {} (useSource text)).outline.uses = .ofImports is := by
  refine uses_useSource h.isUseBody ?_
  intro es semicolon hes hsemicolon
  have hhead : ∀ k ∈ (Entry.kinds es).head?,
      k ≠ .keyword .function ∧ k ≠ .keyword .const ∧ k ≠ .opener .paren := by
    intro k hk
    have hmem : k ∈ Entry.kinds es := List.mem_of_mem_head? hk
    rw [kinds_eq_kindsOf, hes, kindsOf_filter_significant] at hmem
    have hplain := h.plain k (List.mem_filter.1 hmem).1
    simp only [Import.isPlain, Bool.and_eq_true, bne_iff_ne] at hplain
    exact ⟨hplain.1.1.2, hplain.1.2, hplain.2⟩
  have hread := hreads (es.map Entry.toToken) semicolon.toToken [] (by rw [List.map_map]; exact hes)
    (by rw [hsemicolon]; rfl)
  rw [Event.readUse_concat hes h.semicolon_notMem hsemicolon hhead, hread]
  exact congrArg (fun is => Event.resume (List.map Event.imports is) _) (List.append_nil is)

/-- A group with one clause imports what the clause binds behind the stem. -/
theorem uses_group (h : IsClause text ps) (stem : RootedName)
    (hreads : Reads (stemText (some stem)) (ps.filter Piece.isSignificant) is) :
    (SourceFile.ofSource {} (useSource (groupOf stem text))).outline.uses = .ofImports is := by
  refine uses_useSource (h.isUseBody_group stem) ?_
  intro es semicolon hes hsemicolon
  have hfilter : (groupPieces stem ps).filter Piece.isSignificant =
      .token .name (stem.text ++ ['\\']) none :: .token (.opener .brace) ['{'] none ::
        (ps.filter Piece.isSignificant ++ [.token (.closer .brace) ['}'] none]) := by
    simp [groupPieces, Piece.isSignificant, Kind.isInsignificant, Kind.isTrivia]
  rw [Event.readUse_concat hes (h.isUseBody_group stem).one hsemicolon
    (UseStatement.head?_kinds (hes.trans hfilter))]
  obtain ⟨word, es, rfl, hword, htext, hes⟩ := exists_cons_of_map_entry (hes.trans hfilter)
  obtain ⟨brace, es, rfl, hbrace, -, hes⟩ := exists_cons_of_map_entry hes
  obtain ⟨clause, es, rfl, hclause, hes⟩ := List.map_eq_append_iff.1 hes
  obtain ⟨close, es, rfl, hclose, -, hes⟩ := exists_cons_of_map_entry hes
  obtain rfl := List.map_eq_nil_iff.1 hes
  have hread := hreads (clause.map Entry.toToken) close.toToken [semicolon.toToken]
    (by rw [List.map_map]; exact hclause) (by rw [hclose]; rfl)
  have hend : ofStatement { stem := stemText (some stem) } [semicolon.toToken] = [] :=
    ofStatement_end (by rw [hsemicolon]; rfl) _ _
  have himports : ofStatement {} ((word :: brace :: (clause ++ [close])).map Entry.toToken ++
      [semicolon.toToken]) = is := by
    simp only [List.map_cons, List.map_append, List.map_nil, List.cons_append, List.append_assoc,
      List.nil_append]
    rw [UseStatement.ofStatement_stem _ hword htext hbrace, hread, hend, List.append_nil]
  rw [himports]

end IsClause

/-! ## A class with the name of a keyword -/

/-- The word `enum`, in any case. -/
structure EnumWord where
  text : Text
  spells : Keyword.ofWord? text = some (.declares .enumeration)

/-- The word `as`, which is no keyword. -/
def asWord : PlainName := ⟨⟨"as".toList, by decide⟩, by decide⟩

/-- What is imported under the alias `a` instead of a class `Enum`: the alias itself, or the word
`as` where the alias spells it as well. -/
def takenFor (a : PlainName) : PlainName := if a.text.sameWord "as".toList then asWord else a

theorem Identifier.lastSegment_stemText (n : Identifier) (stem : Option RootedName) :
    (stemText stem ++ n.text).lastSegment '\\' = n.text := by
  cases stem with
  | none => exact Text.lastSegment_of_notMem n.backslash_notMem
  | some p =>
    have hsplit : stemText (some p) ++ n.text = p.name.text ++ '\\' :: n.text := by
      simp [stemText]
    rw [hsplit, Text.lastSegment_append_cons, Text.lastSegment_of_notMem n.backslash_notMem]

theorem Identifier.stripAll_text (n : Identifier) : n.text.stripAll '\\' = n.text := by
  obtain ⟨c, r, htext, hc, -⟩ := exists_cons_of_isIdentifier n.isIdentifier
  have hne : c ≠ '\\' := by
    rintro rfl
    revert hc
    decide
  rw [htext, Text.stripAll, List.dropWhile_cons_of_neg (by simpa using hne)]

theorem Identifier.getLast?_text_ne (n : Identifier) : n.text.getLast? ≠ some '\\' := by
  intro h
  exact n.backslash_notMem (List.mem_of_getLast? h)

theorem startsWith_continuesWord_of_isFence {d : Char} (hd : isFence d = true) (rest : Text) :
    startsWith continuesWord (d :: rest) = false := by
  rcases isFence_cases hd with rfl | rfl | rfl | rfl | rfl <;> rfl

namespace EnumWord

variable (e : EnumWord)

/-- The word as an identifier. -/
def toIdentifier : Identifier := ⟨e.text, Keyword.isIdentifier_of_ofWord? e.spells⟩

/-- In front of a separator or closing bracket the word is a name. -/
theorem isClause_name : IsClause e.text (piecesOfClause none e.text none) where
  tight := startsWith_isSpace_of_isIdentifier e.toIdentifier.isIdentifier
  pieces := by
    intro d rest hd
    have henum : enumFollows (d :: rest) = false := by
      simp [enumFollows, startsWith, isGap_of_isFence hd]
    have hkind : wordKind false e.text (d :: rest) = .name := by
      simp [wordKind, e.spells, henum]
    have hword := @pieces_word false false (d :: rest) _ e.toIdentifier.isIdentifier
      (startsWith_continuesWord_of_isFence hd rest)
    exact hword.trans (by rw [toIdentifier, hkind]; rfl)
  faultless := faultless_piecesOfClause _ _ _
  plain := by simp [piecesOfClause, wordPieces, keyPieces, Import.isPlain, endsItem]

/-- Behind a backslash the word is a name. -/
theorem isClause_rooted (a : PlainName) : IsClause ('\\' :: (e.text ++ renderKey (some a)))
    (piecesOfClause none ('\\' :: e.text) (some a)) where
  tight := fun _ => rfl
  pieces := by
    intro d rest hd
    obtain ⟨c, r, htext, hc, -⟩ := exists_cons_of_isIdentifier e.toIdentifier.isIdentifier
    have hbegins : BeginsName '\\' e.text := by
      refine .inr ⟨rfl, ?_⟩
      change startsWith isIdentStart e.toIdentifier.text = true
      rw [htext]
      exact hc
    have hend : nameTail (e.text ++ (renderKey (some a) ++ d :: rest)) = e.text.length :=
      nameTail_append_of_all (fun c => isIdentChar_of_mem e.toIdentifier.isIdentifier) rfl
    have hkind : wordKind false ('\\' :: e.text) (renderKey (some a) ++ d :: rest) = .name := by
      simp [wordKind]
    have hname := pieces_of_beginsName hbegins hend hkind
    rw [pieces_renderKey (some a) (startsWith_continuesWord_of_isFence hd rest)] at hname
    rw [List.cons_append, List.append_assoc]
    exact hname
  faultless := faultless_piecesOfClause _ _ _
  plain := by simp [piecesOfClause, wordPieces, keyPieces, Import.isPlain, endsItem]

/-- The pieces of the word with an alias: it is a keyword, since the word `as` stands behind it. -/
def aliasPieces (a : PlainName) : List Piece :=
  .token (.keyword (.declares .enumeration)) e.text none :: keyPieces (some a)

theorem isClause_alias (a : PlainName) :
    IsClause (e.text ++ renderKey (some a)) (e.aliasPieces a) where
  tight := by
    intro rest
    rw [List.append_assoc]
    exact startsWith_isSpace_of_isIdentifier e.toIdentifier.isIdentifier _
  pieces := by
    intro d rest hd
    have hkey : renderKey (some a) ++ d :: rest =
        ' ' :: (asWord.text ++ ' ' :: (a.text ++ d :: rest)) := by
      simp [renderKey, asWord]
    have hword := TypeWord.pieces_text ⟨e.text, .enumeration, e.spells⟩ asWord (a.text ++ d :: rest)
    rw [List.append_assoc, hkey, hword, ← hkey,
      pieces_renderKey (some a) (startsWith_continuesWord_of_isFence hd rest)]
    rfl
  faultless := .cons rfl (.cons rfl (.cons rfl (.cons rfl (.cons rfl .nil))))
  plain := by simp [aliasPieces, keyPieces, Import.isPlain, endsItem]

/-- As a name, the word is imported like any other. -/
theorem reads_name (stem : Option RootedName) :
    Reads (stemText stem) ((piecesOfClause none e.text none).filter Piece.isSignificant)
      [⟨e.text, stemText stem ++ e.text⟩] := by
  have hreads := @reads_piecesOfClause none _ _ none e.toIdentifier.stripAll_text
    e.toIdentifier.getLast?_text_ne (stemText stem)
  rw [e.toIdentifier.lastSegment_stemText stem] at hreads
  exact hreads

theorem reads_rooted (a : PlainName) :
    Reads [] ((piecesOfClause none ('\\' :: e.text) (some a)).filter Piece.isSignificant)
      [⟨a.text, e.text⟩] := by
  have hstrip : Text.stripAll '\\' ('\\' :: e.text) = e.text := by
    rw [Text.stripAll, List.dropWhile_cons_of_pos (by simp)]
    exact e.toIdentifier.stripAll_text
  have hlast : ('\\' :: e.text).getLast? ≠ some '\\' := by
    obtain ⟨c, r, htext, -, -⟩ := exists_cons_of_isIdentifier e.toIdentifier.isIdentifier
    have hne := e.toIdentifier.getLast?_text_ne
    change ('\\' :: e.toIdentifier.text).getLast? ≠ some '\\'
    rw [htext] at hne ⊢
    rwa [List.getLast?_cons_cons]
  exact @reads_piecesOfClause none _ _ (some a) hstrip hlast []

/-- As a keyword, the word is passed over. Then `as` stands at the start of the item and is taken as
its name, and the alias takes its place, or is taken for a second `as` with no alias behind it. -/
theorem reads_alias (a : PlainName) (stem : Option RootedName) :
    Reads (stemText stem) ((e.aliasPieces a).filter Piece.isSignificant)
      [⟨(takenFor a).text, stemText stem ++ (takenFor a).text⟩] := by
  intro ts t rest hts ht
  obtain ⟨word, ts, rfl, hword, -, hts⟩ := exists_cons_of_map_piece hts
  obtain ⟨as, ts, rfl, has, hasText, hts⟩ := exists_cons_of_map_piece hts
  obtain ⟨key, ts, rfl, hkey, hkeyText, hts⟩ := exists_cons_of_map_piece hts
  obtain rfl := List.map_eq_nil_iff.1 hts
  have hends : ∀ x ∈ [word, as, key], endsItem x.kind = false := by
    simp [endsItem, hword, has, hkey]
  have hpass : ({ stem := stemText stem } : Draft).readToken word = { stem := stemText stem } := by
    simp [Draft.readToken, hword]
  have hname : ({ stem := stemText stem } : Draft).readToken as =
      { stem := stemText stem, name := some (stemText stem ++ asWord.text) } :=
    Draft.readToken_word has (by rw [hasText]; decide) (by rw [hasText]; decide) rfl rfl
  have hread : ({ stem := stemText stem, name := some (stemText stem ++ asWord.text) } :
      Draft).readToken key =
      Draft.readName { stem := stemText stem, name := some (stemText stem ++ asWord.text) }
        a.text := by
    simp [Draft.readToken, hkey, hkeyText]
  rw [ofStatement_append hends, ofStatement_end ht]
  simp only [List.foldl_cons, List.foldl_nil, hpass, hname, hread, Draft.readName]
  by_cases hsame : a.text.sameWord "as".toList = true
  · have htaken : takenFor a = asWord := if_pos hsame
    rw [if_pos (by rw [hsame]; rfl), htaken]
    simp [Draft.imports, Draft.next, asWord.lastSegment_stemText stem]
  · have htaken : takenFor a = a := if_neg hsame
    rw [if_neg (by simp only [hsame, Bool.false_and, Bool.false_eq_true, not_false_eq_true]),
      if_neg (by simpa using a.getLast?_text_ne), htaken]
    simp [Draft.imports, Draft.next, a.stripAll_text, a.lastSegment_stemText stem]

end EnumWord

/-- A class with the name `Enum`, in any case, is imported under its own name, and under an alias
where a backslash stands in front of it. Otherwise it is lost under an alias: what is bound is the
alias, to itself behind the stem. -/
theorem SourceFile.imports_enum (e : EnumWord) (a : PlainName) (stem : RootedName) :
    let uses := fun body => (ofSource {} (useSource body)).outline.uses
    uses e.text = [(e.text, e.text)] ∧
      uses (groupOf stem e.text) = [(e.text, stem.name.text ++ '\\' :: e.text)] ∧
      uses ('\\' :: (e.text ++ renderKey (some a))) = [(a.text, e.text)] ∧
      uses (e.text ++ renderKey (some a)) = [((takenFor a).text, (takenFor a).text)] ∧
      uses (groupOf stem (e.text ++ renderKey (some a))) =
        [((takenFor a).text, stem.name.text ++ '\\' :: (takenFor a).text)] := by
  have hstem : ∀ w : Text, stemText (some stem) ++ w = stem.name.text ++ '\\' :: w := by
    intro w
    simp [stemText]
  refine ⟨e.isClause_name.uses_eq (e.reads_name none), ?_,
    (e.isClause_rooted a).uses_eq (e.reads_rooted a),
    (e.isClause_alias a).uses_eq (e.reads_alias a none), ?_⟩
  · rw [← hstem]
    exact e.isClause_name.uses_group stem (e.reads_name (some stem))
  · rw [← hstem]
    exact (e.isClause_alias a).uses_group stem (e.reads_alias a (some stem))

/-- A class with the name `Enum` is not imported like any other. -/
theorem enum_alias_lost :
    ¬ ∀ (e : EnumWord) (a : PlainName) (stem : RootedName),
      (SourceFile.ofSource {} (useSource (e.text ++ renderKey (some a)))).outline.uses =
          [(a.text, e.text)] ∧
        (SourceFile.ofSource {}
            (useSource (groupOf stem (e.text ++ renderKey (some a))))).outline.uses =
          [(a.text, stem.name.text ++ '\\' :: e.text)] := by
  intro h
  have hclaimed := (h ⟨"Enum".toList, by decide⟩ ⟨⟨"a".toList, by decide⟩, by decide⟩
    ⟨false, ⟨"P".toList, by decide⟩, [], by decide⟩).1
  have hbound : (SourceFile.ofSource {} (useSource ("Enum".toList ++
      renderKey (some ⟨⟨"a".toList, by decide⟩, by decide⟩)))).outline.uses =
      [("a".toList, "a".toList)] := by
    decide +kernel
  rw [hbound] at hclaimed
  revert hclaimed
  decide

end PhpOutline
