import PhpOutline.Proofs.Discovery.UseSyntax

/-!
# What use statements bind

A use statement is read token by token into a draft, and the draft is started anew at every comma
and bracket. Each clause of a statement leaves the same draft behind, with the stem of its group and
nothing else, so that what a clause binds depends on no clause before it.

## Main definitions

* `UseClause.imports`, `UseStatement.imports`: what clauses and statements say they bind.
* `Import.Reads`: tokens that bind some names between the ends of two items.

## Main statements

* `Import.foldl_piecesOfClause`: the draft of a clause.
* `UseClause.reads`, `reads_clauses`: one clause, and a list of them.
* `UseStatement.readUse_eq`: a statement is read as what it says.
-/

namespace PhpOutline

/-! ## What is written -/

/-- The last segment of a name. -/
def QualifiedName.last (n : QualifiedName) : Identifier := n.tail.getLast?.getD n.head

/-- The stem of a group without a backslash in front and with one behind, or no stem. -/
def stemText : Option RootedName → Text
  | none => []
  | some stem => stem.name.text ++ ['\\']

/-- What a clause binds, behind a stem: its alias, or else the last segment of its name, to the name
with the stem in front. A function or a constant binds nothing. -/
def UseClause.imports (stem : Option RootedName) (c : UseClause) : List Import :=
  match c.word with
  | some _ => []
  | none => [⟨(c.key.map fun a => a.text).getD c.name.name.last.text,
      stemText stem ++ c.name.name.text⟩]

/-- What a statement binds, in order. -/
def UseStatement.imports : UseStatement → List Import
  | names first others _ => (first :: others).flatMap (UseClause.imports none)
  | group stem first others _ => (first :: others).flatMap (UseClause.imports (some stem))
  | other _ => []

/-! ## Names -/

theorem Identifier.backslash_notMem (n : Identifier) : '\\' ∉ n.text := by
  simpa using Lexeme.contains_backslash_eq_false n.isIdentifier

theorem QualifiedName.lastSegment_text (n : QualifiedName) :
    n.text.lastSegment '\\' = n.last.text := by
  rcases List.eq_nil_or_concat n.tail with htail | ⟨init, m, htail⟩
  · have htext : n.text = n.head.text := by simp [text, htail, renderSegments]
    rw [htext, Text.lastSegment_of_notMem n.head.backslash_notMem, last, htail]
    rfl
  · rw [List.concat_eq_append] at htail
    have htext : n.text = (n.head.text ++ renderSegments init) ++ '\\' :: m.text := by
      simp [text, htail, renderSegments]
    rw [htext, Text.lastSegment_append_cons, Text.lastSegment_of_notMem m.backslash_notMem, last,
      htail]
    simp

/-- A stem does not change the last segment of a name. -/
theorem lastSegment_stemText (stem : Option RootedName) (n : QualifiedName) :
    (stemText stem ++ n.text).lastSegment '\\' = n.last.text := by
  cases stem with
  | none => exact n.lastSegment_text
  | some p =>
    have hsplit : stemText (some p) ++ n.text = p.name.text ++ '\\' :: n.text := by
      simp [stemText]
    rw [hsplit, Text.lastSegment_append_cons, n.lastSegment_text]

namespace RootedName

theorem stripAll_append (n : RootedName) (rest : Text) :
    (n.text ++ rest).stripAll '\\' = n.name.text ++ rest := by
  obtain ⟨c, r, hhead, hc, -⟩ := Lexeme.exists_cons_of_isIdentifier n.name.head.isIdentifier
  have hne : c ≠ '\\' := by
    rintro rfl
    revert hc
    decide
  have hname : (n.name.text ++ rest).stripAll '\\' = n.name.text ++ rest := by
    rw [QualifiedName.text, hhead, Text.stripAll]
    exact List.dropWhile_cons_of_neg (by simpa using hne)
  cases hroot : n.rooted with
  | false =>
    have htext : n.text = n.name.text := by simp [text, hroot]
    rw [htext, hname]
  | true =>
    have htext : n.text = '\\' :: n.name.text := by simp [text, hroot]
    rw [htext, List.cons_append, Text.stripAll, List.dropWhile_cons_of_pos (by simp)]
    exact hname

theorem getLast?_text_ne (n : RootedName) : n.text.getLast? ≠ some '\\' := by
  have hname := n.name.getLast?_text_ne
  obtain ⟨c, r, hhead, -, -⟩ := Lexeme.exists_cons_of_isIdentifier n.name.head.isIdentifier
  have hlast : n.text.getLast? = n.name.text.getLast? := by
    rw [text, QualifiedName.text, hhead, List.cons_append, List.getLast?_append_cons]
  rwa [hlast]

end RootedName

/-! ## Drafts -/

namespace Import

variable {d : Draft} {t : Token} {ts : List Token}

/-- A word at the start of an item is taken as a name, also where it spells the word `as`. -/
theorem Draft.readToken_word {name : Text} (hkind : t.kind = .name)
    (hstrip : t.text.stripAll '\\' = name) (hlast : t.text.getLast? ≠ some '\\')
    (hname : d.name = none) (hkey : d.expectsKey = false) :
    d.readToken t = { d with name := some (d.stem ++ name) } := by
  simp [readToken, readName, hkind, hstrip, hlast, hname, hkey]

/-- The tokens of an item are read into its draft. -/
theorem ofStatement_append (h : ∀ t ∈ ts, endsItem t.kind = false) (d : Draft)
    (rest : List Token) :
    ofStatement d (ts ++ rest) = ofStatement (ts.foldl Draft.readToken d) rest := by
  induction ts generalizing d with
  | nil => rfl
  | cons t ts ih =>
    rw [List.cons_append, ofStatement, if_neg (by simp [h t]), List.foldl_cons]
    exact ih (fun t ht => h t (by simp [ht])) _

/-- The end of an item binds what its draft says. -/
theorem ofStatement_end {e : Token} (he : endsItem e.kind = true) (d : Draft) (rest : List Token) :
    ofStatement d (e :: rest) = d.imports ++ ofStatement d.next rest := by
  rw [ofStatement, if_pos he]

/-- Between the ends of two items, tokens with the pieces `ps` bind `is`, and leave nothing but the
stem behind. -/
def Reads (stem : Text) (ps : List Piece) (is : List Import) : Prop :=
  ∀ (ts : List Token) (e : Token) (rest : List Token), ts.map Token.piece = ps →
    endsItem e.kind = true →
    ofStatement { stem } (ts ++ e :: rest) = is ++ ofStatement { stem } rest

/-- No tokens bind nothing. -/
theorem Reads.nil (stem : Text) : Reads stem [] [] := by
  intro ts e rest hts he
  obtain rfl := List.map_eq_nil_iff.1 hts
  exact ofStatement_end he _ _

/-- Items on both sides of a comma bind one after the other. -/
theorem Reads.comma {stem : Text} {ps qs : List Piece} {is js : List Import}
    (hp : Reads stem ps is) (hq : Reads stem qs js) :
    Reads stem (ps ++ commaPiece :: qs) (is ++ js) := by
  intro ts e rest hts he
  obtain ⟨left, tail, rfl, hleft, htail⟩ := List.map_eq_append_iff.1 hts
  obtain ⟨comma, right, rfl, hcomma, -, hright⟩ := exists_cons_of_map_piece htail
  rw [List.append_assoc, List.cons_append, hp left comma _ hleft (by rw [hcomma]; rfl),
    hq right e rest hright he, List.append_assoc]

end Import

/-! ## Clauses -/

namespace Import

theorem foldl_wordPieces {w : Option OtherWord} {ts : List Token}
    (hts : ts.map Token.piece = (wordPieces w).filter Piece.isSignificant) (stem : Text) :
    ts.foldl Draft.readToken { stem } = { stem, skipped := w.isSome } := by
  cases w with
  | none =>
    obtain rfl := List.map_eq_nil_iff.1 hts
    rfl
  | some w =>
    obtain ⟨word, ts, rfl, hword, -, hts⟩ := exists_cons_of_map_piece hts
    obtain rfl := List.map_eq_nil_iff.1 hts
    rcases w.isOther with h | h <;> rw [h] at hword <;> simp [Draft.readToken, hword]

/-- Behind a name stands an alias or nothing. -/
theorem foldl_keyPieces {a : Option PlainName} {ts : List Token}
    (hts : ts.map Token.piece = (keyPieces a).filter Piece.isSignificant) (stem name : Text)
    (skipped : Bool) :
    ts.foldl Draft.readToken { stem, name := some name, skipped } =
      { stem, name := some name, key := a.map fun a => a.text, skipped } := by
  cases a with
  | none =>
    obtain rfl := List.map_eq_nil_iff.1 hts
    rfl
  | some a =>
    obtain ⟨as, ts, rfl, has, hasText, hts⟩ := exists_cons_of_map_piece hts
    obtain ⟨key, ts, rfl, hkey, hkeyText, hts⟩ := exists_cons_of_map_piece hts
    obtain rfl := List.map_eq_nil_iff.1 hts
    simp [Draft.readToken, Draft.readName, has, hasText, hkey, hkeyText]

variable {word : Option OtherWord} {text name : Text} {key : Option PlainName}

/-- The draft of a clause depends on no clause before it. -/
theorem foldl_piecesOfClause (hstrip : text.stripAll '\\' = name)
    (hlast : text.getLast? ≠ some '\\') {ts : List Token}
    (hts : ts.map Token.piece = (piecesOfClause word text key).filter Piece.isSignificant)
    (stem : Text) :
    ts.foldl Draft.readToken { stem } =
      { stem, name := some (stem ++ name), key := key.map fun a => a.text,
        skipped := word.isSome } := by
  rw [piecesOfClause, List.filter_append, List.filter_cons_of_pos (by rfl)] at hts
  obtain ⟨front, tail, rfl, hfront, htail⟩ := List.map_eq_append_iff.1 hts
  obtain ⟨t, behind, rfl, hkind, htext, hbehind⟩ := exists_cons_of_map_piece htail
  rw [← htext] at hstrip hlast
  rw [List.foldl_append, List.foldl_cons, foldl_wordPieces hfront stem,
    Draft.readToken_word hkind hstrip hlast rfl rfl, foldl_keyPieces hbehind]

/-- A clause binds its alias or its last segment, unless it is about a function or a constant. -/
theorem reads_piecesOfClause (hstrip : text.stripAll '\\' = name)
    (hlast : text.getLast? ≠ some '\\') (stem : Text) :
    Reads stem ((piecesOfClause word text key).filter Piece.isSignificant)
      (if word.isSome then []
        else [⟨(key.map fun a => a.text).getD ((stem ++ name).lastSegment '\\'),
          stem ++ name⟩]) := by
  intro ts e rest hts he
  have hends : ∀ t ∈ ts, endsItem t.kind = false := by
    intro t ht
    have hkinds : ts.map Token.kind =
        (kindsOf (piecesOfClause word text key)).filter fun k => !k.isInsignificant := by
      rw [← kindsOf_map_piece, hts, kindsOf_filter_significant]
    have hmem : t.kind ∈ ts.map Token.kind := List.mem_map_of_mem ht
    rw [hkinds] at hmem
    exact endsItem_piecesOfClause _ _ _ _ (List.mem_filter.1 hmem).1
  rw [ofStatement_append hends, foldl_piecesOfClause hstrip hlast hts, ofStatement_end he]
  cases word <;> rfl

end Import

/-- A clause binds what it says. -/
theorem UseClause.reads (c : UseClause) (stem : Option RootedName) :
    Import.Reads (stemText stem) (c.pieces.filter Piece.isSignificant) (c.imports stem) := by
  have hstrip : c.name.text.stripAll '\\' = c.name.name.text := by
    simpa using c.name.stripAll_append []
  have hreads := @Import.reads_piecesOfClause c.word _ _ c.key hstrip c.name.getLast?_text_ne
    (stemText stem)
  rw [lastSegment_stemText] at hreads
  rw [imports]
  cases hword : c.word <;> rw [hword] at hreads <;> rw [pieces, hword] <;> exact hreads

theorem filter_clausePieces_cons (first c : UseClause) (others : List UseClause) :
    (clausePieces first (c :: others)).filter Piece.isSignificant =
      first.pieces.filter Piece.isSignificant ++
        commaPiece :: (clausePieces c others).filter Piece.isSignificant := by
  have hsplit : clausePieces first (c :: others) = first.pieces ++ commaPiece ::
      .token .whitespace " ".toList none :: clausePieces c others := by
    rfl
  rw [hsplit, List.filter_append, List.filter_cons_of_pos (by rfl),
    List.filter_cons_of_neg (by decide)]

/-- Clauses bind what they say, one after the other. -/
theorem reads_clauses (stem : Option RootedName) (first : UseClause) (others : List UseClause) :
    Import.Reads (stemText stem) ((clausePieces first others).filter Piece.isSignificant)
      ((first :: others).flatMap (UseClause.imports stem)) := by
  induction others generalizing first with
  | nil => simpa [clausePieces] using first.reads stem
  | cons c others ih =>
    rw [filter_clausePieces_cons, List.flatMap_cons]
    exact (first.reads stem).comma (ih c)

/-! ## Statements -/

/-- A statement ends with its first semicolon. -/
theorem Event.statementSize_concat {es : List Entry} {semicolon : Entry}
    (hes : .semicolon ∉ Entry.kinds es) (hsemicolon : semicolon.kind = .semicolon) :
    statementSize (es ++ [semicolon]) = (es ++ [semicolon]).length := by
  have hnone : (Entry.kinds es).findIdx? (· == .semicolon) = none := by
    rw [List.findIdx?_eq_none_iff]
    intro k hk
    rw [beq_eq_false_iff_ne]
    rintro rfl
    exact hes hk
  rw [statementSize, Entry.kinds_append, List.findIdx?_append, hnone]
  simp [Entry.kinds, List.findIdx?_cons, hsemicolon]

/-- A statement about classes is read to its end. -/
theorem Event.readUse_concat {es : List Entry} {semicolon : Entry} {ps : List Piece}
    (hps : es.map Entry.piece = ps.filter Piece.isSignificant) (hone : .semicolon ∉ kindsOf ps)
    (hsemicolon : semicolon.kind = .semicolon)
    (hhead : ∀ k ∈ (Entry.kinds es).head?,
      k ≠ .keyword .function ∧ k ≠ .keyword .const ∧ k ≠ .opener .paren) :
    readUse (es ++ [semicolon]) = resume ((Import.ofStatement {}
      (es.map Entry.toToken ++ [semicolon.toToken])).map imports) (es ++ [semicolon]).length := by
  have hkinds : .semicolon ∉ Entry.kinds es := by
    rw [kinds_eq_kindsOf, hps, kindsOf_filter_significant]
    exact fun h => hone (List.mem_filter.1 h).1
  have hsize := statementSize_concat hkinds hsemicolon
  have hclass : ∀ k ∈ (Entry.kinds (es ++ [semicolon])).head?,
      k ≠ .keyword .function ∧ k ≠ .keyword .const ∧ k ≠ .opener .paren := by
    cases es with
    | nil => simp [Entry.kinds, hsemicolon]
    | cons e es => simpa [Entry.kinds] using hhead
  rw [readUse]
  split
  case h_1 h => exact absurd rfl (hclass _ h).1
  case h_2 h => exact absurd rfl (hclass _ h).2.1
  case h_3 h => exact absurd rfl (hclass _ h).2.2
  case h_4 =>
    have htokens : ((es ++ [semicolon]).take (es ++ [semicolon]).length).map Entry.toToken =
        es.map Entry.toToken ++ [semicolon.toToken] := by
      rw [List.take_length, List.map_append, List.map_singleton]
    simp only [hsize, htokens]

theorem Event.readUse_other {es : List Entry} {semicolon : Entry} {ps : List Piece}
    (hps : es.map Entry.piece = ps.filter Piece.isSignificant) (hone : .semicolon ∉ kindsOf ps)
    (hsemicolon : semicolon.kind = .semicolon)
    (hhead : (kindsOf ps).head? = some (.keyword .function) ∨
      (kindsOf ps).head? = some (.keyword .const)) :
    readUse (es ++ [semicolon]) = resume [] (es ++ [semicolon]).length := by
  have hkinds : Entry.kinds es = (kindsOf ps).filter fun k => !k.isInsignificant := by
    rw [kinds_eq_kindsOf, hps, kindsOf_filter_significant]
  have hsize : statementSize (es ++ [semicolon]) = (es ++ [semicolon]).length := by
    refine statementSize_concat ?_ hsemicolon
    rw [hkinds]
    exact fun h => hone (List.mem_filter.1 h).1
  have hfirst : (Entry.kinds (es ++ [semicolon])).head? = some (.keyword .function) ∨
      (Entry.kinds (es ++ [semicolon])).head? = some (.keyword .const) := by
    rw [Entry.kinds_append, hkinds]
    rcases hhead with h | h <;> rw [List.head?_eq_some_iff] at h <;> obtain ⟨ks, hks⟩ := h <;>
      simp [hks, Kind.isInsignificant, Kind.isTrivia]
  rw [readUse]
  rcases hfirst with h | h <;> rw [h] <;> exact congrArg _ hsize

namespace UseStatement

open Import

/-- The pieces of a statement begin with a name, unless it is about functions or constants. -/
theorem head?_kinds {es : List Entry} {name : Text} {ps : List Piece}
    (h : es.map Entry.piece = .token .name name none :: ps) :
    ∀ k ∈ (Entry.kinds es).head?,
      k ≠ .keyword .function ∧ k ≠ .keyword .const ∧ k ≠ .opener .paren := by
  obtain ⟨e, es, rfl, he, -, -⟩ := exists_cons_of_map_entry h
  simp [Entry.kinds, he]

/-- The names of a statement. -/
theorem ofStatement_names {first : UseClause} {others : List UseClause} {ts : List Token}
    {semicolon : Token}
    (hts : ts.map Token.piece = (clausePieces first others).filter Piece.isSignificant)
    (hsemicolon : semicolon.kind = .semicolon) :
    ofStatement {} (ts ++ [semicolon]) = (first :: others).flatMap (UseClause.imports none) := by
  have hreads := reads_clauses none first others ts semicolon [] hts (by rw [hsemicolon]; rfl)
  exact hreads.trans (List.append_nil _)

/-- The stem of a group is kept for all its clauses. -/
theorem ofStatement_stem {stem : RootedName} {word brace : Token} (rest : List Token)
    (hword : word.kind = .name) (htext : word.text = stem.text ++ ['\\'])
    (hbrace : brace.kind = .opener .brace) :
    ofStatement {} (word :: brace :: rest) = ofStatement { stem := stemText (some stem) } rest := by
  have hdraft : ({} : Draft).readToken word = { stem := stemText (some stem) } := by
    simp [Draft.readToken, Draft.readName, hword, htext, stem.stripAll_append, stemText]
  have hends : endsItem word.kind = false := by rw [hword]; rfl
  have hopens : endsItem brace.kind = false := by rw [hbrace]; rfl
  rw [ofStatement, if_neg (by simp [hends]), hdraft, ofStatement, if_neg (by simp [hopens]),
    Draft.readToken, hbrace]

/-- A comma behind the last clause of a group ends no further clause. -/
theorem reads_comma {stem : Text} {ps : List Piece} {is : List Import} (h : Reads stem ps is)
    (comma : Bool) : Reads stem (ps ++ if comma then [commaPiece] else []) is := by
  cases comma with
  | false => simpa using h
  | true => simpa using h.comma (.nil stem)

theorem filter_group (stem : RootedName) (first : UseClause) (others : List UseClause)
    (comma : Bool) :
    (group stem first others comma).bodyPieces.filter Piece.isSignificant =
      .token .name (stem.text ++ ['\\']) none :: .token (.opener .brace) ['{'] none ::
        (((clausePieces first others).filter Piece.isSignificant ++
          if comma then [commaPiece] else []) ++ [.token (.closer .brace) ['}'] none]) := by
  rw [bodyPieces, List.filter_cons_of_pos (by rfl), List.filter_cons_of_pos (by rfl),
    List.filter_append]
  cases comma <;> simp [Piece.isSignificant, commaPiece, Kind.isInsignificant, Kind.isTrivia]

theorem ofStatement_group {stem : RootedName} {first : UseClause} {others : List UseClause}
    {comma : Bool} {ts : List Token} {semicolon : Token}
    (hts : ts.map Token.piece =
      (group stem first others comma).bodyPieces.filter Piece.isSignificant)
    (hsemicolon : semicolon.kind = .semicolon) :
    ofStatement {} (ts ++ [semicolon]) =
      (first :: others).flatMap (UseClause.imports (some stem)) := by
  rw [filter_group] at hts
  obtain ⟨word, ts, rfl, hword, htext, hts⟩ := exists_cons_of_map_piece hts
  obtain ⟨brace, ts, rfl, hbrace, -, hts⟩ := exists_cons_of_map_piece hts
  obtain ⟨clauses, ts, rfl, hclauses, hts⟩ := List.map_eq_append_iff.1 hts
  obtain ⟨close, ts, rfl, hclose, -, hts⟩ := exists_cons_of_map_piece hts
  obtain rfl := List.map_eq_nil_iff.1 hts
  have hreads := reads_comma (reads_clauses (some stem) first others) comma clauses close
    [semicolon] hclauses (by rw [hclose]; rfl)
  have hend : ofStatement { stem := stemText (some stem) } [semicolon] = [] :=
    ofStatement_end (by rw [hsemicolon]; rfl) _ _
  simp only [List.cons_append, List.append_assoc, List.nil_append]
  rw [ofStatement_stem _ hword htext hbrace, hreads, hend, List.append_nil]

/-- A statement is read as what it says. -/
theorem readUse_eq (s : UseStatement) {es : List Entry} {semicolon : Entry}
    (hes : es.map Entry.piece = s.bodyPieces.filter Piece.isSignificant)
    (hsemicolon : semicolon.kind = .semicolon) :
    Event.readUse (es ++ [semicolon]) =
      Event.resume (s.imports.map Event.imports) (es ++ [semicolon]).length := by
  have hone := s.isUseBody.one
  have htokens : (es.map Entry.toToken).map Token.piece =
      s.bodyPieces.filter Piece.isSignificant := by
    rw [List.map_map, ← hes]
    rfl
  cases s with
  | names first others isClass =>
    obtain ⟨ps, hps⟩ : ∃ ps, (clausePieces first others).filter Piece.isSignificant =
        .token .name first.name.text none :: ps := by
      rw [clausePieces, UseClause.pieces, isClass]
      exact ⟨_, rfl⟩
    rw [Event.readUse_concat hes hone hsemicolon (head?_kinds (hes.trans hps)),
      ofStatement_names htokens hsemicolon]
    rfl
  | group stem first others comma =>
    have hhead := head?_kinds (hes.trans (filter_group stem first others comma))
    rw [Event.readUse_concat hes hone hsemicolon hhead, ofStatement_group htokens hsemicolon]
    rfl
  | other b => exact Event.readUse_other hes hone hsemicolon b.isOther

end UseStatement

end PhpOutline
