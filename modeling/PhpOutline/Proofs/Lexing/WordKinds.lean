import PhpOutline.Proofs.Lexing.Restart
import PhpOutline.Proofs.Lexing.Runs
import PhpOutline.Proofs.Lexing.StringGrammar

/-!
# Names and keywords

A word that spells a keyword is one, with three exceptions: it is a name when it has a backslash,
when it stands behind a member operator, and when it is the word `enum` and nothing that an
enumeration could be called follows. The mode in which a word is read remembers no more than whether
a member operator stands before it, and so does it exactly.

## Main definitions

* `Lexeme.HeadsEnum`: what follows the word `enum` in front of an enumeration.
* `IsName`: the reasons for which a word is a name.
* `Text.BeginsWord`: the texts that begin like a word, by their bytes.

## Main statements

* `Lexeme.enumFollows_iff`: the look behind the word `enum`.
* `modeAfter_eq_code`: the mode behind some pieces, by the last of their tokens that is no trivia.
* `lex_kind_word`: the kinds of the words of a source.
-/

namespace PhpOutline

/-! ## Behind the word `enum` -/

namespace Lexeme

/-- A text that makes a keyword of the word `enum` in front of it: a gap, and an identifier other
than the words that begin a further clause. -/
structure HeadsEnum (s gap word behind : Text) : Prop where
  text_eq : s = gap ++ (word ++ behind)
  gap_ne_nil : gap ≠ []
  isGap : ∀ c ∈ gap, isGap c = true
  isIdentifier : isIdentifier word = true
  /-- The identifier does not go on. -/
  ends : behind.bytes.head?.any isIdentByte = false
  not_extends : word.lower ≠ "extends".toList
  not_implements : word.lower ≠ "implements".toList

theorem enumFollows_iff {s : Text} :
    enumFollows s = true ↔ ∃ gap word behind, HeadsEnum s gap word behind := by
  constructor
  · intro h
    simp only [enumFollows, Bool.and_eq_true, Bool.not_eq_true', Text.sameWord,
      beq_eq_false_iff_ne] at h
    obtain ⟨⟨⟨hgap, hstart⟩, hextends⟩, himplements⟩ := h
    refine ⟨s.takeWhile isGap, identAt (s.dropWhile isGap),
      (s.dropWhile isGap).dropWhile isIdentChar, ?_, ?_, ?_, isIdentifier_identAt hstart, ?_,
      hextends, himplements⟩
    · rw [identAt, List.takeWhile_append_dropWhile, List.takeWhile_append_dropWhile]
    · cases s with
      | nil => cases hgap
      | cons c s =>
        have hc : isGap c = true := hgap
        simp [hc]
    · exact List.all_eq_true.1 List.all_takeWhile
    · rw [← startsWith_isIdentChar]
      exact startsWith_dropWhile _ _
  · rintro ⟨gap, word, behind, h⟩
    have hrest : s.dropWhile isGap = word ++ behind := by
      rw [h.text_eq]
      exact dropWhile_run h.isGap
        (startsWith_append_of_isIdentifier (fun _ => isGap_of_isIdentStart) h.isIdentifier behind)
    have hgap : startsWith isGap s = true := by
      obtain ⟨c, r, hc⟩ := List.exists_cons_of_ne_nil h.gap_ne_nil
      rw [h.text_eq, hc]
      exact h.isGap c (by rw [hc]; exact List.mem_cons_self)
    have hword : identAt (word ++ behind) = word := by
      apply identAt_append h.isIdentifier
      rw [startsWith_isIdentChar]
      exact h.ends
    have hextends : word.sameWord "extends".toList = false := by
      rw [Text.sameWord, beq_eq_false_iff_ne]
      exact h.not_extends
    have himplements : word.sameWord "implements".toList = false := by
      rw [Text.sameWord, beq_eq_false_iff_ne]
      exact h.not_implements
    simp only [enumFollows, hrest, hgap, hword, startsWith_isIdentStart_append h.isIdentifier,
      hextends,
      himplements, Bool.and_self, Bool.not_false]

end Lexeme

/-! ## What makes a word a name -/

/-- The reasons for which a word is a name behind tokens of the kinds `ks` and in front of
`rest`. -/
inductive IsName (ks : List Kind) (word rest : Text) : Prop where
  | backslash (h : '\\' ∈ word)
  /-- The last token before it, trivia apart, is a member operator. -/
  | member {k : Kind} (h : lastTelling? ks = some k) (hk : k.isMemberOperator = true)
  | noKeyword (h : Keyword.ofWord? word = none)
  | enum (h : word.lower = "enum".toList)
    (hrest : ¬ ∃ gap name behind, Lexeme.HeadsEnum rest gap name behind)

/-- The mode behind some pieces that end in code, by the last of their tokens that is no trivia. -/
theorem modeAfter_eq_code {m : Mode} (hm : m ≠ .code true) {ps : List Piece} {a : Bool}
    (h : modeAfter m ps = .code a) :
    a = true ↔ ∃ k, lastTelling? (kindsOf ps) = some k ∧ k.isMemberOperator = true := by
  constructor
  · rintro rfl
    exact modeAfter_eq_code_true hm h
  · rintro ⟨k, hk, hoperator⟩
    suffices hmode : modeAfter m ps = .code true by
      rw [h] at hmode
      exact (Mode.code.inj hmode)
    clear h
    induction ps using List.reverseRecOn with
    | nil => cases hk
    | append_singleton ps p ih =>
      rw [kindsOf_append] at hk
      rw [modeAfter_append, modeAfter_cons, modeAfter_nil]
      cases p with
      | stray c =>
        have hkinds : kindsOf [.stray c] = [] := rfl
        rw [hkinds, List.append_nil] at hk
        exact ih hk
      | token kind text fault =>
        rw [kindsOf_token, kindsOf_nil, lastTelling?_concat] at hk
        cases kind with
        | whitespace | comment | docComment => exact ih hk
        | objectOperator | doubleColon => rfl
        | _ =>
          obtain rfl := Option.some.inj hk
          cases hoperator

theorem wordKind_of_isName {a : Bool} {ks : List Kind} {word rest : Text}
    (ha : a = true ↔ ∃ k, lastTelling? ks = some k ∧ k.isMemberOperator = true)
    (h : IsName ks word rest) : Lexeme.wordKind a word rest = .name := by
  cases h with
  | backslash h =>
    have hcontains : word.contains '\\' = true := List.contains_iff_mem.2 h
    rw [Lexeme.wordKind, hcontains, Bool.true_or, if_pos rfl]
  | member h hk =>
    have htrue : a = true := ha.2 ⟨_, h, hk⟩
    rw [Lexeme.wordKind, htrue, Bool.or_true, if_pos rfl]
  | noKeyword h => exact Lexeme.wordKind_of_ofWord?_eq_none h a rest
  | enum h hrest =>
    have hword : Keyword.ofWord? word = some (.declares .enumeration) :=
      Keyword.ofWord?_eq_some_iff.2 h
    have hfollows : Lexeme.enumFollows rest = false := by
      rw [← Bool.not_eq_true, Lexeme.enumFollows_iff]
      exact hrest
    rw [Lexeme.wordKind, hword]
    simp [hfollows]

theorem wordKind_of_not_isName {a : Bool} {ks : List Kind} {word rest : Text}
    (ha : a = true ↔ ∃ k, lastTelling? ks = some k ∧ k.isMemberOperator = true)
    (h : ¬ IsName ks word rest) :
    ∃ k, Keyword.ofWord? word = some k ∧ Lexeme.wordKind a word rest = .keyword k := by
  have hcontains : word.contains '\\' = false := by
    rw [← Bool.not_eq_true, List.contains_iff_mem]
    exact fun hmem => h (.backslash hmem)
  have hfalse : a = false := by
    rw [← Bool.not_eq_true, ha]
    rintro ⟨k, hk, hoperator⟩
    exact h (.member hk hoperator)
  cases hword : Keyword.ofWord? word with
  | none => exact absurd (.noKeyword hword) h
  | some k =>
    refine ⟨k, rfl, ?_⟩
    rw [Lexeme.wordKind, hcontains, hfalse, Bool.or_self, if_neg Bool.false_ne_true, hword]
    by_cases hk : k = .declares .enumeration
    · subst hk
      have hfollows : Lexeme.enumFollows rest = true := by
        rw [Lexeme.enumFollows_iff]
        by_contra hrest
        exact h (.enum (Keyword.ofWord?_eq_some_iff.1 hword) hrest)
      simp [hfollows]
    · simp

/-! ## The words of a source -/

/-- A text that begins with a byte that can begin an identifier, or with a backslash and such a
byte. -/
def Text.BeginsWord (s : Text) : Prop :=
  ∃ b bs, s.bytes = b :: bs ∧ (Lexeme.isIdentStartByte b = true ∨
    b = '\\'.toUInt8 ∧ bs.head?.any Lexeme.isIdentStartByte = true)

theorem Text.BeginsWord.exists_beginsName {s : Text} (h : s.BeginsWord) :
    ∃ c r, s = c :: r ∧ Lexeme.BeginsName c r := by
  obtain ⟨b, bs, hbytes, h⟩ := h
  cases s with
  | nil => cases hbytes
  | cons c r =>
    refine ⟨c, r, rfl, ?_⟩
    rcases h with hstart | ⟨rfl, hstart⟩
    · left
      have hfirst := Lexeme.startsWith_isIdentStart (c :: r)
      rw [hbytes, List.head?_cons, Option.any_some, hstart] at hfirst
      exact hfirst
    · right
      have hc : c = '\\' := by
        have hhead : (Text.bytes (c :: r)).head? = some '\\'.toUInt8 := by rw [hbytes]; rfl
        exact Option.some.inj ((Text.head?_bytes_eq_some (by decide) (c :: r)).1 hhead)
      subst hc
      rw [Text.bytes_cons, Text.utf8EncodeChar_of_lt (by decide), List.singleton_append,
        List.cons.injEq] at hbytes
      rw [Lexeme.startsWith_isIdentStart, hbytes.2]
      exact ⟨rfl, hstart⟩

/-- A token that begins like a word, text outside the tags apart, was read as one. -/
theorem exists_mode_of_beginsName {short : Bool} {m : Mode} {s : Text} {before after : List Piece}
    {kind : Kind} {c : Char} {r : Text} {fault : Option Fault}
    (h : pieces short m s = before ++ .token kind (c :: r) fault :: after)
    (hkind : kind ≠ .inlineHtml) (hname : Lexeme.BeginsName c r) :
    ∃ a, modeAfter m before = .code a ∧
      kind = Lexeme.wordKind a (c :: r) (textOf after) := by
  have hread := pieces_of_append h
  rw [textOf_cons, Piece.text, List.cons_append, pieces_cons, List.cons.injEq] at hread
  obtain ⟨hpiece, -⟩ := hread
  have hmode := Lexeme.mode_of_kind_read hpiece.symm
  cases hm : modeAfter m before with
  | html =>
    -- outside the tags an opening tag would have to stand there
    rw [hm, Lexeme.read, Lexeme.readHtml] at hpiece
    cases htag : Lexeme.openTag? short (c :: (r ++ textOf after)) with
    | none =>
      rw [htag] at hpiece
      exact absurd (Piece.token.inj hpiece).1 hkind
    | some n =>
      have hangle := (List.cons_prefix_cons.1 (Lexeme.openTag?_some_ge htag).2).1
      subst hangle
      rcases hname with hstart | ⟨hslash, -⟩
      · cases hstart
      · cases hslash
  | code a =>
    refine ⟨a, rfl, ?_⟩
    rw [hm, Lexeme.read, Lexeme.readCode_of_beginsName (hname.append _), Lexeme.readName,
      Reading.piece, Piece.token.injEq, List.cons.injEq] at hpiece
    obtain ⟨hk, ⟨-, htake⟩, -⟩ := hpiece
    have hdrop := List.take_append_drop (Lexeme.nameTail (r ++ textOf after)) (r ++ textOf after)
    rw [← htake, List.append_cancel_left_eq] at hdrop
    rw [hk, ← htake, hdrop]

/-- A token of a source that begins like a word, text outside the tags apart, is a name for one of
the reasons there are, and otherwise the keyword that it spells. -/
theorem lex_kind_word (o : Options) (source : Text) {k : Nat} {t : Token}
    (ht : (lex o source).tokens[k]? = some t) (hkind : t.kind ≠ .inlineHtml)
    (hword : t.text.BeginsWord) :
    (IsName (((lex o source).tokens.take k).map Token.kind) t.text
        ((unmarked source).dropBytes t.stop) → t.kind = .name) ∧
      (¬ IsName (((lex o source).tokens.take k).map Token.kind) t.text
          ((unmarked source).dropBytes t.stop) →
        ∃ w, Keyword.ofWord? t.text = some w ∧ t.kind = .keyword w) := by
  obtain ⟨before, fault, after, hps, htake, -, hoffset⟩ := exists_of_getElem?_placed ht
  obtain ⟨c, r, htext, hname⟩ := hword.exists_beginsName
  have hkinds : ((lex o source).tokens.take k).map Token.kind = kindsOf before := by
    rw [← map_kind_placed 1 0, ← htake]
    rfl
  have hbehind := dropBytes_stop hps hoffset
  rw [htext] at hps
  obtain ⟨a, hmode, hk⟩ := exists_mode_of_beginsName hps hkind hname
  have ha := modeAfter_eq_code (initial_ne_code_true o) hmode
  rw [hkinds, hbehind, hk, ← htext]
  exact ⟨wordKind_of_isName ha, wordKind_of_not_isName ha⟩

/-- A word behind a member operator and a comment, and an enumeration. -/
def wordSample : Text := "<?php $a->/**/Class; ENUM\n é".toList

/-- The first word of the sample that spells a keyword is a name, the second one a keyword. -/
theorem lex_kind_word_sample :
    (∃ t, (lex {} wordSample).tokens[4]? = some t ∧ t.text = "Class".toList ∧
      IsName (((lex {} wordSample).tokens.take 4).map Token.kind) t.text
        ((unmarked wordSample).dropBytes t.stop) ∧ t.kind = .name) ∧
    ∃ t, (lex {} wordSample).tokens[7]? = some t ∧ t.text = "ENUM".toList ∧
      ¬ IsName (((lex {} wordSample).tokens.take 7).map Token.kind) t.text
        ((unmarked wordSample).dropBytes t.stop) ∧
      ∃ w, Keyword.ofWord? t.text = some w ∧ t.kind = .keyword w := by
  constructor
  · have ht : (lex {} wordSample).tokens[4]? = some ⟨.name, "Class".toList, 1, 14⟩ := by
      decide +kernel
    have hbegins : Text.BeginsWord "Class".toList := ⟨_, _, rfl, .inl (by decide)⟩
    have hname : IsName (((lex {} wordSample).tokens.take 4).map Token.kind) "Class".toList
        ((unmarked wordSample).dropBytes 19) := by
      have htelling : lastTelling? (((lex {} wordSample).tokens.take 4).map Token.kind) =
          some .objectOperator := by
        decide +kernel
      exact .member htelling rfl
    exact ⟨_, ht, rfl, hname, (lex_kind_word {} wordSample ht (by decide) hbegins).1 hname⟩
  · have ht : (lex {} wordSample).tokens[7]? =
        some ⟨.keyword (.declares .enumeration), "ENUM".toList, 1, 21⟩ := by
      decide +kernel
    have hbegins : Text.BeginsWord "ENUM".toList := ⟨_, _, rfl, .inl (by decide)⟩
    have hrest : (unmarked wordSample).dropBytes 25 = "\n é".toList := by decide +kernel
    have hname : ¬ IsName (((lex {} wordSample).tokens.take 7).map Token.kind) "ENUM".toList
        ((unmarked wordSample).dropBytes 25) := by
      rw [hrest]
      rintro (h | ⟨h, hk⟩ | h | ⟨-, h⟩)
      · revert h
        decide
      · have htelling : lastTelling? (((lex {} wordSample).tokens.take 7).map Token.kind) =
            some .semicolon := by
          decide +kernel
        rw [htelling] at h
        obtain rfl := Option.some.inj h
        cases hk
      · revert h
        decide
      · exact h ⟨"\n ".toList, "é".toList, [], rfl, by decide, List.all_eq_true.1 rfl, rfl, rfl,
          by decide, by decide⟩
    exact ⟨_, ht, rfl, hname, (lex_kind_word {} wordSample ht (by decide) hbegins).2 hname⟩

end PhpOutline
