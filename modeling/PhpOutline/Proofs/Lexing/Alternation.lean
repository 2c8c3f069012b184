import Mathlib.Data.List.Chain
import PhpOutline.Proofs.Lexing.Restart

/-!
# Code and the text outside it

Opening tags lead into code and closing tags out of it. What a token is therefore tells what can
stand next to it: behind a closing tag stands an opening tag or text outside the tags, and behind
such text an opening tag, because the text goes on up to the first of them.

## Main definitions

* `Kind.Precedes`: which kind of token can stand directly behind which.
* `Lexed.Alternates`: what it means that code and the text outside it take turns.

## Main statements

* `Lexeme.openTag?_drop_of_lt_htmlTail`, `Lexeme.openTag?_drop_htmlTail`: text outside the tags goes
  on up to the first opening tag.
* `isChain_kindsOf_pieces`: what stands next to each other in a text.
* `lex_alternates`: code and the text outside it take turns.
-/

namespace PhpOutline

/-! ## The text outside the tags -/

namespace Lexeme

variable {short : Bool}

/-- No opening tag begins inside the text outside the tags. -/
theorem openTag?_drop_of_lt_htmlTail {s : Text} {n : Nat} (h : n < htmlTail short s) :
    openTag? short (s.drop n) = none := by
  induction s generalizing n with
  | nil => cases h
  | cons c s ih =>
    rw [htmlTail] at h
    split at h
    · cases h
    · rename_i hnone
      cases n with
      | zero => simpa using hnone
      | succ n => exact ih (Nat.lt_of_succ_lt_succ h)

/-- Behind the text outside the tags an opening tag begins, unless the source ends there. -/
theorem openTag?_drop_htmlTail (s : Text) :
    s.drop (htmlTail short s) = [] ∨ (openTag? short (s.drop (htmlTail short s))).isSome := by
  induction s with
  | nil => exact .inl rfl
  | cons c s ih =>
    rw [htmlTail]
    split
    · rename_i hsome
      exact .inr hsome
    · exact ih

/-- A token of text outside the tags takes all the text up to the next opening tag. -/
theorem eq_take_of_inlineHtml {m : Mode} {c : Char} {s text : Text} {fault : Option Fault}
    (h : (read short m c s).piece c s = .token .inlineHtml text fault) :
    m = .html ∧ (read short m c s).claims s = htmlTail short s ∧
      text = (c :: s).take (htmlTail short (c :: s)) := by
  have hmode : m = .html := mode_of_kind_read h
  subst hmode
  cases htag : openTag? short (c :: s) with
  | some n =>
    rw [read, readHtml, htag] at h
    cases h
  | none =>
    have hread : read short .html c s = .lexeme .inlineHtml (htmlTail short s) := by
      rw [read, readHtml, htag]
    rw [hread] at h ⊢
    obtain ⟨-, rfl, -⟩ := Piece.token.inj h
    rw [htmlTail, htag]
    exact ⟨rfl, rfl, rfl⟩

end Lexeme

/-! ## Neighbours -/

/-- The kind `l` can stand directly behind the kind `k`. -/
def Kind.Precedes : Kind → Kind → Prop
  | inlineHtml, l => l = .openTag
  | closeTag, l => l.isOutside = true
  | _, l => l.isOutside = false

/-- A place in code. -/
def Mode.isCode : Mode → Bool
  | html => false
  | code _ => true

theorem isCode_initial (o : Options) : (Mode.initial o).isCode = o.startInCode := by
  rw [Mode.initial]
  cases o.startInCode <;> rfl

section Kinds

variable {short : Bool} {m : Mode} {c : Char} {s : Text} {kind : Kind} {text : Text}
  {fault : Option Fault}

theorem isOutside_of_read (h : (Lexeme.read short m c s).piece c s = .token kind text fault) :
    kind.isOutside = !m.isCode := by
  have hmode := Lexeme.mode_of_kind_read h
  cases hkind : kind.isOutside with
  | true =>
    obtain rfl : m = .html := by simpa [hkind] using hmode
    rfl
  | false =>
    obtain ⟨a, rfl⟩ : ∃ a, m = .code a := by simpa [hkind] using hmode
    rfl

/-- Behind a token a place stands in code, unless the token is text outside the tags or leads
there. -/
theorem isCode_after_of_read (h : (Lexeme.read short m c s).piece c s = .token kind text fault) :
    (m.after kind).isCode = !(kind == .inlineHtml || kind == .closeTag) := by
  have hout := isOutside_of_read h
  cases kind with
  | whitespace | comment | docComment =>
    have hcode : m.isCode = true := by
      simpa using (show false = !m.isCode from hout)
    exact hcode
  | _ => rfl

/-- What the mode behind a token lets stand there is of a kind that can. -/
theorem precedes_of_read (h : (Lexeme.read short m c s).piece c s = .token kind text fault)
    {k : Kind} (hk : k.isOutside = !(m.after kind).isCode)
    (hopen : kind = .inlineHtml → k = .openTag) : kind.Precedes k := by
  rw [isCode_after_of_read h, Bool.not_not] at hk
  cases kind with
  | inlineHtml => exact hopen rfl
  | _ => exact hk

end Kinds

/-- Behind text outside the tags stands an opening tag, if anything. -/
theorem eq_openTag_of_head?_drop {short : Bool} {s : Text} {k : Kind}
    (h : k ∈ (kindsOf (pieces short .html (s.drop (Lexeme.htmlTail short s)))).head?) :
    k = .openTag := by
  rcases @Lexeme.openTag?_drop_htmlTail short s with hnil | hsome
  · simp [hnil] at h
  · cases hrest : s.drop (Lexeme.htmlTail short s) with
    | nil => simp [hrest] at h
    | cons c r =>
      rw [hrest] at h hsome
      obtain ⟨n, hn⟩ := Option.isSome_iff_exists.1 hsome
      have hread : Lexeme.read short .html c r = .lexeme .openTag (n - 1) := by
        rw [Lexeme.read, Lexeme.readHtml, hn]
      rw [pieces_cons, hread] at h
      exact (Option.some.inj h).symm

/-- In the pieces of a text, the first token tells the mode, and each token what comes behind it. -/
theorem isChain_kindsOf_pieces (short : Bool) (m : Mode) (s : Text) :
    (∀ k ∈ (kindsOf (pieces short m s)).head?, k.isOutside = !m.isCode) ∧
      (kindsOf (pieces short m s)).IsChain Kind.Precedes := by
  induction m, s using pieces_induction short with
  | nil m => simp
  | cons m c s ih =>
    obtain ⟨hhead, hchain⟩ := ih
    rw [pieces_cons]
    rw [← Reading.mode_piece m _ c s] at hhead hchain ⊢
    cases hp : (Lexeme.read short m c s).piece c s with
    | stray d =>
      rw [hp] at hhead hchain
      exact ⟨hhead, hchain⟩
    | token kind text fault =>
      have hmode : (Piece.token kind text fault).mode m = m.after kind := rfl
      rw [hp, hmode] at hhead hchain
      rw [hmode, kindsOf_token, List.head?_cons]
      constructor
      · intro k hk
        obtain rfl := Option.some.inj hk
        exact isOutside_of_read hp
      · refine List.isChain_cons.2 ⟨?_, hchain⟩
        intro k hk
        refine precedes_of_read hp (hhead k hk) ?_
        rintro rfl
        obtain ⟨-, hclaims, -⟩ := Lexeme.eq_take_of_inlineHtml hp
        rw [hclaims] at hk
        exact eq_openTag_of_head?_drop hk

/-! ## The whole source -/

/-- Code and the text outside it take turns. -/
structure Lexed.Alternates (o : Options) (source : Text) (l : Lexed) : Prop where
  /-- Text outside the tags stands at the start of a source that does not begin in code, or behind a
  closing tag. -/
  html_before : ∀ before behind, l.tokens.map Token.kind = before ++ .inlineHtml :: behind →
    before = [] ∧ o.startInCode = false ∨ before.getLast? = some .closeTag
  /-- It stands at the end of the source or in front of an opening tag. -/
  html_behind : ∀ before behind, l.tokens.map Token.kind = before ++ .inlineHtml :: behind →
    behind = [] ∨ behind.head? = some .openTag
  /-- An opening tag stands at the start of a source that does not begin in code, behind text
  outside the tags, or behind a closing tag. -/
  open_before : ∀ before behind, l.tokens.map Token.kind = before ++ .openTag :: behind →
    before = [] ∧ o.startInCode = false ∨ before.getLast? = some .inlineHtml ∨
      before.getLast? = some .closeTag
  /-- Behind a closing tag stands text outside the tags or an opening tag, if anything. -/
  close_behind : ∀ before behind, l.tokens.map Token.kind = before ++ .closeTag :: behind →
    behind = [] ∨ behind.head? = some .inlineHtml ∨ behind.head? = some .openTag
  /-- No opening tag begins inside text outside the tags. -/
  html_tagless : ∀ t ∈ l.tokens, t.kind = .inlineHtml → ∀ a b, t.text = a ++ b → b ≠ [] →
    Lexeme.openTag? o.shortOpenTags (source.dropBytes (t.offset + a.byteSize)) = none

section Neighbours

variable {o : Options} {source : Text} {before behind : List Kind} {k : Kind}

/-- What stands outside the tags is the first token of a source that begins there, or stands behind
a token that leads there. -/
theorem precedes_of_isOutside
    (h : (lex o source).tokens.map Token.kind = before ++ k :: behind) (hk : k.isOutside = true) :
    before = [] ∧ o.startInCode = false ∨
      ∃ l, before.getLast? = some l ∧ l.Precedes k := by
  obtain ⟨hhead, hchain⟩ :=
    isChain_kindsOf_pieces o.shortOpenTags (.initial o) (unmarked source)
  rw [lex, map_kind_placed] at h
  rw [h] at hhead hchain
  cases hlast : before.getLast? with
  | none =>
    obtain rfl := List.getLast?_eq_none_iff.1 hlast
    have hfirst := hhead k rfl
    rw [hk, isCode_initial] at hfirst
    exact .inl ⟨rfl, by simpa using hfirst.symm⟩
  | some l => exact .inr ⟨l, rfl, (List.isChain_append.1 hchain).2.2 l hlast k rfl⟩

/-- What stands behind a token is of a kind that can. -/
theorem precedes_head?
    (h : (lex o source).tokens.map Token.kind = before ++ k :: behind) :
    ∀ l ∈ behind.head?, k.Precedes l := by
  have hchain := (isChain_kindsOf_pieces o.shortOpenTags (.initial o) (unmarked source)).2
  rw [lex, map_kind_placed] at h
  rw [h] at hchain
  exact (List.isChain_cons.1 hchain.right_of_append).1

end Neighbours

theorem Kind.eq_of_precedes_openTag {k : Kind} (h : k.Precedes .openTag) :
    k = .inlineHtml ∨ k = .closeTag := by
  cases k with
  | inlineHtml => exact .inl rfl
  | closeTag => exact .inr rfl
  | _ => cases h

theorem Kind.eq_of_precedes_inlineHtml {k : Kind} (h : k.Precedes .inlineHtml) :
    k = .closeTag := by
  cases k with
  | closeTag => rfl
  | _ => cases h

/-- Inside a token of text outside the tags, no opening tag begins. -/
theorem openTag?_of_mem_lex {o : Options} {source : Text} {t : Token}
    (ht : t ∈ (lex o source).tokens) (hkind : t.kind = .inlineHtml) {a b : Text}
    (htext : t.text = a ++ b) (hb : b ≠ []) :
    Lexeme.openTag? o.shortOpenTags ((unmarked source).dropBytes (t.offset + a.byteSize)) =
      none := by
  obtain ⟨before, fault, after, hps, hoffset⟩ := mem_placed ht
  rw [hkind] at hps
  have hrest := pieces_of_append hps
  cases hs : textOf (.token .inlineHtml t.text fault :: after) with
  | nil => simp [hs] at hrest
  | cons c r =>
    rw [hs, pieces_cons, List.cons.injEq] at hrest
    obtain ⟨-, -, htake⟩ := Lexeme.eq_take_of_inlineHtml hrest.1.symm
    have hpiece : (Piece.token .inlineHtml t.text fault).text = a ++ b := htext
    have hsplit : c :: r = a ++ (b ++ textOf after) := by
      rw [← hs, textOf_cons, hpiece, List.append_assoc]
    have hdrop : (unmarked source).dropBytes (t.offset + a.byteSize) = (c :: r).drop a.length := by
      rw [← textOf_pieces o.shortOpenTags (.initial o) (unmarked source), hps, hoffset,
        Nat.zero_add, dropBytes_textOf hpiece, hsplit, List.drop_left]
    rw [hdrop]
    apply Lexeme.openTag?_drop_of_lt_htmlTail
    have hlength := congrArg List.length htake
    rw [htext, List.length_append, List.length_take] at hlength
    have := List.length_pos_iff.2 hb
    omega

/-- Code and the text outside it take turns, and a tag is found at the first chance. -/
theorem lex_alternates (o : Options) (source : Text) :
    (lex o source).Alternates o (unmarked source) := by
  constructor
  case html_before =>
    intro before behind h
    rcases precedes_of_isOutside h rfl with hfirst | ⟨k, hlast, hk⟩
    · exact .inl hfirst
    · rw [Kind.eq_of_precedes_inlineHtml hk] at hlast
      exact .inr hlast
  case open_before =>
    intro before behind h
    rcases precedes_of_isOutside h rfl with hfirst | ⟨k, hlast, hk⟩
    · exact .inl hfirst
    · rcases Kind.eq_of_precedes_openTag hk with rfl | rfl
      · exact .inr (.inl hlast)
      · exact .inr (.inr hlast)
  case html_behind =>
    intro before behind h
    cases behind with
    | nil => exact .inl rfl
    | cons k behind => exact .inr (congrArg some (precedes_head? h k rfl))
  case close_behind =>
    intro before behind h
    cases behind with
    | nil => exact .inl rfl
    | cons k behind =>
      have hk : k.isOutside = true := precedes_head? h k rfl
      rw [Kind.isOutside, Bool.or_eq_true, beq_iff_eq, beq_iff_eq] at hk
      exact .inr (hk.imp (congrArg some) (congrArg some))
  case html_tagless =>
    intro t ht hkind a b htext hb
    exact openTag?_of_mem_lex ht hkind htext hb

end PhpOutline
