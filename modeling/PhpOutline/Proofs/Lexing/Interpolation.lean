import PhpOutline.Proofs.Lexing.Restart
import PhpOutline.Proofs.Lexing.StringGrammar

/-!
# Strings with interpolations

Where a double quote or a backtick stands in code, a string begins that may hold interpolations. The
token ends with the one prefix of the text behind the quote that is in the grammar of such strings,
or with the source where there is none.

## Main definitions

* `Lexeme.Interpolated`: such strings from behind the opening quote on, as bytes.
* `OpeningQuote`: a place of a source in code at which such a string begins.
* `Lexed.HasString`: tokens and diagnostics with a string between others.

## Main statements

* `OpeningQuote.interpolated_iff`: a prefix is in the grammar exactly when the reader ends behind
  it.
* `OpeningQuote.lex_interpolated`: the token at an opening quote.
-/

namespace PhpOutline

/-- The strings in double quotes or backticks, from behind the opening quote on. -/
def Lexeme.Interpolated (q : Char) (w : List UInt8) : Prop := Closes (.interpolated q) w

/-- A place of a source in code at which a quote opens a string with interpolations. -/
structure OpeningQuote (o : Options) (source : Text) where
  /-- The pieces in front of the place. -/
  before : List Piece
  /-- The pieces from the place on. -/
  after : List Piece
  quote : Char
  /-- The text behind the quote. -/
  rest : Text
  cut : pieces o.shortOpenTags (.initial o) (unmarked source) = before ++ after
  code : ∃ a, modeAfter (.initial o) before = .code a
  quote_eq : quote = '"' ∨ quote = '\x60'
  text_eq : textOf after = quote :: rest

/-- The tokens and diagnostics of a source with a string between some pieces: besides those of the
pieces there is the token of the string, and its fault if it has one. -/
structure Lexed.HasString (l : Lexed) (before : List Piece) (text : Text) (fault : Option Fault)
    (behind : List Piece) : Prop where
  tokens : l.tokens = placed 1 0 before ++
    ⟨.string, text, 1 + (textOf before).newlines, (textOf before).byteSize⟩ ::
      placed (1 + (textOf before ++ text).newlines) (textOf before ++ text).byteSize behind
  diagnostics : l.diagnostics = faults 1 before ++
    (fault.toList.map (⟨·, 1 + (textOf before).newlines⟩) ++
      faults (1 + (textOf before ++ text).newlines) behind)

theorem hasString_of_pieces {o : Options} {source text : Text} {before behind : List Piece}
    {fault : Option Fault} (h : pieces o.shortOpenTags (.initial o) (unmarked source) =
      before ++ .token .string text fault :: behind) :
    (lex o source).HasString before text fault behind := by
  constructor
  · rw [lex, h, placed_append, placed, Text.newlines_append, Text.byteSize_append, Nat.zero_add,
      Nat.add_assoc]
  · rw [lex, h, faults_append, faults, Text.newlines_append, Nat.add_assoc]
    rfl

namespace OpeningQuote

variable {o : Options} {source : Text} (x : OpeningQuote o source)

open Lexeme

theorem after_eq : x.after = (readQuoted (.interpolated x.quote) x.rest).piece x.quote x.rest ::
    pieces o.shortOpenTags (.code false) (x.rest.drop
      ((readQuoted (.interpolated x.quote) x.rest).claims x.rest)) := by
  obtain ⟨a, ha⟩ := x.code
  have hread : Lexeme.read o.shortOpenTags (.code a) x.quote x.rest =
      readQuoted (.interpolated x.quote) x.rest := by
    rcases x.quote_eq with h | h <;> rw [h] <;> rfl
  have hmode : (readQuoted (.interpolated x.quote) x.rest).mode (.code a) = .code false := by
    rw [readQuoted]
    split <;> rfl
  rw [pieces_of_append x.cut, ha, x.text_eq, pieces_cons, hread, hmode]

theorem proper : ∀ f ∈ [Frame.interpolated x.quote], f.Proper := by
  simpa [Frame.Proper] using x.quote_eq

/-- Of the text behind the quote, what belongs to the string is known by its size. -/
theorem interpolated_iff {p : List UInt8} (hp : p <+: x.rest.bytes) :
    Interpolated x.quote p ↔ quotedSize? [.interpolated x.quote] x.rest = some p.length := by
  rw [Interpolated, ← closesAll_singleton]
  exact endsAlike x.proper x.rest p hp

/-- Two prefixes of one text that belong to the string are the same. -/
theorem eq_of_interpolated {p p' : List UInt8} (hp : p <+: x.rest.bytes)
    (hp' : p' <+: x.rest.bytes) (h : Interpolated x.quote p) (h' : Interpolated x.quote p') :
    p = p' := by
  rw [x.interpolated_iff hp] at h
  rw [x.interpolated_iff hp', h, Option.some_inj] at h'
  exact (List.prefix_of_prefix_length_le hp hp' h'.le).eq_of_length h'

/-- The characters up to the end that the reader finds belong to the string. -/
theorem interpolated_take {n : Nat}
    (hend : quotedEnd? [.interpolated x.quote] x.rest = some n) :
    Interpolated x.quote (Text.bytes (x.rest.take n)) := by
  rw [x.interpolated_iff (Text.bytes_take_prefix x.rest n), quotedSize?, hend, Text.length_bytes]
  rfl

theorem after_of_interpolated {p : List UInt8} (hp : p <+: x.rest.bytes)
    (h : Interpolated x.quote p) :
    ∃ text behind, Text.bytes text = p ∧
      x.after = .token .string (x.quote :: text) none :: behind := by
  have hafter := x.after_eq
  cases hend : quotedEnd? [.interpolated x.quote] x.rest with
  | none =>
    rw [x.interpolated_iff hp, quotedSize?, hend] at h
    cases h
  | some n =>
    rw [readQuoted, hend] at hafter
    refine ⟨x.rest.take n, _, ?_, hafter⟩
    exact x.eq_of_interpolated (Text.bytes_take_prefix x.rest n) hp (x.interpolated_take hend) h

theorem after_of_not_interpolated (h : ∀ p, p <+: x.rest.bytes → ¬ Interpolated x.quote p) :
    x.after = [.token .string (x.quote :: x.rest) (some .unterminatedString)] := by
  have hafter := x.after_eq
  cases hend : quotedEnd? [.interpolated x.quote] x.rest with
  | none =>
    rw [readQuoted, hend] at hafter
    simpa [Reading.piece, Reading.claims] using hafter
  | some n => exact absurd (x.interpolated_take hend) (h _ (Text.bytes_take_prefix x.rest n))

/-- Behind an opening quote, at most one prefix of the text belongs to the string. Where there is
one, the token ends with it and has no fault; otherwise it takes the rest of the source, and the
diagnostic says so. -/
theorem lex_interpolated :
    (∀ p p', p <+: x.rest.bytes → p' <+: x.rest.bytes → Interpolated x.quote p →
      Interpolated x.quote p' → p = p') ∧
    (∀ p, p <+: x.rest.bytes → Interpolated x.quote p →
      ∃ text behind, Text.bytes text = p ∧
        x.after = .token .string (x.quote :: text) none :: behind ∧
        (lex o source).HasString x.before (x.quote :: text) none behind) ∧
    ((∀ p, p <+: x.rest.bytes → ¬ Interpolated x.quote p) →
      x.after = [.token .string (x.quote :: x.rest) (some .unterminatedString)] ∧
      (lex o source).HasString x.before (x.quote :: x.rest) (some .unterminatedString) []) := by
  refine ⟨fun p p' hp hp' h h' => x.eq_of_interpolated hp hp' h h', ?_, ?_⟩
  · intro p hp h
    obtain ⟨text, behind, htext, hafter⟩ := x.after_of_interpolated hp h
    exact ⟨text, behind, htext, hafter, hasString_of_pieces (hafter ▸ x.cut)⟩
  · intro h
    have hafter := x.after_of_not_interpolated h
    exact ⟨hafter, hasString_of_pieces (hafter ▸ x.cut)⟩

end OpeningQuote

/-- A string with an escaped quote and an interpolation. -/
def innerString : Text := "\"\\\"{$c}\"".toList

/-- The rest of a string with a character beyond ASCII, an interpolation that holds a brace in
single quotes and a string with an interpolation, and an escaped brace. -/
def nestedTail : Text :=
  "é".toList ++ '{' :: ("$b['".toList ++ '}' ::
    ("'].".toList ++ innerString ++ ['}', '\\', '{', '"']))

/-- A source with that string. -/
def nestedSource : Text := "<?=\"".toList ++ (nestedTail ++ [';'])

/-- The place of the string. -/
def nestedQuote : OpeningQuote {} nestedSource where
  before := [.token .openTag "<?=".toList none]
  after := [.token .string ('"' :: nestedTail) none, .token .semicolon [';'] none]
  quote := '"'
  rest := nestedTail ++ [';']
  cut := by decide +kernel
  code := ⟨false, rfl⟩
  quote_eq := .inl rfl
  text_eq := by decide +kernel

/-- The whole of the string is in the grammar, and is the token. -/
theorem OpeningQuote.lex_interpolated_nested :
    Lexeme.Interpolated '"' nestedTail.bytes ∧ ∃ text behind, Text.bytes text = nestedTail.bytes ∧
      nestedQuote.after = .token .string ('"' :: text) none :: behind ∧
      (lex {} nestedSource).HasString nestedQuote.before ('"' :: text) none behind := by
  have hprefix : nestedTail.bytes <+: Text.bytes nestedQuote.rest :=
    ⟨Text.bytes [';'], (Text.bytes_append _ _).symm⟩
  have hstring : Lexeme.Interpolated '"' nestedTail.bytes :=
    (nestedQuote.interpolated_iff hprefix).2 (by decide +kernel)
  exact ⟨hstring, nestedQuote.lex_interpolated.2.1 _ hprefix hstring⟩

example : (lex {} ("<?=`".toList ++ '{' :: "$a`".toList)).diagnostics =
    [⟨.unterminatedString, 1⟩] := by
  decide +kernel

end PhpOutline
