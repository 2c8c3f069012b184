import PhpOutline.Proofs.Lexing.Placement

/-!
# Nothing is lost

The tokens of a source are cut out of it in order and without overlap, and every byte that lies in
none of them is a control character that a diagnostic names. Places are byte offsets of the UTF-8
encoding, so the statement counts bytes and not characters.

## Main definitions

* `Text.bytes`: the UTF-8 encoding of a text.
* `Lexed.uncovered`: the bytes of a source that lie in no token.
* `Lexed.Lossless`: what it means that nothing is lost.

## Main statements

* `Text.utf8EncodeChar_of_lt`, `Text.le_of_mem_utf8EncodeChar`: the bytes of characters in ASCII and
  beyond.
* `lex_lossless`: cutting a source into tokens loses nothing.
-/

namespace PhpOutline

namespace Text

/-- The UTF-8 encoding of a text, byte by byte. -/
def bytes (s : Text) : List UInt8 := s.flatMap String.utf8EncodeChar

@[simp] theorem bytes_nil : bytes [] = [] := rfl

@[simp] theorem bytes_cons (c : Char) (s : Text) :
    bytes (c :: s) = String.utf8EncodeChar c ++ bytes s := by
  simp [bytes]

@[simp] theorem bytes_append (s t : Text) : bytes (s ++ t) = bytes s ++ bytes t := by
  simp [bytes]

@[simp] theorem length_bytes (s : Text) : (bytes s).length = byteSize s := by
  induction s with
  | nil => rfl
  | cons c s ih => simp [ih]

theorem utf8ByteSize_shown (s : Text) : s.shown.utf8ByteSize = byteSize s := by
  induction s with
  | nil => rfl
  | cons c s ih =>
    rw [shown, String.ofList_cons, String.utf8ByteSize_append, String.utf8ByteSize_singleton,
      byteSize_cons, ← ih, shown]

/-- The encoding of an ASCII character is one byte. -/
theorem utf8EncodeChar_of_lt {c : Char} (h : c.toNat < 128) :
    String.utf8EncodeChar c = [c.toUInt8] := by
  have hs : c.utf8Size = 1 := by
    rw [Char.utf8Size_eq_one_iff, UInt32.le_iff_toNat_le]
    exact Nat.le_of_lt_succ h
  rw [String.utf8EncodeChar_eq_singleton hs]
  rfl

theorem toNat_toUInt8 {c : Char} (h : c.toNat < 128) : c.toUInt8.toNat = c.toNat := by
  rw [Char.toUInt8, UInt32.toNat_toUInt8]
  exact Nat.mod_eq_of_lt (show c.toNat < 256 by omega)

theorem toUInt8_inj {c d : Char} (hc : c.toNat < 128) (hd : d.toNat < 128) :
    c.toUInt8 = d.toUInt8 ↔ c = d := by
  rw [← UInt8.toNat_inj, toNat_toUInt8 hc, toNat_toUInt8 hd, Char.toNat_inj]

/-- The bytes of a character beyond ASCII are higher than those of ASCII characters. -/
theorem le_of_mem_utf8EncodeChar {c : Char} (h : 128 ≤ c.toNat) {b : UInt8}
    (hb : b ∈ String.utf8EncodeChar c) : 128 ≤ b.toNat := by
  have hval : 128 ≤ c.val.toNat := h
  have hbyte : ∀ n k, 128 ≤ k → k + n < 256 → 128 ≤ (UInt8.ofNat (n + k)).toNat := by
    intro n k hk hlt
    rw [UInt8.toNat_ofNat']
    omega
  simp only [String.utf8EncodeChar] at hb
  split at hb
  · omega
  · split at hb
    · simp only [List.mem_cons, List.not_mem_nil, or_false] at hb
      rcases hb with rfl | rfl <;> apply hbyte <;> omega
    · split at hb
      · simp only [List.mem_cons, List.not_mem_nil, or_false] at hb
        rcases hb with rfl | rfl | rfl <;> apply hbyte <;> omega
      · simp only [List.mem_cons, List.not_mem_nil, or_false] at hb
        rcases hb with rfl | rfl | rfl | rfl <;> apply hbyte <;> omega

/-- Behind a leading part of a text, a character ends. -/
theorem isValid_byteSize (a b : Text) :
    String.Pos.Raw.IsValid (a ++ b).shown ⟨byteSize a⟩ := by
  rw [String.Pos.Raw.isValid_iff_exists_append]
  refine ⟨a.shown, b.shown, by simp [shown], ?_⟩
  rw [String.Pos.Raw.ext_iff, String.byteIdx_rawEndPos, utf8ByteSize_shown]

end Text

/-- The byte that a control character is. -/
theorem Lexeme.utf8EncodeChar_of_isControl {c : Char} (h : isControl c = true) :
    String.utf8EncodeChar c = [c.toUInt8] := by
  apply Text.utf8EncodeChar_of_lt
  simp only [isControl, Bool.or_eq_true, decide_eq_true_eq, beq_iff_eq] at h
  omega

/-- The character that a diagnostic reports as left out. -/
def Diagnostic.unexpected? (d : Diagnostic) : Option Char :=
  match d.fault with
  | .unexpectedCharacter c => some c
  | _ => none

theorem Diagnostic.unexpected?_eq_none {d : Diagnostic}
    (h : ∀ c, d.fault ≠ .unexpectedCharacter c) : d.unexpected? = none := by
  rw [unexpected?]
  split
  · rename_i c hc
    exact absurd hc (h c)
  · rfl

namespace Lexed

/-- Whether the byte at place `i` lies in one of some tokens. -/
def covers (ts : List Token) (i : Nat) : Bool := ts.any fun t => t.offset ≤ i && i < t.stop

/-- The bytes of a run, of which the first has place `i`, that lie in none of some tokens. -/
def uncoveredFrom (ts : List Token) (i : Nat) (bs : List UInt8) : List UInt8 :=
  ((bs.zipIdx i).filter fun p => !covers ts p.2).map Prod.fst

/-- The bytes of a source that lie in no token, in order. -/
def uncovered (l : Lexed) (source : Text) : List UInt8 := uncoveredFrom l.tokens 0 source.bytes

/-- The ASCII control bytes. -/
def isControlByte (b : UInt8) : Bool := b.toNat < 0x20 || b.toNat == 0x7F

/-- The tokens and diagnostics account for every byte of a source. -/
structure Lossless (source : Text) (l : Lexed) : Prop where
  /-- No token is empty. -/
  nonempty : ∀ t ∈ l.tokens, t.text ≠ []
  /-- Tokens stand in order and do not overlap. -/
  ordered : l.tokens.Pairwise fun a b => a.offset < b.offset ∧ a.stop ≤ b.offset
  /-- Tokens begin and end between characters. -/
  boundaries : ∀ t ∈ l.tokens, String.Pos.Raw.IsValid source.shown ⟨t.offset⟩ ∧
    String.Pos.Raw.IsValid source.shown ⟨t.stop⟩
  /-- The text of a token is what stands in the source at its place. -/
  text_eq : ∀ t ∈ l.tokens, source.slice t.offset t.stop = t.text
  /-- What lies in no token is a control byte. -/
  control : ∀ b ∈ l.uncovered source, isControlByte b = true
  /-- What lies in no token is what the diagnostics report as left out. -/
  reported : (l.uncovered source).map (fun b => Char.ofNat b.toNat) =
    l.diagnostics.filterMap Diagnostic.unexpected?
  /-- When nothing is left out, the tokens make up the source. -/
  joined : l.diagnostics.filterMap Diagnostic.unexpected? = [] →
    l.tokens.flatMap Token.text = source

end Lexed

/-! ## Tokens in their places -/

theorem text_ne_nil_of_mem_placed {line offset : Nat} {ps : List Piece} {t : Token}
    (hp : ∀ p ∈ ps, p.text ≠ []) (h : t ∈ placed line offset ps) : t.text ≠ [] := by
  obtain ⟨before, fault, after, rfl, -⟩ := mem_placed h
  exact hp (.token t.kind t.text fault) (by simp)

theorem pairwise_placed {line offset : Nat} {ps : List Piece} (hp : ∀ p ∈ ps, p.text ≠ []) :
    (placed line offset ps).Pairwise fun a b => a.offset < b.offset ∧ a.stop ≤ b.offset := by
  induction ps generalizing line offset with
  | nil => simp [placed]
  | cons p ps ih =>
    have hps : ∀ p ∈ ps, p.text ≠ [] := fun q hq => hp q (by simp [hq])
    cases p with
    | token kind text fault =>
      rw [placed, List.pairwise_cons]
      refine ⟨?_, ih hps⟩
      intro t ht
      have htext : 0 < text.byteSize := Text.byteSize_pos (hp (.token kind text fault) (by simp))
      have hle := offset_le_of_mem_placed ht
      simp only [Token.stop]
      omega
    | stray c => exact ih hps

/-- A token splits the text of the pieces into what stands before it, itself, and the rest. -/
theorem textOf_eq_of_mem_placed {ps : List Piece} {t : Token} {line : Nat}
    (h : t ∈ placed line 0 ps) :
    ∃ a b, textOf ps = a ++ t.text ++ b ∧ t.offset = a.byteSize := by
  obtain ⟨before, fault, after, rfl, ht⟩ := mem_placed h
  exact ⟨textOf before, textOf after, by simp [Piece.text], by omega⟩

/-! ## Bytes outside the tokens -/

namespace Lexed

/-- The bytes of a run, of which the first has place `i`, that lie in none of some tokens, each with
its place. -/
def uncoveredIn (ts : List Token) (i : Nat) (bs : List UInt8) : List (UInt8 × Nat) :=
  (bs.zipIdx i).filter fun p => !covers ts p.2

theorem uncoveredIn_append (ts : List Token) (i : Nat) (bs cs : List UInt8) :
    uncoveredIn ts i (bs ++ cs) = uncoveredIn ts i bs ++ uncoveredIn ts (i + bs.length) cs := by
  simp [uncoveredIn, List.zipIdx_append]

/-- Bytes that all lie in one of the tokens leave nothing uncovered. -/
theorem uncoveredIn_eq_nil {ts : List Token} {i : Nat} {bs : List UInt8} {t : Token}
    (ht : t ∈ ts) (hfirst : t.offset ≤ i) (hlast : i + bs.length ≤ t.stop) :
    uncoveredIn ts i bs = [] := by
  rw [uncoveredIn, List.filter_eq_nil_iff]
  rintro ⟨b, j⟩ hj
  have hi := List.le_snd_of_mem_zipIdx hj
  have hj' := List.snd_lt_add_of_mem_zipIdx hj
  have : covers ts j = true := by
    rw [covers, List.any_eq_true]
    exact ⟨t, ht, by simp only [Bool.and_eq_true, decide_eq_true_eq]; omega⟩
  simp [this]

/-- A token that ends before some bytes covers none of them. -/
theorem uncoveredIn_cons {ts : List Token} {i : Nat} {bs : List UInt8} {t : Token}
    (h : t.stop ≤ i) : uncoveredIn (t :: ts) i bs = uncoveredIn ts i bs := by
  rw [uncoveredIn, uncoveredIn]
  apply List.filter_congr
  rintro ⟨b, j⟩ hj
  have hi := List.le_snd_of_mem_zipIdx hj
  have : ¬ j < t.stop := by omega
  simp [covers, this]

/-- No byte between two tokens that follow each other is covered. -/
theorem uncoveredIn_eq_zipIdx {ts : List Token} {i : Nat} {bs : List UInt8}
    (h : ∀ t ∈ ts, t.stop ≤ i ∨ i + bs.length ≤ t.offset) : uncoveredIn ts i bs = bs.zipIdx i := by
  rw [uncoveredIn, List.filter_eq_self]
  rintro ⟨b, j⟩ hj
  have hi := List.le_snd_of_mem_zipIdx hj
  have hj' := List.snd_lt_add_of_mem_zipIdx hj
  have : covers ts j = false := by
    rw [covers, List.any_eq_false]
    intro t ht
    have := h t ht
    simp only [Bool.and_eq_true, decide_eq_true_eq]
    omega
  simp [this]

end Lexed

/-- The characters among pieces that begin no token. -/
def strays (ps : List Piece) : List Char :=
  ps.filterMap fun p => match p with
    | .stray c => some c
    | .token _ _ _ => none

theorem isControl_of_mem_strays {short : Bool} {m : Mode} {s : Text} {c : Char}
    (h : c ∈ strays (pieces short m s)) : Lexeme.isControl c = true := by
  simp only [strays, List.mem_filterMap] at h
  obtain ⟨p, hp, hc⟩ := h
  cases p with
  | stray d => exact isControl_of_stray_mem (Option.some.inj hc ▸ hp)
  | token _ _ _ => simp at hc

/-- The characters that begin no token among pieces of which the first begins at `offset`, each with
its place. -/
def strayPlaces : (offset : Nat) → List Piece → List (Char × Nat)
  | _, [] => []
  | offset, .token _ text _ :: ps => strayPlaces (offset + text.byteSize) ps
  | offset, .stray c :: ps => (c, offset) :: strayPlaces (offset + c.utf8Size) ps

theorem map_fst_strayPlaces (offset : Nat) (ps : List Piece) :
    (strayPlaces offset ps).map Prod.fst = strays ps := by
  induction ps generalizing offset with
  | nil => rfl
  | cons p ps ih =>
    cases p with
    | token kind text fault =>
      rw [strayPlaces, ih]
      rfl
    | stray c =>
      rw [strayPlaces, List.map_cons, ih]
      rfl

/-- The bytes outside the tokens are those of the characters that begin none, at their places. -/
theorem uncoveredIn_placed (line offset : Nat) {ps : List Piece}
    (hp : ∀ c, .stray c ∈ ps → Lexeme.isControl c = true) :
    Lexed.uncoveredIn (placed line offset ps) offset (textOf ps).bytes =
      (strayPlaces offset ps).map fun p => (p.1.toUInt8, p.2) := by
  induction ps generalizing line offset with
  | nil => simp [Lexed.uncoveredIn, strayPlaces]
  | cons p ps ih =>
    have hps : ∀ c, .stray c ∈ ps → Lexeme.isControl c = true := fun c hc => hp c (by simp [hc])
    rw [textOf_cons, Text.bytes_append, Lexed.uncoveredIn_append]
    cases p with
    | token kind text fault =>
      rw [placed, Lexed.uncoveredIn_eq_nil List.mem_cons_self (Nat.le_refl offset)
          (by simp [Token.stop, Piece.text]),
        Lexed.uncoveredIn_cons (by simp [Token.stop, Piece.text]), Text.length_bytes,
        List.nil_append, Piece.text, ih _ _ hps]
      rfl
    | stray c =>
      have hc := Lexeme.utf8EncodeChar_of_isControl (hp c (by simp))
      have hsize : c.utf8Size = 1 := by
        rw [← String.length_utf8EncodeChar, hc, List.length_singleton]
      have hfirst : ∀ t ∈ placed (line + Text.newlines [c]) (offset + c.utf8Size) ps,
          t.stop ≤ offset ∨ offset + [c.toUInt8].length ≤ t.offset := by
        intro t ht
        have := offset_le_of_mem_placed ht
        rw [List.length_singleton]
        omega
      rw [placed, Piece.text, Text.bytes_cons, Text.bytes_nil, List.append_nil, hc,
        Lexed.uncoveredIn_eq_zipIdx hfirst, List.length_singleton, strayPlaces]
      rw [hsize, ih _ _ hps]
      rfl

/-- The bytes outside the tokens are those of the characters that begin none. -/
theorem uncoveredFrom_placed (line offset : Nat) {ps : List Piece}
    (hp : ∀ c, .stray c ∈ ps → Lexeme.isControl c = true) :
    Lexed.uncoveredFrom (placed line offset ps) offset (textOf ps).bytes =
      (strays ps).map Char.toUInt8 := by
  change (Lexed.uncoveredIn _ _ _).map Prod.fst = _
  rw [uncoveredIn_placed line offset hp, ← map_fst_strayPlaces offset, List.map_map, List.map_map]
  rfl

/-- The diagnostic of a token reports no character as left out. -/
theorem Piece.unexpected?_eq_none {line : Nat} {kind : Kind} {text : Text} {fault : Option Fault}
    (h : ∀ f, fault = some f → ∀ c, f ≠ .unexpectedCharacter c) {d : Diagnostic}
    (hd : d ∈ (Piece.token kind text fault).fault?.toList.map (Diagnostic.mk · line)) :
    d.unexpected? = none := by
  obtain ⟨f, hf, rfl⟩ := List.mem_map.1 hd
  exact Diagnostic.unexpected?_eq_none (h f (Option.mem_toList.1 hf))

/-- The diagnostics report as left out the characters that begin no token. -/
theorem filterMap_unexpected?_faults {line : Nat} {ps : List Piece}
    (hp : ∀ kind text fault, .token kind text (some fault) ∈ ps →
      ∀ c, fault ≠ .unexpectedCharacter c) :
    (faults line ps).filterMap Diagnostic.unexpected? = strays ps := by
  induction ps generalizing line with
  | nil => rfl
  | cons p ps ih =>
    have hps : ∀ kind text fault, .token kind text (some fault) ∈ ps →
        ∀ c, fault ≠ .unexpectedCharacter c := by
      intro kind text fault h
      exact hp kind text fault (by simp [h])
    rw [faults, List.filterMap_append, ih hps]
    cases p with
    | stray c => rfl
    | token kind text fault =>
      have hfault : ∀ f, fault = some f → ∀ c, f ≠ .unexpectedCharacter c := by
        rintro f rfl
        exact hp kind text f List.mem_cons_self
      rw [List.filterMap_eq_nil_iff.2 fun d hd => Piece.unexpected?_eq_none hfault hd]
      rfl

/-- Pieces without a character that begins no token are made up of the tokens. -/
theorem flatMap_text_placed {line offset : Nat} {ps : List Piece} (h : strays ps = []) :
    (placed line offset ps).flatMap Token.text = textOf ps := by
  induction ps generalizing line offset with
  | nil => rfl
  | cons p ps ih =>
    cases p with
    | stray c => simp [strays] at h
    | token kind text fault =>
      rw [placed, List.flatMap_cons, textOf_cons, ih (by simpa [strays] using h), Piece.text]

theorem isControlByte_toUInt8 {c : Char} (h : Lexeme.isControl c = true) :
    Lexed.isControlByte c.toUInt8 = true ∧ Char.ofNat c.toUInt8.toNat = c := by
  have hc : c.toNat < 128 := by
    simp only [Lexeme.isControl, Bool.or_eq_true, decide_eq_true_eq, beq_iff_eq] at h
    omega
  have hb : c.toUInt8.toNat = c.toNat := Text.toNat_toUInt8 hc
  refine ⟨?_, by rw [hb, Char.ofNat_toNat]⟩
  rw [Lexed.isControlByte, hb]
  exact h

/-- Cutting a source into tokens loses nothing: the tokens are the source at their places, in order,
and what lies between them is what the diagnostics report as left out. -/
theorem lex_lossless (o : Options) (source : Text) : (lex o source).Lossless (unmarked source) := by
  have hstray : ∀ c ∈ strays (pieces o.shortOpenTags (.initial o) (unmarked source)),
      Lexeme.isControl c = true := by
    intro c hc
    exact isControl_of_mem_strays hc
  have hbytes : (lex o source).uncovered (unmarked source) =
      (strays (pieces o.shortOpenTags (.initial o) (unmarked source))).map Char.toUInt8 := by
    have hcontrol : ∀ c, .stray c ∈ pieces o.shortOpenTags (.initial o) (unmarked source) →
        Lexeme.isControl c = true := by
      intro c hc
      exact isControl_of_stray_mem hc
    have h := uncoveredFrom_placed 1 0 hcontrol
    rwa [textOf_pieces] at h
  have hfaults : (lex o source).diagnostics.filterMap Diagnostic.unexpected? =
      strays (pieces o.shortOpenTags (.initial o) (unmarked source)) :=
    filterMap_unexpected?_faults fun _ _ _ h => fault_ne_unexpected h
  constructor
  case nonempty =>
    intro t ht
    exact text_ne_nil_of_mem_placed (fun p hp => text_ne_nil_of_mem_pieces hp) ht
  case ordered => exact pairwise_placed fun p hp => text_ne_nil_of_mem_pieces hp
  case boundaries =>
    intro t ht
    obtain ⟨a, b, hs, hoff⟩ := textOf_eq_of_mem_placed ht
    rw [textOf_pieces] at hs
    rw [hs, Token.stop, hoff]
    constructor
    · rw [List.append_assoc]
      exact Text.isValid_byteSize a (t.text ++ b)
    · rw [← Text.byteSize_append]
      exact Text.isValid_byteSize (a ++ t.text) b
  case text_eq =>
    intro t ht
    obtain ⟨a, b, hs, hoff⟩ := textOf_eq_of_mem_placed ht
    rw [textOf_pieces] at hs
    rw [hs, Token.stop, hoff]
    exact Text.slice_append a t.text b
  case control =>
    rw [hbytes]
    intro b hb
    obtain ⟨c, hc, rfl⟩ := List.mem_map.1 hb
    exact (isControlByte_toUInt8 (hstray c hc)).1
  case reported =>
    rw [hbytes, hfaults, List.map_map]
    exact List.map_congr_left (fun c hc => (isControlByte_toUInt8 (hstray c hc)).2)
      |>.trans (List.map_id' _)
  case joined =>
    intro h
    rw [hfaults] at h
    rw [lex, flatMap_text_placed h, textOf_pieces]

end PhpOutline
