import PhpOutline.Proofs.Outline.Parts

/-!
# Slices of a file

What is read of a file is cut from its text between two tokens. Such slices fit together: the text
of a span is that of its first token, what stands behind it, and that of its last token, and behind
every token it can be cut in two. Between the two parts stand the characters that no token has.

## Main definitions

* `SourceFile.leftOut`: the characters of a file that lie in no token.
* `SourceFile.SlicesCompose`: how the slices of a file fit together.

## Main statements

* `Text.slice_append_slice`: slices side by side.
* `SourceFile.slice_eq_leftOut`: between two tokens that follow each other stands what is left out.
* `SourceFile.slicesCompose`: the slices of every file.
-/

namespace PhpOutline

/-! ## Slices side by side -/

namespace Text

theorem IsBoundary.isValid {s : Text} {i : Nat} (h : s.IsBoundary i) :
    String.Pos.Raw.IsValid s.shown ⟨i⟩ := by
  obtain ⟨a, b, rfl, rfl⟩ := h
  exact isValid_byteSize a b

/-- A slice of a text begins and ends in it, between two of its characters. -/
structure Cuts (s : Text) (first stop : Nat) : Prop where
  ordered : first ≤ stop
  first : String.Pos.Raw.IsValid s.shown ⟨first⟩
  stop : String.Pos.Raw.IsValid s.shown ⟨stop⟩

/-- Between two boundaries lies the middle one of three parts of a text. -/
theorem IsBoundary.exists_append {s : Text} {i j : Nat} (hi : s.IsBoundary i) (hj : s.IsBoundary j)
    (hij : i ≤ j) :
    ∃ a b c, s = a ++ b ++ c ∧ byteSize a = i ∧ byteSize (a ++ b) = j ∧ s.slice i j = b := by
  obtain ⟨a, a', ha, rfl⟩ := hi
  obtain ⟨c, c', hc, rfl⟩ := hj
  obtain ⟨b, rfl⟩ := exists_eq_append_of_byteSize_le (ha.symm.trans hc) hij
  refine ⟨a, b, c', hc, rfl, rfl, ?_⟩
  rw [hc, byteSize_append]
  exact slice_append a b c'

/-- Two slices side by side are one slice. -/
theorem slice_append_slice {s : Text} {i j k : Nat} (hi : s.IsBoundary i) (hj : s.IsBoundary j)
    (hk : s.IsBoundary k) (hij : i ≤ j) (hjk : j ≤ k) :
    s.slice i j ++ s.slice j k = s.slice i k := by
  obtain ⟨a, b, b', hb, rfl, rfl, hfirst⟩ := hi.exists_append hj hij
  obtain ⟨c, c', hc, rfl⟩ := hk
  obtain ⟨d, rfl⟩ := exists_eq_append_of_byteSize_le (hb.symm.trans hc) hjk
  have hsecond : s.slice (byteSize (a ++ b)) (byteSize (a ++ b ++ d)) = d := by
    rw [hc, byteSize_append (a ++ b) d]
    exact slice_append (a ++ b) d c'
  have hwhole : s.slice (byteSize a) (byteSize (a ++ b ++ d)) = b ++ d := by
    rw [hc, List.append_assoc a b d, byteSize_append a (b ++ d)]
    exact slice_append a (b ++ d) c'
  rw [hfirst, hsecond, hwhole]

/-- A text in ASCII control characters is told by its bytes. -/
theorem map_bytes_of_isControlByte {s : Text}
    (h : ∀ b ∈ s.bytes, Lexed.isControlByte b = true) :
    s.bytes.map (fun b => Char.ofNat b.toNat) = s := by
  induction s with
  | nil => rfl
  | cons c s ih =>
    have hfirst : ∀ b ∈ String.utf8EncodeChar c, b.toNat < 128 := by
      intro b hb
      have hcontrol := h b (by simp [hb])
      simp only [Lexed.isControlByte, Bool.or_eq_true, decide_eq_true_eq, beq_iff_eq] at hcontrol
      omega
    have hc : c.toNat < 128 := by
      refine Nat.lt_of_not_le ?_
      intro hle
      obtain ⟨b, hb⟩ := List.exists_mem_of_ne_nil _ (@String.utf8EncodeChar_ne_nil c)
      exact absurd (hfirst b hb) (Nat.not_lt.2 (le_of_mem_utf8EncodeChar hle hb))
    rw [bytes_cons, utf8EncodeChar_of_lt hc, List.singleton_append, List.map_cons,
      toNat_toUInt8 hc, Char.ofNat_toNat, ih fun b hb => h b (by simp [hb])]

end Text

theorem Token.offset_le_stop (t : Token) : t.offset ≤ t.stop := Nat.le_add_right _ _

/-! ## What no token has -/

namespace Lexed

/-- The uncovered bytes that stand in the middle one of three runs. -/
theorem filter_uncoveredIn (ts : List Token) (a b c : List UInt8) :
    (uncoveredIn ts 0 (a ++ b ++ c)).filter
        (fun p => decide (a.length ≤ p.2) && decide (p.2 < (a ++ b).length)) =
      uncoveredIn ts a.length b := by
  have hbounds : ∀ {i : Nat} {bs : List UInt8} {p}, p ∈ uncoveredIn ts i bs →
      i ≤ p.2 ∧ p.2 < i + bs.length := by
    intro i bs p hp
    have hp := (List.mem_filter.1 hp).1
    exact ⟨List.le_snd_of_mem_zipIdx hp, List.snd_lt_add_of_mem_zipIdx hp⟩
  rw [uncoveredIn_append, uncoveredIn_append, List.filter_append, List.filter_append,
    List.filter_eq_nil_iff.2, List.filter_eq_self.2, List.filter_eq_nil_iff.2, List.nil_append,
    List.append_nil, Nat.zero_add]
  all_goals
    intro p hp
    obtain ⟨hle, hlt⟩ := hbounds hp
    rw [List.length_append] at *
    rw [Bool.and_eq_true, decide_eq_true_eq, decide_eq_true_eq]
    omega

end Lexed

namespace SourceFile

/-- The characters of a file that lie in no token, from one place of its text up to, and without,
another one. Only control characters are left out, and each of them is a single byte. -/
def leftOut (f : SourceFile) (first stop : Nat) : Text :=
  ((Lexed.uncoveredIn f.table.tokens 0 f.table.source.bytes).filter fun p =>
    decide (first ≤ p.2) && decide (p.2 < stop)).map fun p => Char.ofNat p.1.toNat

/-- The characters that are left out between the token at a place and the next one. -/
def leftOutBehind (f : SourceFile) (i : Nat) : Text :=
  match f.table.get? i, f.table.get? (i + 1) with
  | some x, some y => f.leftOut x.stop y.offset
  | _, _ => []

/-- How the slices of a file fit together. -/
structure SlicesCompose (f : SourceFile) : Prop where
  /-- The text of a span, and what stands between two tokens, begin and end between characters of
  the file. -/
  cuts : ∀ i j x y, i ≤ j → f.table.get? i = some x → f.table.get? j = some y →
    f.table.source.Cuts x.offset y.stop ∧ (i < j → f.table.source.Cuts x.stop y.offset)
  /-- A span has its first token, what stands between, and its last token. -/
  ends : ∀ i j, i < j → j < f.table.size →
    f.table.sourceOf (.ofBounds i j) = f.table.text i ++ f.table.sourceBetween i j ++ f.table.text j
  /-- Behind each of its tokens, a span is cut in two. -/
  split : ∀ i m j, i ≤ m → m < j → j < f.table.size →
    f.table.sourceOf (.ofBounds i j) =
      f.table.sourceOf (.ofBounds i m) ++ f.leftOutBehind m ++
        f.table.sourceOf (.ofBounds (m + 1) j)
  /-- Nothing but control characters is left out. -/
  control : ∀ i, ∀ c ∈ f.leftOutBehind i, Lexeme.isControl c = true

variable {o : Options} {source : Text}

theorem isControl_of_mem_uncoveredIn {p : UInt8 × Nat}
    (h : p ∈ Lexed.uncoveredIn (ofSource o source).table.tokens 0
      (ofSource o source).table.source.bytes) :
    ∃ c, Lexeme.isControl c = true ∧ p.1 = c.toUInt8 := by
  rw [table_ofSource, TokenTable.ofPieces, uncoveredIn_placed 1 0 fun _ => isControl_of_stray_mem]
    at h
  obtain ⟨⟨c, i⟩, hmem, rfl⟩ := List.mem_map.1 h
  have hc := List.mem_map_of_mem (f := Prod.fst) hmem
  rw [map_fst_strayPlaces] at hc
  exact ⟨c, isControl_of_mem_strays hc, rfl⟩

theorem isControl_of_mem_leftOut {i j : Nat} {c : Char}
    (h : c ∈ (ofSource o source).leftOut i j) : Lexeme.isControl c = true := by
  obtain ⟨p, hp, rfl⟩ := List.mem_map.1 h
  obtain ⟨c, hc, hbyte⟩ := isControl_of_mem_uncoveredIn (List.mem_of_mem_filter hp)
  rw [hbyte, (isControlByte_toUInt8 hc).2]
  exact hc

section

variable {i j m : Nat} {x y : Token}

theorem isBoundary_of_get? (h : (ofSource o source).table.get? i = some x) :
    (ofSource o source).table.source.IsBoundary x.offset ∧
      (ofSource o source).table.source.IsBoundary x.stop := by
  obtain ⟨x', hx', hbounds⟩ := exists_get? (List.getElem?_eq_some_iff.1 h).1
  obtain rfl := Option.some.inj (hx'.symm.trans h)
  exact hbounds

/-- The text of a token is what stands at its place. -/
theorem slice_of_get? (h : (ofSource o source).table.get? i = some x) :
    (ofSource o source).table.source.slice x.offset x.stop = x.text := by
  have hmem := List.mem_of_getElem? h
  rw [table_ofSource] at hmem ⊢
  obtain ⟨a, b, hs, hoffset⟩ := textOf_eq_of_mem_placed hmem
  rw [TokenTable.ofPieces, hs, Token.stop, hoffset]
  exact Text.slice_append a x.text b

/-- No other token reaches between two that follow each other. -/
theorem stop_le_or_le_offset (hx : (ofSource o source).table.get? m = some x)
    (hy : (ofSource o source).table.get? (m + 1) = some y) {z : Token}
    (hz : z ∈ (ofSource o source).table.tokens) : z.stop ≤ x.stop ∨ y.offset ≤ z.offset := by
  obtain ⟨k, hk⟩ := List.mem_iff_getElem?.1 hz
  rcases Nat.lt_or_ge m k with hlt | hle
  · exact .inr (offset_le hlt hy hk).1
  · exact .inl (offset_le hle hk hx).2.1

/-- Between two tokens that follow each other stands what is left out. -/
theorem slice_eq_leftOut (hx : (ofSource o source).table.get? m = some x)
    (hy : (ofSource o source).table.get? (m + 1) = some y) :
    (ofSource o source).table.source.slice x.stop y.offset =
      (ofSource o source).leftOut x.stop y.offset := by
  obtain ⟨a, b, c, hsource, hstop, hoffset, hslice⟩ := (isBoundary_of_get? hx).2.exists_append
    (isBoundary_of_get? hy).1 ((offset_le (Nat.le_succ m) hx hy).2.2 (Nat.lt_succ_self m))
  have hbetween : (Lexed.uncoveredIn (ofSource o source).table.tokens 0
      (ofSource o source).table.source.bytes).filter (fun p =>
        decide (x.stop ≤ p.2) && decide (p.2 < y.offset)) = b.bytes.zipIdx x.stop := by
    rw [← hstop, ← hoffset, hsource, Text.bytes_append, Text.bytes_append, ← Text.length_bytes,
      ← Text.length_bytes, Text.bytes_append, Lexed.filter_uncoveredIn, Lexed.uncoveredIn_eq_zipIdx]
    intro z hz
    rw [Text.length_bytes, Text.length_bytes, hstop, ← hstop, ← Text.byteSize_append, hoffset,
      hstop]
    exact stop_le_or_le_offset hx hy hz
  have hcontrol : ∀ byte ∈ b.bytes, Lexed.isControlByte byte = true := by
    intro byte hbyte
    rw [← List.zipIdx_map_fst x.stop b.bytes, ← hbetween] at hbyte
    obtain ⟨p, hp, rfl⟩ := List.mem_map.1 hbyte
    obtain ⟨d, hd, hp⟩ := isControl_of_mem_uncoveredIn (List.mem_of_mem_filter hp)
    rw [hp]
    exact (isControlByte_toUInt8 hd).1
  have hmap : (b.bytes.zipIdx x.stop).map (fun p => Char.ofNat p.1.toNat) =
      ((b.bytes.zipIdx x.stop).map Prod.fst).map fun byte => Char.ofNat byte.toNat := by
    rw [List.map_map]
    rfl
  rw [hslice, leftOut, hbetween, hmap, List.zipIdx_map_fst,
    Text.map_bytes_of_isControlByte hcontrol]

end

/-- The slices of every file lie in it and fit together. -/
theorem slicesCompose (o : Options) (source : Text) : (ofSource o source).SlicesCompose := by
  constructor
  case cuts =>
    intro i j x y hij hx hy
    obtain ⟨hxOffset, hxStop⟩ := isBoundary_of_get? hx
    obtain ⟨hyOffset, hyStop⟩ := isBoundary_of_get? hy
    obtain ⟨hoffset, -, hlt⟩ := offset_le hij hx hy
    constructor
    · exact ⟨Nat.le_trans hoffset y.offset_le_stop, hxOffset.isValid, hyStop.isValid⟩
    · exact fun h => ⟨hlt h, hxStop.isValid, hyOffset.isValid⟩
  case ends =>
    intro i j hij hj
    obtain ⟨x, hx, hxOffset, hxStop⟩ := @exists_get? o source i (by omega)
    obtain ⟨y, hy, hyOffset, hyStop⟩ := exists_get? hj
    have hle := (offset_le hij.le hx hy).2.2 hij
    have hmax : max i j = j := Nat.max_eq_right hij.le
    simp only [TokenTable.sourceOf, TokenTable.sourceBetween, TokenTable.text, Span.first_ofBounds,
      Span.last_ofBounds, hmax, hx, hy, if_pos hle, Option.map_some, Option.getD_some]
    rw [← slice_of_get? hx, ← slice_of_get? hy,
      Text.slice_append_slice hxOffset hxStop hyOffset x.offset_le_stop hle,
      Text.slice_append_slice hxOffset hyOffset hyStop (Nat.le_trans x.offset_le_stop hle)
        y.offset_le_stop]
  case split =>
    intro i m j him hmj hj
    obtain ⟨x, hx, hxOffset, hxStop⟩ := @exists_get? o source i (by omega)
    obtain ⟨u, hu, -, huStop⟩ := @exists_get? o source m (by omega)
    obtain ⟨v, hv, hvOffset, -⟩ := @exists_get? o source (m + 1) (by omega)
    obtain ⟨y, hy, -, hyStop⟩ := exists_get? hj
    have hfirst : x.offset ≤ u.stop := Nat.le_trans (offset_le him hx hu).1 u.offset_le_stop
    have hmiddle : u.stop ≤ v.offset :=
      (offset_le (Nat.le_succ m) hu hv).2.2 (Nat.lt_succ_self m)
    have hlast : v.offset ≤ y.stop := Nat.le_trans (offset_le hmj hv hy).1 y.offset_le_stop
    have hmax : max i j = j ∧ max i m = m ∧ max (m + 1) j = j := by omega
    simp only [TokenTable.sourceOf, leftOutBehind, Span.first_ofBounds, Span.last_ofBounds, hmax,
      hx, hu, hv, hy]
    rw [← slice_eq_leftOut hu hv, Text.slice_append_slice hxOffset huStop hvOffset hfirst hmiddle,
      Text.slice_append_slice hxOffset hvOffset hyStop (Nat.le_trans hfirst hmiddle) hlast]
  case control =>
    intro i c hc
    rw [leftOutBehind] at hc
    split at hc
    · exact isControl_of_mem_leftOut hc
    · simp at hc

/-- A control character between two words is left out. -/
example : (ofSource {} "<?php a\x01b".toList).leftOutBehind 1 = ['\x01'] := by
  decide +kernel

end SourceFile

end PhpOutline
