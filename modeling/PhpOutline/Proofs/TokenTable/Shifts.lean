import Mathlib.Data.List.TakeWhile
import PhpOutline.Declaration.Parameter
import PhpOutline.Proofs.Lookahead
import PhpOutline.Proofs.TokenTable.Extents

/-!
# Tables with tokens in common

Two tables have a run of tokens in common: one begins with it, the other has opening tags in front
of it and all its offsets greater by the size of those tags. Behind the run both have nothing that
is significant. Whatever is asked about places in the run has the same answer in both tables, with
every place later by the number of tags.

## Main definitions

* `Token.shifted`, `Entry.shifted`, `Span.shifted`: the same at a later place.
* `TokenTable.Shift`: two tables with tokens in common.

## Main statements

* `Entry.pieces_shifted`: the pieces of a list at a later place.
* `TokenTable.Shift.window_eq`: the entries in a window.
* `TokenTable.Shift.matchingClose?_eq`, `sourceOf_eq`, `docComment?_eq`: searches and texts.
-/

namespace PhpOutline

/-- The token with its offset greater by `d`. -/
def Token.shifted (d : Nat) (x : Token) : Token := { x with offset := x.offset + d }

@[simp] theorem Token.shifted_zero : Token.shifted 0 = id := rfl

@[simp] theorem Token.kind_shifted (d : Nat) (x : Token) : (x.shifted d).kind = x.kind := rfl

@[simp] theorem Token.text_shifted (d : Nat) (x : Token) : (x.shifted d).text = x.text := rfl

@[simp] theorem Token.line_shifted (d : Nat) (x : Token) : (x.shifted d).line = x.line := rfl

@[simp] theorem Token.offset_shifted (d : Nat) (x : Token) :
    (x.shifted d).offset = x.offset + d := rfl

@[simp] theorem Token.stop_shifted (d : Nat) (x : Token) : (x.shifted d).stop = x.stop + d :=
  Nat.add_right_comm _ _ _

namespace Span

/-- The span `k` places later. -/
def shifted (k : Nat) (s : Span) : Span :=
  ⟨s.first + k, s.last + k, Nat.add_le_add_right s.ordered k⟩

@[simp] theorem first_shifted (k : Nat) (s : Span) : (s.shifted k).first = s.first + k := rfl

@[simp] theorem last_shifted (k : Nat) (s : Span) : (s.shifted k).last = s.last + k := rfl

@[simp] theorem shifted_zero : shifted 0 = id := rfl

theorem ofBounds_add (k a b : Nat) : ofBounds (a + k) (b + k) = (ofBounds a b).shifted k := by
  simp only [ofBounds, shifted, Nat.add_max_add_right]

end Span

namespace Entry

/-- The entry `k` places later, with its offset greater by `d`. -/
def shifted (k d : Nat) (e : Entry) : Entry := ⟨e.toToken.shifted d, e.index + k⟩

variable {k d : Nat}

@[simp] theorem kind_shifted (e : Entry) : (e.shifted k d).kind = e.kind := rfl

@[simp] theorem text_shifted (e : Entry) : (e.shifted k d).text = e.text := rfl

@[simp] theorem index_shifted (e : Entry) : (e.shifted k d).index = e.index + k := rfl

theorem number_map_shifted (k d i : Nat) (ts : List Token) :
    number (i + k) (ts.map (Token.shifted d)) = (number i ts).map (shifted k d) := by
  induction ts generalizing i with
  | nil => rfl
  | cons x ts ih =>
    rw [List.map_cons, number_cons, number_cons, List.map_cons, ← ih (i + 1),
      Nat.add_right_comm i 1 k]
    rfl

/-! ## Readers of kinds -/

section

variable (es : List Entry)

theorem kinds_shifted : kinds (es.map (shifted k d)) = kinds es := by
  rw [kinds, List.map_map]
  rfl

theorem dropWhile_shifted (p : Kind → Bool) :
    (es.map (shifted k d)).dropWhile (fun e => p e.kind) =
      (es.dropWhile fun e => p e.kind).map (shifted k d) := by
  rw [List.dropWhile_map]
  rfl

theorem takeWhile_shifted (p : Kind → Bool) :
    (es.map (shifted k d)).takeWhile (fun e => p e.kind) =
      (es.takeWhile fun e => p e.kind).map (shifted k d) := by
  rw [List.takeWhile_map]
  rfl

theorem filter_shifted (p : Kind → Bool) :
    (es.map (shifted k d)).filter (fun e => p e.kind) =
      (es.filter fun e => p e.kind).map (shifted k d) := by
  rw [List.filter_map]
  rfl

theorem skipTrivia_shifted :
    skipTrivia (es.map (shifted k d)) = (skipTrivia es).map (shifted k d) :=
  dropWhile_shifted es _

theorem significant_shifted :
    significant (es.map (shifted k d)) = (significant es).map (shifted k d) :=
  filter_shifted es fun kind => !kind.isInsignificant

theorem extent?_shifted : extent? (es.map (shifted k d)) = (extent? es).map (Span.shifted k) := by
  rw [extent?, extent?, List.head?_map, List.getLast?_map]
  cases es.head? with
  | none => rfl
  | some a =>
    cases es.getLast? with
    | none => rfl
    | some b => exact congrArg some (Span.ofBounds_add k a.index b.index)

theorem splitCommas_shifted (depth : Nat) :
    splitCommas depth (es.map (shifted k d)) =
      (splitCommas depth es).map (List.map (shifted k d)) := by
  induction es generalizing depth with
  | nil => rfl
  | cons e es ih =>
    rw [List.map_cons, splitCommas, splitCommas, kind_shifted]
    split
    · rw [ih]
      rfl
    · rw [ih]
      cases splitCommas (depthAfter depth e.kind) es <;> rfl

/-- The pieces of a list stand at later places. -/
theorem pieces_shifted : pieces (es.map (shifted k d)) = (pieces es).map (Span.shifted k) := by
  rw [pieces, pieces, splitCommas_shifted, List.filterMap_map, List.map_filterMap]
  congr 1
  ext g : 1
  rw [Function.comp_apply, significant_shifted, extent?_shifted]

/-- Nothing insignificant that follows is the first significant entry. -/
theorem head?_skipTrivia_append {es x : List Entry} (hx : ∀ e ∈ x, e.kind.isInsignificant = true) :
    (skipTrivia (es ++ x)).head? = (skipTrivia es).head? := by
  have hnil : skipTrivia x = [] := List.dropWhile_eq_nil_iff.2 hx
  rw [skipTrivia, List.dropWhile_append]
  split
  · rename_i hempty
    rw [List.isEmpty_iff] at hempty
    rw [skipTrivia] at hnil ⊢
    rw [hnil, hempty]
  · rename_i hne
    rw [skipTrivia, List.head?_append_of_ne_nil]
    rwa [List.isEmpty_iff] at hne

end

end Entry

/-! ## What is insignificant does not count -/

/-- Nothing insignificant closes a bracket. -/
theorem closeOffset?_eq_none {x : List Kind} (hx : ∀ k ∈ x, k.isInsignificant = true) (b : Bracket)
    (depth : Nat) : closeOffset? b depth x = none := by
  induction x with
  | nil => rfl
  | cons k x ih =>
    obtain ⟨hopens, hcloses⟩ := Kind.no_bracket_of_isInsignificant (hx k List.mem_cons_self)
    rw [closeOffset?, if_neg (by simp [hopens]), if_neg (by simp [hcloses]),
      ih fun k' hk' => hx k' (List.mem_cons_of_mem k hk')]
    rfl

theorem closeOffset?_append_insignificant {x : List Kind}
    (hx : ∀ k ∈ x, k.isInsignificant = true) (b : Bracket) (depth : Nat) (ks : List Kind) :
    closeOffset? b depth (ks ++ x) = closeOffset? b depth ks := by
  induction ks generalizing depth with
  | nil => exact closeOffset?_eq_none hx b depth
  | cons k ks ih => simp only [List.cons_append, closeOffset?, ih]

theorem groupEnd?_append_insignificant {x : List Kind}
    (hx : ∀ k ∈ x, k.isInsignificant = true) {ks : List Kind} (hks : ks ≠ []) :
    groupEnd? (ks ++ x) = groupEnd? ks := by
  cases ks with
  | nil => exact absurd rfl hks
  | cons k ks =>
    rw [List.cons_append, groupEnd?, groupEnd?]
    congr 1
    ext b : 1
    exact closeOffset?_append_insignificant hx b 0 (k :: ks)

/-- A search backwards for the opener of an attribute passes over opening tags. -/
theorem attributeOffset?_append_tags {x : List Kind} (hx : ∀ k ∈ x, k = .openTag) (depth : Nat)
    (ks : List Kind) : attributeOffset? depth (ks ++ x) = attributeOffset? depth ks := by
  induction ks generalizing depth with
  | nil =>
    rw [List.nil_append]
    induction x with
    | nil => rfl
    | cons k x ih =>
      obtain rfl : k = .openTag := hx k List.mem_cons_self
      have hrest := ih fun k' hk' => hx k' (List.mem_cons_of_mem _ hk')
      simp [attributeOffset?, Kind.opens, Kind.closes, hrest]
  | cons k ks ih => simp only [List.cons_append, attributeOffset?, ih]

namespace TokenTable

theorem docCommentBack?_tags {x : List Token} (hx : ∀ y ∈ x, y.kind = .openTag) (n : Nat) :
    docCommentBack? n x = none := by
  induction x generalizing n with
  | nil => simp [docCommentBack?]
  | cons y x ih =>
    cases n with
    | zero => simp [docCommentBack?, hx y List.mem_cons_self]
    | succ n => exact ih (fun z hz => hx z (List.mem_cons_of_mem y hz)) n

/-- A search backwards for a doc comment ends at an opening tag as it does at the start of the
file. -/
theorem docCommentBack?_append_tags {x : List Token} (hx : ∀ y ∈ x, y.kind = .openTag) (d n : Nat)
    (ts : List Token) :
    docCommentBack? n (ts.map (Token.shifted d) ++ x) = docCommentBack? n ts := by
  induction ts generalizing n with
  | nil => simpa [docCommentBack?] using docCommentBack?_tags hx n
  | cons y ts ih =>
    cases n with
    | succ n => exact ih n
    | zero =>
      have hkinds : ((y :: ts).map (Token.shifted d) ++ x).map Token.kind =
          (y :: ts).map Token.kind ++ x.map Token.kind := by
        rw [List.map_append, List.map_map]
        rfl
      have htags : ∀ k ∈ x.map Token.kind, k = .openTag := by
        intro k hk
        obtain ⟨z, hz, rfl⟩ := List.mem_map.1 hk
        exact hx z hz
      rw [List.map_cons, List.cons_append] at hkinds ⊢
      simp only [docCommentBack?, Token.kind_shifted, Token.text_shifted, hkinds, ih,
        attributeOffset?_append_tags htags]

/-- Behind the tokens `front`, table `u` has the tokens `ts` with which `t` begins, at offsets
greater by `d`. What follows them is insignificant in either table. -/
structure Shift (front ts : List Token) (d : Nat) (t u : TokenTable) : Prop where
  tokens : ∃ rest, t.tokens = ts ++ rest ∧ ∀ x ∈ rest, x.kind.isInsignificant = true
  shifted : ∃ rest, u.tokens = front ++ (ts.map (Token.shifted d) ++ rest) ∧
    ∀ x ∈ rest, x.kind.isInsignificant = true
  front : ∀ x ∈ front, x.kind = .openTag
  through : ∀ x ∈ ts, ∀ y ∈ ts,
    u.source.slice (x.offset + d) (y.stop + d) = t.source.slice x.offset y.stop
  between : ∀ x ∈ ts, ∀ y ∈ ts,
    u.source.slice (x.stop + d) (y.offset + d) = t.source.slice x.stop y.offset

namespace Shift

variable {front ts : List Token} {d : Nat} {t u : TokenTable}

theorem get?_eq (h : Shift front ts d t u) {i : Nat} (hi : i < ts.length) :
    u.get? (i + front.length) = (t.get? i).map (Token.shifted d) := by
  obtain ⟨rest, htokens, -⟩ := h.tokens
  obtain ⟨rest', hshifted, -⟩ := h.shifted
  rw [get?, get?, htokens, hshifted, List.getElem?_append_right (Nat.le_add_left _ _),
    Nat.add_sub_cancel, List.getElem?_append_left (by rwa [List.length_map]),
    List.getElem?_append_left hi, List.getElem?_map]

theorem exists_get? (h : Shift front ts d t u) {i : Nat} (hi : i < ts.length) :
    ∃ x ∈ ts, t.get? i = some x := by
  obtain ⟨rest, htokens, -⟩ := h.tokens
  refine ⟨ts[i], List.getElem_mem hi, ?_⟩
  rw [get?, htokens, List.getElem?_append_left hi, List.getElem?_eq_getElem hi]

theorem kind?_eq (h : Shift front ts d t u) {i : Nat} (hi : i < ts.length) :
    u.kind? (i + front.length) = t.kind? i := by
  rw [kind?, kind?, h.get?_eq hi, Option.map_map]
  rfl

theorem text_eq (h : Shift front ts d t u) {i : Nat} (hi : i < ts.length) :
    u.text (i + front.length) = t.text i := by
  rw [text, text, h.get?_eq hi, Option.map_map]
  rfl

theorem line_eq (h : Shift front ts d t u) {i : Nat} (hi : i < ts.length) :
    u.line (i + front.length) = t.line i := by
  obtain ⟨x, -, hx⟩ := h.exists_get? hi
  simp [line, h.get?_eq hi, hx]

/-- A window on tokens in common. -/
theorem window_eq (h : Shift front ts d t u) (i : Nat) {j : Nat} (hj : j ≤ ts.length) :
    u.window (i + front.length) (j + front.length) =
      (t.window i j).map (Entry.shifted front.length d) := by
  obtain ⟨rest, htokens, -⟩ := h.tokens
  obtain ⟨rest', hshifted, -⟩ := h.shifted
  have htake : ∀ {α : Type} (xs ys : List α), j ≤ xs.length →
      ((xs ++ ys).drop i).take (j - i) = (xs.drop i).take (j - i) := by
    intro α xs ys hxs
    rw [List.drop_append, List.take_append_of_le_length]
    rw [List.length_drop]
    omega
  rw [window, window, htokens, hshifted, Nat.add_comm i, List.drop_length_add_append,
    Nat.add_comm j, Nat.add_sub_add_left, htake _ _ (by rwa [List.length_map]), htake _ _ hj,
    ← List.map_drop, ← List.map_take, Nat.add_comm _ i, Entry.number_map_shifted]

theorem within_eq (h : Shift front ts d t u) {s : Span} (hs : s.last < ts.length) :
    u.within (s.shifted front.length) = (t.within s).map (Entry.shifted front.length d) := by
  rw [within, within, ← h.window_eq _ hs, Span.first_shifted, Span.last_shifted,
    Nat.add_right_comm]

/-- The entries from a place on: those in common, and insignificant ones. -/
theorem exists_startingAt (h : Shift front ts d t u) (i : Nat) :
    ∃ es rest rest', t.startingAt i = es ++ rest ∧
      u.startingAt (i + front.length) = es.map (Entry.shifted front.length d) ++ rest' ∧
      es.length = ts.length - i ∧
      (∀ e ∈ rest, e.kind.isInsignificant = true) ∧ ∀ e ∈ rest', e.kind.isInsignificant = true := by
  obtain ⟨rest, htokens, hrest⟩ := h.tokens
  obtain ⟨rest', hshifted, hrest'⟩ := h.shifted
  refine ⟨Entry.number i (ts.drop i),
    Entry.number (i + (ts.drop i).length) (rest.drop (i - ts.length)),
    Entry.number (i + front.length + (ts.drop i).length) (rest'.drop (i - ts.length)),
    ?_, ?_, ?_, ?_, ?_⟩
  · rw [startingAt, htokens, List.drop_append, Entry.number_append]
  · rw [startingAt, hshifted, ← Entry.number_map_shifted, Nat.add_comm i,
      List.drop_length_add_append, List.drop_append, Entry.number_append, List.map_drop,
      List.length_drop, List.length_map, List.length_drop]
  · rw [Entry.length_number, List.length_drop]
  · intro e he
    exact hrest _ (List.mem_of_mem_drop (Entry.toToken_mem_of_mem_number he))
  · intro e he
    exact hrest' _ (List.mem_of_mem_drop (Entry.toToken_mem_of_mem_number he))

/-- A bracket in common is closed in common. -/
theorem matchingClose?_eq (h : Shift front ts d t u) {i : Nat} (hi : i < ts.length) :
    u.matchingClose? (i + front.length) = (t.matchingClose? i).map (· + front.length) ∧
      ∀ j, t.matchingClose? i = some j → j < ts.length := by
  obtain ⟨es, rest, rest', hes, hes', hlength, hrest, hrest'⟩ := h.exists_startingAt i
  have hne : Entry.kinds es ≠ [] := by
    intro hnil
    have := congrArg List.length hnil
    rw [Entry.kinds, List.length_map, List.length_nil] at this
    omega
  have hkinds : ∀ {x : List Entry}, (∀ e ∈ x, e.kind.isInsignificant = true) →
      groupEnd? (Entry.kinds es ++ Entry.kinds x) = groupEnd? (Entry.kinds es) := by
    intro x hx
    refine groupEnd?_append_insignificant ?_ hne
    intro k hk
    obtain ⟨e, he, rfl⟩ := List.mem_map.1 hk
    exact hx e he
  have hclose : t.matchingClose? i = (groupEnd? (Entry.kinds es)).map (i + ·) := by
    rw [matchingClose?, hes, Entry.kinds_append, hkinds hrest]
  constructor
  · rw [hclose, matchingClose?, hes', Entry.kinds_append, Entry.kinds_shifted, hkinds hrest',
      Option.map_map]
    congr 1
    ext n
    exact Nat.add_right_comm _ _ _
  · intro j hj
    rw [hclose] at hj
    obtain ⟨n, hn, rfl⟩ := Option.map_eq_some_iff.1 hj
    have := groupEnd?_lt hn
    rw [Entry.kinds, List.length_map] at this
    omega

/-- Whether an ampersand marks a reference is seen from the token that follows it. -/
theorem marksReference_eq (h : Shift front ts d t u) (i : Nat) :
    Parameter.marksReference u (i + front.length) = Parameter.marksReference t i := by
  obtain ⟨es, rest, rest', hes, hes', -, hrest, hrest'⟩ := h.exists_startingAt (i + 1)
  rw [Nat.add_right_comm] at hes'
  have hmarks : ∀ v j, Parameter.marksReference v j =
      ((Entry.skipTrivia (v.startingAt (j + 1))).head?.map fun e => e.kind).any
        fun kind => kind == .variableName || kind == .ellipsis := by
    intro v j
    rw [Parameter.marksReference]
    cases Entry.skipTrivia (v.startingAt (j + 1)) <;> rfl
  rw [hmarks, hmarks, hes, hes', Entry.head?_skipTrivia_append hrest,
    Entry.head?_skipTrivia_append hrest', Entry.skipTrivia_shifted,
    List.head?_map, Option.map_map]
  rfl

theorem sourceOf_eq (h : Shift front ts d t u) {s : Span} (hs : s.last < ts.length) :
    u.sourceOf (s.shifted front.length) = t.sourceOf s := by
  have hfirst : s.first < ts.length := Nat.lt_of_le_of_lt s.ordered hs
  obtain ⟨x, hx, hgetx⟩ := h.exists_get? hfirst
  obtain ⟨y, hy, hgety⟩ := h.exists_get? hs
  simp only [sourceOf, Span.first_shifted, Span.last_shifted, h.get?_eq hfirst, h.get?_eq hs, hgetx,
    hgety, Option.map_some, Token.offset_shifted, Token.stop_shifted, h.through x hx y hy]

theorem sourceBetween_eq (h : Shift front ts d t u) {i j : Nat} (hi : i < ts.length)
    (hj : j < ts.length) :
    u.sourceBetween (i + front.length) (j + front.length) = t.sourceBetween i j := by
  obtain ⟨x, hx, hgetx⟩ := h.exists_get? hi
  obtain ⟨y, hy, hgety⟩ := h.exists_get? hj
  simp only [sourceBetween, h.get?_eq hi, h.get?_eq hj, hgetx, hgety, Option.map_some,
    Token.offset_shifted, Token.stop_shifted, Nat.add_le_add_iff_right, h.between x hx y hy]

theorem docComment?_eq (h : Shift front ts d t u) {i : Nat} (hi : i ≤ ts.length) :
    u.docComment? (i + front.length) = t.docComment? i := by
  obtain ⟨rest, htokens, -⟩ := h.tokens
  obtain ⟨rest', hshifted, -⟩ := h.shifted
  rw [docComment?, docComment?, htokens, hshifted, Nat.add_comm, List.take_length_add_append,
    List.take_append_of_le_length hi, List.take_append_of_le_length (by rwa [List.length_map]),
    List.reverse_append, ← List.map_take, ← List.map_reverse, docCommentBack?_append_tags]
  intro x hx
  exact h.front x (List.mem_reverse.1 hx)

end Shift

end TokenTable

end PhpOutline
