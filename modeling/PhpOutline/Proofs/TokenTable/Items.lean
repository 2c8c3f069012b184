import PhpOutline.Proofs.Nesting
import PhpOutline.Proofs.TokenTable.Windows

/-!
# Items of a comma-separated list

An item of a list reaches from its first to its last significant token. Where an item has such a
token at either end and no comma outside its brackets, its span is exactly the span of the item.

## Main definitions

* `Delimited`: kinds of tokens with a significant one at either end.

## Main statements

* `Entry.extent?_delimited`: the span of an item behind a gap.
* `Entry.pieces_item`, `Entry.pieces_item_comma`: the last item of a list, and an item in front of
  a comma.
* `TokenTable.matchingClose?_group`: the partner of a bracket.
-/

namespace PhpOutline

/-- Kinds of tokens with a significant one at either end. -/
structure Delimited (ks : List Kind) : Prop where
  head : ∃ k ∈ ks.head?, k.isInsignificant = false
  last : ∃ k ∈ ks.getLast?, k.isInsignificant = false

instance (ks : List Kind) : Decidable (Delimited ks) :=
  decidable_of_iff ((ks.head?.any fun k => !k.isInsignificant) ∧
    (ks.getLast?.any fun k => !k.isInsignificant)) (by
      simp only [Option.any_eq_true, Bool.not_eq_true']
      exact ⟨fun h => ⟨h.1, h.2⟩, fun h => ⟨h.1, h.2⟩⟩)

namespace Delimited

variable {ts : List Token}

theorem exists_cons (h : Delimited (ts.map Token.kind)) :
    ∃ x tail, ts = x :: tail ∧ x.kind.isInsignificant = false := by
  obtain ⟨k, hk, hsig⟩ := h.head
  cases ts with
  | nil => simp at hk
  | cons x tail =>
    have hx : x.kind = k := by simpa using hk
    exact ⟨x, tail, rfl, by rw [hx]; exact hsig⟩

theorem exists_concat (h : Delimited (ts.map Token.kind)) :
    ∃ init x, ts = init ++ [x] ∧ x.kind.isInsignificant = false := by
  obtain ⟨k, hk, hsig⟩ := h.last
  obtain ⟨x, hx, hxk⟩ := Option.map_eq_some_iff.1 (List.getLast?_map.symm.trans hk)
  obtain ⟨init, hinit⟩ := List.getLast?_eq_some_iff.1 hx
  exact ⟨init, x, hinit, by rw [hxk]; exact hsig⟩

theorem length_pos (h : Delimited (ts.map Token.kind)) : 0 < ts.length := by
  obtain ⟨x, tail, rfl, -⟩ := h.exists_cons
  simp

theorem singleton {k : Kind} (h : k.isInsignificant = false) : Delimited [k] :=
  ⟨⟨k, by simp, h⟩, ⟨k, by simp, h⟩⟩

/-- A significant token, whatever follows it up to the tokens. -/
theorem cons_append {ks : List Kind} (h : Delimited ks) {k : Kind} (hk : k.isInsignificant = false)
    (mid : List Kind) : Delimited (k :: (mid ++ ks)) := by
  obtain ⟨z, hz, hsig⟩ := h.last
  refine ⟨⟨k, by simp, hk⟩, ⟨z, ?_, hsig⟩⟩
  rw [← List.cons_append, List.getLast?_append, hz]
  rfl

end Delimited

namespace Entry

theorem significant_eq_nil {es : List Entry} (h : ∀ e ∈ es, e.kind.isInsignificant = true) :
    significant es = [] := by
  rw [significant, List.filter_eq_nil_iff]
  intro e he
  simp [isSignificant_eq, h e he]

theorem isInsignificant_of_mem_number {i : Nat} {ts : List Token}
    (h : ∀ x ∈ ts, x.kind.isInsignificant = true) :
    ∀ e ∈ number i ts, e.kind.isInsignificant = true :=
  fun _ he => h _ (toToken_mem_of_mem_number he)

/-- The span of an item behind a gap is the span of the item. -/
theorem extent?_delimited {gap core : List Token} (hgap : ∀ x ∈ gap, x.kind.isInsignificant = true)
    (hcore : Delimited (core.map Token.kind)) (i : Nat) :
    extent? (significant (number i (gap ++ core))) =
      some (.ofBounds (i + gap.length) (i + gap.length + core.length - 1)) := by
  obtain ⟨x, tail, htail, hx⟩ := hcore.exists_cons
  obtain ⟨init, z, hinit, hz⟩ := hcore.exists_concat
  have hsig : significant (number i (gap ++ core)) =
      significant (number (i + gap.length) core) := by
    rw [number_append, significant_append, significant_eq_nil (isInsignificant_of_mem_number hgap),
      List.nil_append]
  have hhead : (significant (number (i + gap.length) core)).head? =
      some ⟨x, i + gap.length⟩ := by
    rw [htail, number_cons, significant_cons_of_significant hx]
    rfl
  have hlast : (significant (number (i + gap.length) core)).getLast? =
      some ⟨z, i + gap.length + init.length⟩ := by
    rw [hinit, number_append, significant_append, number_cons, number_nil,
      significant_cons_of_significant hz, significant_nil, List.getLast?_append]
    rfl
  have hlen : i + gap.length + core.length - 1 = i + gap.length + init.length := by
    rw [hinit, List.length_append, List.length_singleton]
    omega
  rw [hsig, extent?, hhead, hlast, hlen]

/-- A list of one item behind a gap. -/
theorem pieces_item (gap core : List Token) (hgap : ∀ x ∈ gap, x.kind.isInsignificant = true)
    (hcore : Delimited (core.map Token.kind))
    (hnested : Nested (· ≠ .comma) ((gap ++ core).map Token.kind)) (i : Nat) :
    pieces (number i (gap ++ core)) =
      [.ofBounds (i + gap.length) (i + gap.length + core.length - 1)] := by
  rw [← kinds_number i] at hnested
  have hnil : splitCommas 0 [] = [[]] := by
    simp [splitCommas]
  have hsplit := splitCommas_append hnested (fun k hk hcomma => absurd hcomma hk) hnil
  rw [List.append_nil] at hsplit
  simp [pieces, hsplit, extent?_delimited hgap hcore]

/-- An item behind a gap and in front of a comma. -/
theorem pieces_item_comma (gap core : List Token) (hgap : ∀ x ∈ gap, x.kind.isInsignificant = true)
    (hcore : Delimited (core.map Token.kind))
    (hnested : Nested (· ≠ .comma) ((gap ++ core).map Token.kind)) (i : Nat) {comma : Token}
    (hcomma : comma.kind = .comma) (rest : List Token) :
    pieces (number i (gap ++ core ++ comma :: rest)) =
      .ofBounds (i + gap.length) (i + gap.length + core.length - 1) ::
        pieces (number (i + (gap ++ core).length + 1) rest) := by
  rw [← kinds_number i] at hnested
  have hrest : splitCommas 0 (number (i + (gap ++ core).length) (comma :: rest)) =
      [] :: splitCommas 0 (number (i + (gap ++ core).length + 1) rest) := by
    rw [number_cons, splitCommas, if_pos ⟨hcomma, rfl⟩]
  have hsplit := splitCommas_append hnested (fun k hk hcomma => absurd hcomma hk) hrest
  rw [List.append_nil] at hsplit
  rw [pieces, number_append, hsplit, List.filterMap_cons, extent?_delimited hgap hcore]
  rfl

/-- Among the entries of some tokens, a bracket around nested brackets is closed by its partner. -/
theorem groupEnd?_number {o c : Token} {b : Bracket} {P : Kind → Prop} {inner : List Token}
    (ho : o.kind.opens = some b) (hinner : Nested P (inner.map Token.kind))
    (hc : c.kind.closes = some b) (i : Nat) (rest : List Token) :
    groupEnd? (kinds (number i (o :: (inner ++ c :: rest)))) = some (inner.length + 1) := by
  have hend := groupEnd?_group ho hinner hc (rest.map Token.kind)
  rw [List.length_map] at hend
  rw [kinds_number, List.map_cons, List.map_append, List.map_cons, hend]

end Entry

/-- A bracket around nested brackets is closed by its own partner in the table. -/
theorem TokenTable.matchingClose?_group {t : TokenTable} {before inner after : List Token}
    {o c : Token} {b : Bracket} {P : Kind → Prop}
    (h : t.tokens = before ++ o :: (inner ++ c :: after))
    (ho : o.kind.opens = some b) (hinner : Nested P (inner.map Token.kind))
    (hc : c.kind.closes = some b) {i : Nat} (hi : i = before.length) :
    t.matchingClose? i = some (i + (inner.length + 1)) := by
  subst hi
  rw [matchingClose?, startingAt_length h, Entry.groupEnd?_number ho hinner hc]
  rfl

end PhpOutline
