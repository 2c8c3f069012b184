import Mathlib.Data.List.Pairwise
import Mathlib.Data.List.TakeWhile
import PhpOutline.Proofs.Sweep
import PhpOutline.Proofs.TokenTable.Windows

/-!
# Extents

Every search for an end stays in the sequence that it looks at, also where brackets have no
partner, and the pieces of a list lie in the list, one behind the other.

## Main definitions

* `Span.Inside`, `Span.Precedes`: how two spans lie to each other.
* `Entry.Ahead`: what a pass over declarations still has before it.

## Main statements

* `groupEnd?_lt`, `statementEnd?_lt`: an end that is found is one of the items.
* `Entry.bounds_of_mem_pieces`, `Entry.pairwise_pieces`: the pieces of a list.
* `Entry.Ahead.keep`, `Entry.Ahead.past`: how a pass goes on.
* `TokenTable.index_add_length_le`, `TokenTable.lt_index_of_mem_drop`: windows have no gaps.
* `TokenTable.window_append`, `TokenTable.find?_window`: windows side by side, and searches in them.
-/

namespace PhpOutline

namespace Span

/-- A span lies in another one. -/
def Inside (s u : Span) : Prop := u.first ≤ s.first ∧ s.last ≤ u.last

/-- A span ends before another one begins. -/
def Precedes (s u : Span) : Prop := s.last < u.first

instance (s u : Span) : Decidable (s.Inside u) := inferInstanceAs (Decidable (_ ∧ _))

instance (s u : Span) : Decidable (s.Precedes u) := inferInstanceAs (Decidable (_ < _))

end Span

/-- Of two different items of an ordered list, one stands before the other. -/
theorem rel_or_rel_of_pairwise {α : Type} {R : α → α → Prop} {l : List α} (h : l.Pairwise R)
    {a b : α} (ha : a ∈ l) (hb : b ∈ l) (hne : a ≠ b) : R a b ∨ R b a := by
  have hor : l.Pairwise fun a b => R a b ∨ R b a := h.imp fun hab => Or.inl hab
  have : Std.Symm fun a b => R a b ∨ R b a := ⟨fun _ _ => Or.symm⟩
  exact hor.forall ha hb hne

/-! ## Ends lie in the sequence -/

theorem closeOffset?_lt {b : Bracket} {depth n : Nat} {ks : List Kind}
    (h : closeOffset? b depth ks = some n) : n < ks.length := by
  induction ks generalizing depth n with
  | nil => simp [closeOffset?] at h
  | cons k ks ih =>
    have hbehind : ∀ {d}, (closeOffset? b d ks).map (· + 1) = some n → n < ks.length + 1 := by
      intro d hd
      obtain ⟨m, hm, rfl⟩ := Option.map_eq_some_iff.1 hd
      exact Nat.succ_lt_succ (ih hm)
    rw [closeOffset?] at h
    rw [List.length_cons]
    split at h
    · exact hbehind h
    · split at h
      · split at h
        · rw [← Option.some.inj h]
          exact Nat.succ_pos _
        · exact hbehind h
      · exact hbehind h

theorem groupEnd?_lt {n : Nat} {ks : List Kind} (h : groupEnd? ks = some n) : n < ks.length := by
  cases ks with
  | nil => simp [groupEnd?] at h
  | cons k ks =>
    rw [groupEnd?, Option.bind_eq_some_iff] at h
    obtain ⟨b, -, h⟩ := h
    exact closeOffset?_lt h

theorem lt_of_endWithGroup {k : Kind} {ks : List Kind} {m : Nat}
    (h : endWithGroup k ks = .ends m) : m < ks.length + 1 :=
  groupEnd?_lt (endWithGroup_eq_ends_iff.1 h)

/-- A member ends at one of the tokens. -/
theorem statementEnd?_lt {n : Nat} {ks : List Kind} (h : statementEnd? ks = some n) :
    n < ks.length := by
  refine lt_of_seek ?_ h
  intro k rest m hlook
  split at hlook
  · cases hlook
    exact Nat.succ_pos _
  · exact lt_of_endWithGroup hlook
  · exact absurd hlook (passGroup_ne_ends _ _ _)
  · exact absurd hlook (passGroup_ne_ends _ _ _)
  · exact absurd hlook (passGroup_ne_ends _ _ _)
  · cases hlook

/-- The header of a type ends at a brace. -/
theorem getElem?_of_headerEnd? {n : Nat} {ks : List Kind} (h : headerEnd? ks = some n) :
    ks[n]? = some (.opener .brace) := by
  obtain ⟨before, k, rest, m, rfl, hlook, rfl⟩ := exists_ends_of_seek h
  split at hlook
  · cases hlook
    simp
  all_goals cases hlook

namespace Entry

/-- Among entries, the brace at which a header ends, and what stands behind it. -/
theorem exists_brace_of_headerEnd? {es : List Entry} {n : Nat}
    (h : headerEnd? (kinds es) = some n) :
    ∃ brace after, es.drop n = brace :: after ∧ brace.kind = .opener .brace := by
  have hkind := getElem?_of_headerEnd? h
  rw [kinds, List.getElem?_map, Option.map_eq_some_iff] at hkind
  obtain ⟨brace, hbrace, hkind⟩ := hkind
  obtain ⟨hlt, rfl⟩ := List.getElem?_eq_some_iff.1 hbrace
  exact ⟨_, _, List.drop_eq_getElem_cons hlt, hkind⟩

/-! ## Pieces of a list -/

/-- Only the commas between the parts of a list are lost. -/
theorem flatten_splitCommas_sublist (depth : Nat) (es : List Entry) :
    (splitCommas depth es).flatten.Sublist es := by
  induction es generalizing depth with
  | nil => simp [splitCommas]
  | cons e es ih =>
    rw [splitCommas]
    split
    · simpa using (ih 0).cons e
    · have hrest := ih (depthAfter depth e.kind)
      split
      · rename_i g gs hsplit
        rw [hsplit] at hrest
        exact hrest.cons_cons e
      · simp

theorem exists_of_extent? {es : List Entry} {s : Span} (h : extent? es = some s) :
    ∃ a ∈ es, ∃ b ∈ es, s = .ofBounds a.index b.index := by
  rw [extent?] at h
  split at h
  · rename_i a b ha hb
    cases h
    exact ⟨a, List.mem_of_head? ha, b, List.mem_of_getLast? hb, rfl⟩
  · cases h

theorem exists_of_extent?_significant {es : List Entry} {s : Span}
    (h : extent? (significant es) = some s) :
    ∃ a ∈ es, ∃ b ∈ es, s = .ofBounds a.index b.index := by
  obtain ⟨a, ha, b, hb, rfl⟩ := exists_of_extent? h
  exact ⟨a, (List.mem_filter.1 ha).1, b, (List.mem_filter.1 hb).1, rfl⟩

/-- A piece reaches from one entry of the list to another. -/
theorem exists_of_mem_pieces {es : List Entry} {s : Span} (h : s ∈ pieces es) :
    ∃ a ∈ es, ∃ b ∈ es, s = .ofBounds a.index b.index := by
  obtain ⟨g, hg, hs⟩ := List.mem_filterMap.1 h
  have hsub : ∀ x ∈ g, x ∈ es := by
    intro x hx
    exact (flatten_splitCommas_sublist 0 es).subset (List.mem_flatten.2 ⟨g, hg, hx⟩)
  obtain ⟨a, ha, b, hb, rfl⟩ := exists_of_extent?_significant hs
  exact ⟨a, hsub a ha, b, hsub b hb, rfl⟩

/-- Where the places of the entries lie between two bounds, so do the pieces. -/
theorem bounds_of_mem_pieces {es : List Entry} {s : Span} {lo hi : Nat} (h : s ∈ pieces es)
    (hes : ∀ e ∈ es, lo ≤ e.index ∧ e.index < hi) : lo ≤ s.first ∧ s.last < hi := by
  obtain ⟨a, ha, b, hb, rfl⟩ := exists_of_mem_pieces h
  exact ⟨(hes a ha).1, Nat.max_lt.2 ⟨(hes a ha).2, (hes b hb).2⟩⟩

/-- The pieces of a list follow each other. -/
theorem pairwise_pieces {es : List Entry} (h : es.Pairwise fun a b => a.index < b.index) :
    (pieces es).Pairwise Span.Precedes := by
  have hparts := (List.pairwise_flatten.1 (h.sublist (flatten_splitCommas_sublist 0 es))).2
  refine List.Pairwise.filterMap _ ?_ hparts
  intro g g' hlt s hs u hu
  obtain ⟨a, ha, b, hb, rfl⟩ := exists_of_extent?_significant hs
  obtain ⟨a', ha', -, -, rfl⟩ := exists_of_extent?_significant hu
  exact Nat.max_lt.2 ⟨hlt a ha a' ha', hlt b hb a' ha'⟩

/-! ## Passes over declarations -/

/-- A pass over `all` stands in front of the entries `es`, and has everything from place `lo` on
before it: the entries, and the first modifier of a declaration, at place `start`, if it has passed
one. -/
structure Ahead (all : List Entry) (start : Option Nat) (lo : Nat) (es : List Entry) : Prop where
  suffix : es <:+ all
  entries : ∀ a ∈ es, lo ≤ a.index
  start : ∀ i ∈ start, lo ≤ i ∧ ∀ a ∈ es, i < a.index

namespace Ahead

variable {all : List Entry} {start : Option Nat} {lo : Nat} {e : Entry} {es : List Entry}

theorem suffix_drop (h : Ahead all start lo (e :: es)) (k : Nat) : es.drop k <:+ all :=
  ((List.drop_suffix k es).trans (List.suffix_cons e es)).trans h.suffix

/-- The declaration that is being read begins at its first modifier, or at the present entry. -/
theorem first_bounds (h : Ahead all start lo (e :: es)) :
    lo ≤ start.getD e.index ∧ start.getD e.index ≤ e.index := by
  cases start with
  | none => exact ⟨h.entries e List.mem_cons_self, Nat.le_refl _⟩
  | some i =>
    obtain ⟨hlo, hlt⟩ := h.start i rfl
    exact ⟨hlo, Nat.le_of_lt (hlt e List.mem_cons_self)⟩

/-- The pass goes on, and remembers at most where the modifiers begin. -/
theorem keep (h : Ahead all start lo (e :: es)) (hes : ∀ a ∈ es, e.index < a.index)
    {start' : Option Nat} (hstart : ∀ i ∈ start', i = start.getD e.index) (k : Nat) :
    Ahead all start' lo (es.drop k) where
  suffix := h.suffix_drop k
  entries := fun a ha => h.entries a (List.mem_cons_of_mem e (List.mem_of_mem_drop ha))
  start := by
    intro i hi
    obtain ⟨hlo, hle⟩ := h.first_bounds
    rw [hstart i hi]
    refine ⟨hlo, ?_⟩
    intro a ha
    exact Nat.lt_of_le_of_lt hle (hes a (List.mem_of_mem_drop ha))

/-- The pass goes on behind a declaration. -/
theorem past (h : Ahead all start lo (e :: es)) {k hi : Nat} (hes : ∀ a ∈ es.drop k, hi ≤ a.index) :
    Ahead all none hi (es.drop k) where
  suffix := h.suffix_drop k
  entries := hes
  start := by simp

end Ahead

end Entry

namespace TokenTable

variable {t : TokenTable} {i j : Nat}

theorem pairwise_window (t : TokenTable) (i j : Nat) :
    (t.window i j).Pairwise fun a b => a.index < b.index :=
  Entry.pairwise_number _ _

theorem length_window_le (t : TokenTable) (i j : Nat) : (t.window i j).length ≤ j - i := by
  rw [window, Entry.length_number, List.length_take]
  exact Nat.min_le_left _ _

/-- What stands in a window from an entry on ends before the bound of the window. -/
theorem index_add_length_le {e : Entry} {es : List Entry} (h : e :: es <:+ t.window i j) :
    i ≤ e.index ∧ e.index + (e :: es).length ≤ j := by
  obtain ⟨before, hbefore⟩ := h
  have hindex := Entry.index_eq_of_number_eq hbefore.symm
  have hlen := length_window_le t i j
  rw [← hbefore, List.length_append, List.length_cons] at hlen
  rw [List.length_cons]
  omega

/-- From an entry of a window on, places are counted without gaps. -/
theorem index_eq_of_suffix {e a : Entry} {before after : List Entry}
    (h : e :: (before ++ a :: after) <:+ t.window i j) : a.index = e.index + 1 + before.length := by
  obtain ⟨front, hfront⟩ := h
  have he := Entry.index_eq_of_number_eq hfront.symm
  have hsplit : t.window i j = (front ++ e :: before) ++ a :: after := by
    rw [← hfront, List.append_assoc, List.cons_append]
  have ha := Entry.index_eq_of_number_eq hsplit
  rw [List.length_append, List.length_cons] at ha
  omega

/-- The entries that are left when `k` of those behind an entry are claimed. -/
theorem lt_index_of_mem_drop {e a : Entry} {es : List Entry} (h : e :: es <:+ t.window i j)
    {k : Nat} (ha : a ∈ es.drop k) : e.index + k < a.index := by
  obtain ⟨before, after, hes⟩ := List.append_of_mem ha
  have hsplit : e :: (es.take k ++ before ++ a :: after) <:+ t.window i j := by
    rw [List.append_assoc, ← hes, List.take_append_drop]
    exact h
  have hindex := index_eq_of_suffix hsplit
  have hk : (es.take k).length = k := by
    have := List.length_pos_of_mem ha
    rw [List.length_drop] at this
    rw [List.length_take]
    omega
  rw [List.length_append, hk] at hindex
  omega

/-- The first `k` entries behind an entry. -/
theorem bounds_of_mem_take {e a : Entry} {es : List Entry} (h : e :: es <:+ t.window i j) {k : Nat}
    (ha : a ∈ es.take k) : e.index < a.index ∧ a.index ≤ e.index + k := by
  obtain ⟨before, after, hes⟩ := List.append_of_mem ha
  have hall : es = before ++ a :: (after ++ es.drop k) := by
    rw [← List.cons_append, ← List.append_assoc, ← hes, List.take_append_drop]
  rw [hall] at h
  have hindex := index_eq_of_suffix h
  have hlen := List.length_take_le k es
  rw [hes, List.length_append, List.length_cons] at hlen
  omega

theorem bounds_of_mem_window {e : Entry} (h : e ∈ t.window i j) : i ≤ e.index ∧ e.index < j := by
  obtain ⟨before, after, h⟩ := List.append_of_mem h
  have hsuffix : e :: after <:+ t.window i j := ⟨before, h.symm⟩
  have hbound := index_add_length_le hsuffix
  rw [List.length_cons] at hbound
  omega

/-! ## Entries and their places -/

/-- An entry is found at its place. -/
theorem getElem?_index {e : Entry} (h : e ∈ t.startingAt 0) :
    (t.startingAt 0)[e.index]? = some e := by
  obtain ⟨before, after, h⟩ := List.append_of_mem h
  have hindex : e.index = 0 + before.length := Entry.index_eq_of_number_eq h
  rw [h, hindex, Nat.zero_add, List.getElem?_append_right (Nat.le_refl _), Nat.sub_self]
  rfl

theorem get?_index {e : Entry} (h : e ∈ t.startingAt 0) : t.get? e.index = some e.toToken := by
  have htoken := congrArg (Option.map Entry.toToken) (getElem?_index h)
  rwa [← List.getElem?_map, startingAt, Entry.map_toToken_number] at htoken

theorem kind?_index {e : Entry} (h : e ∈ t.startingAt 0) : t.kind? e.index = some e.kind := by
  rw [kind?, get?_index h]
  rfl

theorem text_index {e : Entry} (h : e ∈ t.startingAt 0) : t.text e.index = e.text := by
  rw [text, get?_index h]
  rfl

theorem mem_window {e : Entry} (h : e ∈ t.startingAt 0) (hi : i ≤ e.index) (hj : e.index < j) :
    e ∈ t.window i j := by
  have hget : (t.window i j)[e.index - i]? = some e := by
    rw [window_eq_take_drop, List.getElem?_take_of_lt (by omega), List.getElem?_drop,
      Nat.add_sub_cancel' hi, getElem?_index h]
  exact List.mem_of_getElem? hget

theorem mem_startingAt_of_mem_window {e : Entry} (h : e ∈ t.window i j) : e ∈ t.startingAt 0 := by
  rw [window_eq_take_drop] at h
  exact List.mem_of_mem_drop (List.mem_of_mem_take h)

theorem drop_window (t : TokenTable) (i j k : Nat) :
    (t.window i j).drop k = t.window (i + k) j := by
  rw [window, window, Entry.drop_number, List.drop_take, List.drop_drop, Nat.sub_sub]

/-- What stands in a window behind an entry is a window again. -/
theorem eq_window_of_suffix {e : Entry} {es : List Entry} (h : e :: es <:+ t.window i j) :
    es = t.window (e.index + 1) j := by
  obtain ⟨front, hfront⟩ := h
  have hindex : e.index = i + front.length := Entry.index_eq_of_number_eq hfront.symm
  rw [hindex, Nat.add_assoc, ← drop_window, ← hfront, List.drop_length_add_append]
  rfl

/-- A window from one of its entries on. -/
theorem window_index {e : Entry} (h : e ∈ t.startingAt 0) (hj : e.index < j) :
    t.window e.index j = e :: t.window (e.index + 1) j := by
  have hmem := mem_window h (Nat.le_refl _) hj
  obtain ⟨front, after, hfront⟩ := List.append_of_mem hmem
  have hindex : e.index = e.index + front.length := Entry.index_eq_of_number_eq hfront
  obtain rfl : front = [] := List.length_eq_zero_iff.1 (by omega)
  rw [hfront, List.nil_append, eq_window_of_suffix ⟨[], hfront.symm⟩]

theorem window_eq_of_suffix {e : Entry} {es : List Entry} (h : e :: es <:+ t.window i j) :
    t.window e.index j = e :: es := by
  have hmem : e ∈ t.window i j := h.subset List.mem_cons_self
  rw [window_index (mem_startingAt_of_mem_window hmem) (bounds_of_mem_window hmem).2,
    ← eq_window_of_suffix h]

theorem window_append (t : TokenTable) {k : Nat} (hij : i ≤ j) (hjk : j ≤ k) :
    t.window i j ++ t.window j k = t.window i k := by
  have htake : (t.window i k).take (j - i) = t.window i j := by
    rw [window_eq_take_drop, window_eq_take_drop, List.take_take, Nat.min_eq_left (by omega)]
  have hdrop : (t.window i k).drop (j - i) = t.window j k := by
    rw [drop_window, Nat.add_sub_cancel' hij]
  rw [← htake, ← hdrop, List.take_append_drop]

/-- What stands in a window before an entry is a window. -/
theorem eq_window_of_append {front es : List Entry} {e : Entry}
    (h : t.window i j = front ++ e :: es) : front = t.window i e.index := by
  have hindex : e.index = i + front.length := Entry.index_eq_of_number_eq h
  have hmem : e ∈ t.window i j := by
    rw [h]
    simp
  have hj := (bounds_of_mem_window hmem).2
  have htake := congrArg (List.take front.length) h
  rw [List.take_left, window_eq_take_drop, List.take_take, Nat.min_eq_left (by omega)] at htake
  rw [window_eq_take_drop, hindex, Nat.add_sub_cancel_left, htake]

/-- What stands in a window up to an entry stands in every other one that reaches behind it. -/
theorem window_eq_append {k : Nat} {front es : List Entry} {e : Entry}
    (h : t.window i j = front ++ e :: es) (hk : e.index < k) :
    t.window i k = front ++ e :: t.window (e.index + 1) k := by
  have hmem : e ∈ t.window i j := by
    rw [h]
    simp
  have hi := (bounds_of_mem_window hmem).1
  rw [← window_append t hi (Nat.le_of_lt hk), ← eq_window_of_append h,
    window_index (mem_startingAt_of_mem_window hmem) hk]

theorem window_append_drop (t : TokenTable) (i j : Nat) :
    t.window i j ++ (t.startingAt i).drop (j - i) = t.startingAt i := by
  rw [window, startingAt, ← Entry.take_number, List.take_append_drop]

/-- What is found first behind a place is found first in every window from there that reaches behind
it. -/
theorem find?_window {p : Entry → Bool} {e : Entry} (h : (t.startingAt i).find? p = some e)
    (hj : e.index < j) : (t.window i j).find? p = some e := by
  have hmem := List.mem_of_find?_eq_some h
  obtain ⟨front, after, hfront⟩ := List.append_of_mem hmem
  have hindex : e.index = i + front.length := Entry.index_eq_of_number_eq hfront
  rw [startingAt_eq_drop] at hmem
  have hwindow : e ∈ t.window i j := mem_window (List.mem_of_mem_drop hmem) (by omega) hj
  rw [← window_append_drop t i j, List.find?_append, Option.or_eq_some_iff] at h
  rcases h with h | ⟨hnone, hbehind⟩
  · exact h
  · exact absurd (List.find?_some hbehind) (List.find?_eq_none.1 hnone e hwindow)

/-- In a window, what is skipped ends at the first significant entry. -/
theorem skipTrivia_eq_of_find? {e : Entry}
    (h : (t.startingAt i).find? (fun e => !e.kind.isInsignificant) = some e) (hj : e.index < j) :
    Entry.skipTrivia (t.window i j) = e :: t.window (e.index + 1) j := by
  have hhead : (Entry.skipTrivia (t.window i j)).head? = some e := by
    rw [Entry.skipTrivia, ← List.find?_not_eq_head?_dropWhile]
    exact find?_window h hj
  obtain ⟨after, hafter⟩ := List.head?_eq_some_iff.1 hhead
  have hsuffix : e :: after <:+ t.window i j := hafter ▸ Entry.skipTrivia_suffix _
  rw [hafter, eq_window_of_suffix hsuffix]

/-- So it does in every window that reaches behind that entry. -/
theorem skipTrivia_window_of_lt {k : Nat} {e : Entry} {es : List Entry}
    (h : Entry.skipTrivia (t.window i j) = e :: es) (hk : e.index < k) :
    Entry.skipTrivia (t.window i k) = e :: t.window (e.index + 1) k := by
  refine skipTrivia_eq_of_find? ?_ hk
  rw [← window_append_drop t i j, List.find?_append, List.find?_not_eq_head?_dropWhile]
  change (Entry.skipTrivia (t.window i j)).head?.or _ = some e
  rw [h]
  rfl

/-- Behind an entry, what is skipped ends at the significant entry that follows it. -/
theorem skipTrivia_window {e f : Entry} {rest : List Entry}
    (h : e :: f :: rest <:+ Entry.significant (t.startingAt 0)) (hj : f.index < j) :
    Entry.skipTrivia (t.window (e.index + 1) j) = f :: t.window (f.index + 1) j := by
  refine skipTrivia_eq_of_find? ?_ hj
  have hhead := congrArg List.head? (significant_startingAt h)
  rw [Entry.significant, List.head?_filter] at hhead
  exact hhead

end TokenTable

end PhpOutline
