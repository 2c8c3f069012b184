import PhpOutline.Proofs.Nesting
import PhpOutline.Proofs.TokenTable.Matching

/-!
# Separators of a comma-separated list

The commas of a list at which no bracket is open cut it into parts. A part is kept from its first to
its last significant token, and left out when it has none, so nothing significant is lost but the
commas themselves, and nothing is found twice.

## Main definitions

* `Entry.IsSeparator`: an entry is a comma at which no bracket is open.
* `TokenTable.Separates`: so is a place inside a span.
* `TokenTable.Enclosed`: a place stands between a bracket of a span and its partner.
* `TokenTable.SplitsAtCommas`: what it means that a span is split at its separators.

## Main statements

* `Nested.front_cases`: in front of a place among nested brackets either all brackets are closed, or
  one is closed behind it.
* `Entry.splitCommas_separator`, `Entry.isSeparator_or_mem`, `Entry.pairwise_splitCommas`: a
  separator cuts the entries in two, every other one is in a part, and there is a separator between
  two parts.
* `TokenTable.splitsAtCommas`: every span is split at its separators.
-/

namespace PhpOutline

/-! ## Brackets that are left open -/

/-- A bracket opens in `front` and closes in `back`, and what stands between the two is nested. -/
def Straddled (front back : List Kind) : Prop :=
  ∃ before o x y c after b, front = before ++ o :: x ∧ back = y ++ c :: after ∧
    o.opens = some b ∧ c.closes = some b ∧ Nested (fun _ => True) (x ++ y)

theorem Straddled.append_left {front back : List Kind} (h : Straddled front back)
    (ks : List Kind) : Straddled (ks ++ front) back := by
  obtain ⟨before, o, x, y, c, after, b, rfl, rfl, ho, hc, hnested⟩ := h
  exact ⟨ks ++ before, o, x, y, c, after, b, by simp, rfl, ho, hc, hnested⟩

theorem Straddled.ne_nil {front back : List Kind} (h : Straddled front back) : back ≠ [] := by
  obtain ⟨before, o, x, y, c, after, b, -, rfl, -⟩ := h
  simp

namespace Nested

variable {P : Kind → Prop} {ks front back : List Kind}

/-- In front of a place among nested brackets either all brackets are closed, or one of them is
closed behind the place. -/
theorem front_cases (h : Nested P ks) (hks : ks = front ++ back) (depth : Nat) :
    front.foldl depthAfter depth = depth ∧ Nested P front ∨
      depth < front.foldl depthAfter depth ∧ Straddled front back := by
  induction h generalizing front back depth with
  | nil =>
    obtain ⟨rfl, rfl⟩ := List.append_eq_nil_iff.1 hks.symm
    exact .inl ⟨rfl, .nil⟩
  | @plain P k ks hk ho hc _ ih =>
    cases front with
    | nil => exact .inl ⟨rfl, .nil⟩
    | cons k' front =>
      rw [List.cons_append, List.cons.injEq] at hks
      obtain ⟨rfl, hks⟩ := hks
      have hdepth : depthAfter depth k = depth := by simp [depthAfter, ho, hc]
      rw [List.foldl_cons, hdepth]
      rcases ih hks depth with ⟨heq, hfront⟩ | ⟨hlt, hopen⟩
      · exact .inl ⟨heq, .plain hk ho hc hfront⟩
      · exact .inr ⟨hlt, hopen.append_left [k]⟩
  | @group P o c b inner ks hk ho hinner hc _ ihinner ih =>
    cases front with
    | nil => exact .inl ⟨rfl, .nil⟩
    | cons o' front =>
      rw [List.cons_append, List.cons.injEq] at hks
      obtain ⟨rfl, hks⟩ := hks
      have hopens : depthAfter depth o = depth + 1 := by simp [depthAfter, ho]
      have hcloses : depthAfter (depth + 1) c = depth := by
        simp [depthAfter, hc]
      rw [List.foldl_cons, hopens]
      rcases List.append_eq_append_iff.1 hks with ⟨l, rfl, hl⟩ | ⟨l, rfl, rfl⟩
      · -- the place stands at the closing bracket of the group, or behind it
        have hfold : inner.foldl depthAfter (depth + 1) = depth + 1 := by
          rcases ihinner (List.append_nil inner).symm (depth + 1) with h | ⟨-, hopen⟩
          · exact h.1
          · exact absurd rfl hopen.ne_nil
        cases l with
        | nil =>
          obtain rfl : back = c :: ks := by simpa using hl.symm
          rw [List.append_nil, hfold]
          refine .inr ⟨Nat.lt_add_one depth, [], o, inner, [], c, ks, b, by simp, rfl, ho, hc, ?_⟩
          rw [List.append_nil]
          exact hinner
        | cons c' l =>
          rw [List.cons_append, List.cons.injEq] at hl
          obtain ⟨rfl, hl⟩ := hl
          rw [List.foldl_append, hfold, List.foldl_cons, hcloses]
          rcases ih hl depth with ⟨heq, hfront⟩ | ⟨hlt, hopen⟩
          · exact .inl ⟨heq, .group hk ho hinner hc hfront⟩
          · refine .inr ⟨hlt, ?_⟩
            have happend := hopen.append_left (o :: (inner ++ [c]))
            rw [List.cons_append, List.append_assoc, List.cons_append, List.nil_append] at happend
            exact happend
      · -- the place stands inside the group
        refine .inr ⟨?_, [], o, front, l, c, ks, b, rfl, rfl, ho, hc, hinner⟩
        rcases ihinner rfl (depth + 1) with ⟨heq, -⟩ | ⟨hlt, -⟩
        · omega
        · omega

/-- A bracket among nested ones is closed among them. -/
theorem exists_closer {o : Kind} {b : Bracket} {before x : List Kind} (h : Nested P ks)
    (hks : ks = before ++ o :: x) (ho : o.opens = some b) :
    ∃ y c after, x = y ++ c :: after ∧ Nested (fun _ => True) y ∧ c.closes = some b := by
  induction h generalizing before x with
  | nil => simp at hks
  | plain _ hk _ _ ih =>
    cases before with
    | nil =>
      obtain ⟨rfl, -⟩ := List.cons.inj hks
      rw [hk] at ho
      cases ho
    | cons _ before => exact ih (List.cons.inj hks).2
  | @group _ o' c b' inner ks _ ho' hinner hc _ ihinner ih =>
    have hne : o ≠ c := by
      rintro rfl
      rw [Kind.opens_eq_none_of_closes hc] at ho
      cases ho
    cases before with
    | nil =>
      obtain ⟨rfl, rfl⟩ := List.cons.inj hks
      obtain rfl : b' = b := Option.some.inj (ho'.symm.trans ho)
      exact ⟨inner, c, ks, rfl, hinner, hc⟩
    | cons _ before =>
      rcases List.append_eq_append_iff.1 (List.cons.inj hks).2 with ⟨l, rfl, hl⟩ | ⟨l, rfl, hl⟩
      · cases l with
        | nil => exact absurd (List.cons.inj hl).1.symm hne
        | cons _ l => exact ih (List.cons.inj hl).2
      · cases l with
        | nil => exact absurd (List.cons.inj hl).1 hne
        | cons _ l =>
          obtain ⟨rfl, rfl⟩ := List.cons.inj hl
          obtain ⟨y, z, after, rfl, hy, hz⟩ := ihinner rfl
          exact ⟨y, z, after ++ c :: ks, by simp, hy, hz⟩

end Nested

namespace Entry

variable {es front back g : List Entry} {e : Entry} {depth : Nat}

/-! ## Parts between separators -/

/-- An entry of a sequence is a comma at which no bracket is open, when `depth` of them are open
before the sequence. -/
def IsSeparator (depth : Nat) (es : List Entry) (e : Entry) : Prop :=
  e.kind = .comma ∧ ∃ front back, es = front ++ e :: back ∧
    (kinds front).foldl depthAfter depth = 0

/-- Where an entry is no separator, the first part goes on behind it. -/
theorem splitCommas_cons (h : ¬(e.kind = .comma ∧ depth = 0)) (es : List Entry) :
    ∃ g gs, splitCommas (depthAfter depth e.kind) es = g :: gs ∧
      splitCommas depth (e :: es) = (e :: g) :: gs := by
  obtain ⟨g, gs, hsplit⟩ := List.exists_cons_of_ne_nil (splitCommas_ne_nil _ es)
  refine ⟨g, gs, hsplit, ?_⟩
  rw [splitCommas, if_neg h, hsplit]

theorem splitCommas_cons_comma (h : e.kind = .comma) (es : List Entry) :
    splitCommas 0 (e :: es) = [] :: splitCommas 0 es := by
  rw [splitCommas, if_pos ⟨h, rfl⟩]

theorem depthAfter_comma (depth : Nat) : depthAfter depth .comma = depth := rfl

/-- A separator cuts the entries in two. -/
theorem splitCommas_separator (he : e.kind = .comma)
    (hfront : (kinds front).foldl depthAfter depth = 0) (back : List Entry) :
    splitCommas depth (front ++ e :: back) = splitCommas depth front ++ splitCommas 0 back := by
  induction front generalizing depth with
  | nil =>
    obtain rfl : depth = 0 := hfront
    exact splitCommas_cons_comma he back
  | cons x front ih =>
    by_cases hx : x.kind = .comma ∧ depth = 0
    · obtain ⟨hcomma, rfl⟩ := hx
      rw [List.cons_append, splitCommas_cons_comma hcomma, splitCommas_cons_comma hcomma, ih]
      · rfl
      · rw [kinds, List.map_cons, List.foldl_cons, hcomma] at hfront
        exact hfront
    · obtain ⟨g, gs, hg, hsplit⟩ := splitCommas_cons hx front
      obtain ⟨g', gs', hg', hsplit'⟩ := splitCommas_cons hx (front ++ e :: back)
      rw [ih hfront, hg, List.cons_append, List.cons.injEq] at hg'
      obtain ⟨rfl, rfl⟩ := hg'
      rw [List.cons_append, hsplit, hsplit']
      rfl

/-- A separator behind an entry. -/
theorem IsSeparator.cons {x : Entry} (h : IsSeparator (depthAfter depth x.kind) es e) :
    IsSeparator depth (x :: es) e := by
  obtain ⟨he, front, back, rfl, hfront⟩ := h
  exact ⟨he, x :: front, back, rfl, hfront⟩

/-- What is no separator is in a part. -/
theorem isSeparator_or_mem (he : e ∈ es) :
    IsSeparator depth es e ∨ ∃ g ∈ splitCommas depth es, e ∈ g := by
  induction es generalizing depth with
  | nil => cases he
  | cons x es ih =>
    by_cases hx : x.kind = .comma ∧ depth = 0
    · obtain ⟨hcomma, rfl⟩ := hx
      rcases List.mem_cons.1 he with rfl | he
      · exact .inl ⟨hcomma, [], es, rfl, rfl⟩
      · rcases @ih 0 he with hsep | ⟨g, hg, heg⟩
        · refine .inl (IsSeparator.cons ?_)
          rw [hcomma, depthAfter_comma]
          exact hsep
        · refine .inr ⟨g, ?_, heg⟩
          rw [splitCommas_cons_comma hcomma]
          exact List.mem_cons_of_mem [] hg
    · obtain ⟨g, gs, hg, hsplit⟩ := splitCommas_cons hx es
      rw [hsplit]
      rcases List.mem_cons.1 he with rfl | he
      · exact .inr ⟨_, List.mem_cons_self, List.mem_cons_self⟩
      · rcases @ih (depthAfter depth x.kind) he with hsep | ⟨g', hg', heg⟩
        · exact .inl hsep.cons
        · rw [hg] at hg'
          rcases List.mem_cons.1 hg' with rfl | hg'
          · exact .inr ⟨_, List.mem_cons_self, List.mem_cons_of_mem x heg⟩
          · exact .inr ⟨g', List.mem_cons_of_mem _ hg', heg⟩

theorem subset_of_mem_splitCommas (hg : g ∈ splitCommas depth es) : g ⊆ es := by
  intro e he
  exact (flatten_splitCommas_sublist depth es).subset (List.mem_flatten.2 ⟨g, hg, he⟩)

/-- There is a separator between two parts. -/
theorem pairwise_splitCommas (hes : es.Pairwise fun a b => a.index < b.index) :
    (splitCommas depth es).Pairwise fun g g' => ∃ e, IsSeparator depth es e ∧
      (∀ a ∈ g, a.index < e.index) ∧ ∀ b ∈ g', e.index < b.index := by
  induction es generalizing depth with
  | nil => simp [splitCommas]
  | cons x es ih =>
    obtain ⟨hx, hes⟩ := List.pairwise_cons.1 hes
    by_cases hcomma : x.kind = .comma ∧ depth = 0
    · obtain ⟨hcomma, rfl⟩ := hcomma
      rw [splitCommas_cons_comma hcomma, List.pairwise_cons]
      constructor
      · intro g hg
        refine ⟨x, ⟨hcomma, [], es, rfl, rfl⟩, by simp, ?_⟩
        intro b hb
        exact hx b (subset_of_mem_splitCommas hg hb)
      · refine (@ih 0 hes).imp ?_
        rintro g g' ⟨e, he, hbefore, hbehind⟩
        refine ⟨e, IsSeparator.cons ?_, hbefore, hbehind⟩
        rw [hcomma, depthAfter_comma]
        exact he
    · obtain ⟨g, gs, hg, hsplit⟩ := splitCommas_cons hcomma es
      have hrest := @ih (depthAfter depth x.kind) hes
      rw [hg, List.pairwise_cons] at hrest
      rw [hsplit, List.pairwise_cons]
      constructor
      · intro g' hg'
        obtain ⟨e, he, hbefore, hbehind⟩ := hrest.1 g' hg'
        refine ⟨e, he.cons, ?_, hbehind⟩
        intro a ha
        rcases List.mem_cons.1 ha with rfl | ha
        · obtain ⟨-, front, back, rfl, -⟩ := he
          exact hx e (by simp)
        · exact hbefore a ha
      · refine hrest.2.imp ?_
        rintro g g' ⟨e, he, hbefore, hbehind⟩
        exact ⟨e, he.cons, hbefore, hbehind⟩

/-! ## Pieces between separators -/

/-- A piece reaches from a significant entry of a part to another one, over all others. -/
theorem exists_ends_of_extent? {s : Span} (hg : g.Pairwise fun a b => a.index < b.index)
    (h : extent? (significant g) = some s) :
    ∃ a ∈ significant g, ∃ b ∈ significant g, s.first = a.index ∧ s.last = b.index ∧
      ∀ e ∈ significant g, s.contains e.index = true := by
  have hsig : (significant g).Pairwise fun a b => a.index < b.index :=
    hg.sublist List.filter_sublist
  cases hcons : significant g with
  | nil => simp [hcons, extent?] at h
  | cons a rest =>
    obtain ⟨init, b, hinit⟩ := List.eq_nil_or_concat (a :: rest) |>.resolve_left (by simp)
    rw [List.concat_eq_append] at hinit
    have hlast : (a :: rest).getLast? = some b := by
      rw [hinit]
      simp
    rw [hcons, extent?, List.head?_cons, hlast] at h
    simp only [Option.some.injEq] at h
    rw [hcons] at hsig
    have hfirst : ∀ e ∈ a :: rest, a.index ≤ e.index := by
      intro e he
      rcases List.mem_cons.1 he with rfl | he
      · exact Nat.le_refl _
      · exact Nat.le_of_lt ((List.pairwise_cons.1 hsig).1 e he)
    have hend : ∀ e ∈ a :: rest, e.index ≤ b.index := by
      rw [hinit] at hsig ⊢
      intro e he
      rcases List.mem_append.1 he with he | he
      · exact Nat.le_of_lt ((List.pairwise_append.1 hsig).2.2 e he b List.mem_cons_self)
      · rw [List.mem_singleton.1 he]
    have hb : b ∈ a :: rest := List.mem_of_getLast? hlast
    subst h
    refine ⟨a, List.mem_cons_self, b, hb, rfl, Nat.max_eq_right (hfirst b hb), ?_⟩
    intro e he
    rw [Span.contains_iff, Span.first_ofBounds, Span.last_ofBounds]
    exact ⟨hfirst e he, (hend e he).trans (Nat.le_max_right _ _)⟩

theorem pairwise_of_mem_splitCommas (hes : es.Pairwise fun a b => a.index < b.index)
    (hg : g ∈ splitCommas depth es) : g.Pairwise fun a b => a.index < b.index :=
  (List.pairwise_flatten.1 (hes.sublist (flatten_splitCommas_sublist depth es))).1 g hg

/-- A piece begins and ends with significant entries. -/
theorem exists_ends_of_mem_pieces {s : Span} (hes : es.Pairwise fun a b => a.index < b.index)
    (hs : s ∈ pieces es) :
    ∃ a ∈ significant es, ∃ b ∈ significant es, s.first = a.index ∧ s.last = b.index := by
  obtain ⟨g, hg, hextent⟩ := List.mem_filterMap.1 hs
  obtain ⟨a, ha, b, hb, hfirst, hlast, -⟩ :=
    exists_ends_of_extent? (pairwise_of_mem_splitCommas hes hg) hextent
  have hsub : significant g ⊆ significant es :=
    List.filter_subset _ (subset_of_mem_splitCommas hg)
  exact ⟨a, hsub ha, b, hsub hb, hfirst, hlast⟩

/-- A significant entry is a separator or in a piece. -/
theorem isSeparator_or_contains (hes : es.Pairwise fun a b => a.index < b.index)
    (he : e ∈ significant es) :
    IsSeparator 0 es e ∨ ∃ s ∈ pieces es, s.contains e.index = true := by
  obtain ⟨hmem, hsig⟩ := List.mem_filter.1 he
  rcases isSeparator_or_mem hmem with hsep | ⟨g, hg, heg⟩
  · exact .inl hsep
  · have heg : e ∈ significant g := List.mem_filter.2 ⟨heg, hsig⟩
    obtain ⟨s, hs⟩ : ∃ s, extent? (significant g) = some s := by
      obtain ⟨a, rest, hcons⟩ := List.exists_cons_of_ne_nil (List.ne_nil_of_mem heg)
      rw [hcons, extent?, List.head?_cons, List.getLast?_cons]
      exact ⟨_, rfl⟩
    obtain ⟨-, -, -, -, -, -, hcontains⟩ :=
      exists_ends_of_extent? (pairwise_of_mem_splitCommas hes hg) hs
    exact .inr ⟨s, List.mem_filterMap.2 ⟨g, hg, hs⟩, hcontains e heg⟩

/-- A separator is in no piece. -/
theorem IsSeparator.contains_eq_false (hes : es.Pairwise fun a b => a.index < b.index)
    (h : IsSeparator 0 es e) {s : Span} (hs : s ∈ pieces es) : s.contains e.index = false := by
  obtain ⟨he, front, back, rfl, hfront⟩ := h
  obtain ⟨-, hback, hcross⟩ := List.pairwise_append.1 hes
  have hbehind := (List.pairwise_cons.1 hback).1
  rw [pieces, splitCommas_separator he hfront, List.filterMap_append, List.mem_append] at hs
  rw [← Bool.not_eq_true, Span.contains_iff]
  rcases hs with hs | hs
  · obtain ⟨g, hg, hextent⟩ := List.mem_filterMap.1 hs
    obtain ⟨a, ha, b, hb, rfl⟩ := exists_of_extent?_significant hextent
    have hlast : max a.index b.index < e.index := Nat.max_lt.2
      ⟨hcross a (subset_of_mem_splitCommas hg ha) e List.mem_cons_self,
        hcross b (subset_of_mem_splitCommas hg hb) e List.mem_cons_self⟩
    exact fun h => absurd h.2 (Nat.not_le.2 hlast)
  · obtain ⟨g, hg, hextent⟩ := List.mem_filterMap.1 hs
    obtain ⟨a, ha, b, hb, rfl⟩ := exists_of_extent?_significant hextent
    exact fun h => absurd h.1 (Nat.not_le.2 (hbehind a (subset_of_mem_splitCommas hg ha)))

/-- There is a separator between two pieces. -/
theorem pairwise_pieces_separator (hes : es.Pairwise fun a b => a.index < b.index) :
    (pieces es).Pairwise fun s u =>
      ∃ e, IsSeparator 0 es e ∧ s.last < e.index ∧ e.index < u.first := by
  refine List.Pairwise.filterMap _ ?_ (pairwise_splitCommas hes)
  rintro g g' ⟨e, he, hbefore, hbehind⟩ s hs u hu
  obtain ⟨a, ha, b, hb, rfl⟩ := exists_of_extent?_significant hs
  obtain ⟨a', ha', -, -, rfl⟩ := exists_of_extent?_significant hu
  exact ⟨e, he, Nat.max_lt.2 ⟨hbefore a ha, hbefore b hb⟩, hbehind a' ha'⟩

end Entry

namespace TokenTable

variable {t : TokenTable} {s : Span} {i : Nat}

/-! ## Separators inside a span -/

/-- The number of brackets that are open inside a span in front of a place. -/
def depthAt (t : TokenTable) (s : Span) (i : Nat) : Nat :=
  (Entry.kinds (t.window (s.first + 1) i)).foldl depthAfter 0

/-- A place strictly inside a span is a comma at which no bracket of the span is open. -/
structure Separates (t : TokenTable) (s : Span) (i : Nat) : Prop where
  after : s.first < i
  before : i < s.last
  comma : t.kind? i = some .comma
  outside : t.depthAt s i = 0

/-- A place stands between a bracket and its partner, both strictly inside a span. -/
def Enclosed (t : TokenTable) (s : Span) (i : Nat) : Prop :=
  ∃ o c, s.first < o ∧ o < i ∧ i < c ∧ c < s.last ∧ t.matchingClose? o = some c

/-- There is a significant token at a place. -/
def SignificantAt (t : TokenTable) (i : Nat) : Prop :=
  ∃ k, t.kind? i = some k ∧ k.isInsignificant = false

theorem mem_startingAt_of_get? {x : Token} (h : t.get? i = some x) : ⟨x, i⟩ ∈ t.startingAt 0 := by
  obtain ⟨hi, rfl⟩ := List.getElem?_eq_some_iff.1 h
  have hmem : (⟨t.tokens[i], i⟩ : Entry) ∈ t.startingAt i := by
    rw [startingAt, List.drop_eq_getElem_cons hi]
    exact List.mem_cons_self
  rw [startingAt_eq_drop] at hmem
  exact List.mem_of_mem_drop hmem

theorem exists_entry_of_kind? {k : Kind} {j : Nat} (h : t.kind? i = some k) (hj : j ≤ i) {l : Nat}
    (hl : i < l) : ∃ e ∈ t.window j l, e.index = i ∧ e.kind = k := by
  obtain ⟨x, hx, rfl⟩ := Option.map_eq_some_iff.1 h
  exact ⟨⟨x, i⟩, mem_window (mem_startingAt_of_get? hx) hj hl, rfl, rfl⟩

/-- The entries of a span that are separators stand at the places that are. -/
theorem isSeparator_iff {e : Entry} (he : e ∈ t.window (s.first + 1) s.last) :
    Entry.IsSeparator 0 (t.window (s.first + 1) s.last) e ↔ t.Separates s e.index := by
  have hbounds := bounds_of_mem_window he
  have hkind := kind?_index (mem_startingAt_of_mem_window he)
  constructor
  · rintro ⟨hcomma, front, back, hwindow, hfront⟩
    refine ⟨hbounds.1, hbounds.2, by rw [hkind, hcomma], ?_⟩
    rw [depthAt, ← eq_window_of_append hwindow]
    exact hfront
  · intro h
    have hcomma : e.kind = .comma := Option.some.inj (hkind.symm.trans h.comma)
    obtain ⟨front, back, hwindow⟩ := List.append_of_mem he
    refine ⟨hcomma, front, back, hwindow, ?_⟩
    have houtside := h.outside
    rw [depthAt, ← eq_window_of_append hwindow] at houtside
    exact houtside

/-! ## Separators among nested brackets -/

/-- A bracket of a window around nested brackets is closed by its partner. -/
theorem matchingClose?_of_window {j l : Nat} {o : Entry} {front x : List Entry} {b : Bracket}
    {c : Kind} {inner after : List Kind} (hwindow : t.window j l = front ++ o :: x)
    (hx : Entry.kinds x = inner ++ c :: after) (ho : o.kind.opens = some b)
    (hinner : Nested (fun _ => True) inner) (hc : c.closes = some b) :
    t.matchingClose? o.index = some (o.index + (inner.length + 1)) := by
  have hsuffix : o :: x <:+ t.window j l := ⟨front, hwindow.symm⟩
  have hstarting := window_append_drop t o.index l
  rw [window_eq_of_suffix hsuffix] at hstarting
  rw [matchingClose?, ← hstarting, Entry.kinds_append]
  have hkinds : Entry.kinds (o :: x) = o.kind :: (inner ++ c :: after) := by rw [← hx]; rfl
  rw [hkinds, List.cons_append, List.append_assoc, List.cons_append, groupEnd?_group ho hinner hc]
  rfl

/-- Among nested brackets, no bracket is open at a comma exactly when none encloses it. -/
theorem depthAt_eq_zero_iff
    (hnested : Nested (fun _ => True) (Entry.kinds (t.window (s.first + 1) s.last)))
    (hfirst : s.first < i) (hlast : i < s.last) (hcomma : t.kind? i = some .comma) :
    t.depthAt s i = 0 ↔ ¬t.Enclosed s i := by
  obtain ⟨e, he, rfl, hkind⟩ := exists_entry_of_kind? hcomma hfirst hlast
  obtain ⟨front, back, hwindow⟩ := List.append_of_mem he
  have hindex : e.index = s.first + 1 + front.length := Entry.index_eq_of_number_eq hwindow
  have hsplit : Entry.kinds (t.window (s.first + 1) s.last) =
      Entry.kinds front ++ .comma :: Entry.kinds back := by
    rw [hwindow, Entry.kinds_append, ← hkind]
    rfl
  have hdepth : t.depthAt s e.index = (Entry.kinds front).foldl depthAfter 0 := by
    rw [depthAt, ← eq_window_of_append hwindow]
  rw [hdepth]
  rcases hnested.front_cases hsplit 0 with ⟨hzero, hclosed⟩ | ⟨hpos, hstraddled⟩
  · -- a bracket in front of the comma is closed in front of it
    simp only [hzero, true_iff]
    rintro ⟨o, c, hso, hoe, hec, -, hclose⟩
    obtain ⟨b, hb⟩ := matchingClose?_iff_encloses.1 hclose
    obtain ⟨k, hk, hopens⟩ := Option.bind_eq_some_iff.1 hb.opens
    obtain ⟨x, hx, rfl, rfl⟩ := exists_entry_of_kind? hk hso hoe
    rw [← eq_window_of_append hwindow] at hx
    obtain ⟨before, behind, rfl⟩ := List.append_of_mem hx
    rw [Entry.kinds_append] at hclosed
    obtain ⟨inner, z, after, hbehind, hinner, hz⟩ := hclosed.exists_closer rfl hopens
    have hall : t.window (s.first + 1) s.last = before ++ x :: (behind ++ e :: back) := by
      rw [hwindow, List.append_assoc, List.cons_append]
    have hkinds : Entry.kinds (behind ++ e :: back) =
        inner ++ z :: (after ++ Entry.kinds (e :: back)) := by
      rw [Entry.kinds_append, Entry.kinds, hbehind, List.append_assoc, List.cons_append]
    have hpartner := matchingClose?_of_window hall hkinds hopens hinner hz
    have hplace : x.index = s.first + 1 + before.length := Entry.index_eq_of_number_eq hall
    have hlen := congrArg List.length hbehind
    rw [List.length_map, List.length_append, List.length_cons] at hlen
    rw [List.length_append, List.length_cons] at hindex
    have hc := Option.some.inj (hpartner.symm.trans hclose)
    omega
  · -- a bracket that is open in front of the comma encloses it
    simp only [Nat.ne_of_gt hpos, false_iff, not_not]
    obtain ⟨before, o, x, y, c, after, b, hbefore, hbehind, hopens, hcloses, hinner⟩ := hstraddled
    obtain ⟨front, rest, rfl, rfl, hrest⟩ := List.map_eq_append_iff.1 hbefore
    obtain ⟨o, rest, rfl, rfl, rfl⟩ := List.map_eq_cons_iff.1 hrest
    have hall : t.window (s.first + 1) s.last = front ++ o :: (rest ++ e :: back) := by
      rw [hwindow, List.append_assoc, List.cons_append]
    have hkinds : Entry.kinds (rest ++ e :: back) =
        (Entry.kinds rest ++ y) ++ c :: after := by
      rw [List.append_assoc, ← hbehind, ← hkind, Entry.kinds_append]
      rfl
    have hpartner := matchingClose?_of_window hall hkinds hopens hinner hcloses
    have hplace : o.index = s.first + 1 + front.length := Entry.index_eq_of_number_eq hall
    have hy : y ≠ [] := by
      rintro rfl
      obtain rfl : Kind.comma = c := (List.cons.inj hbehind).1
      cases hcloses
    have hlen := congrArg List.length hkinds
    have hsize := length_window_le t (s.first + 1) s.last
    have hpositive := List.length_pos_of_ne_nil hy
    rw [hall] at hsize
    simp only [Entry.kinds, List.length_map, List.length_append, List.length_cons] at hlen
    simp only [List.length_append, List.length_cons] at hsize hindex
    refine ⟨o.index, _, by omega, by omega, ?_, ?_, hpartner⟩
    · simp only [Entry.kinds, List.length_append, List.length_map]
      omega
    · simp only [Entry.kinds, List.length_append, List.length_map]
      omega

/-! ## Every span -/

/-- A span is split at its separators. -/
structure SplitsAtCommas (t : TokenTable) (s : Span) : Prop where
  /-- The pieces lie strictly inside the span. -/
  inside : ∀ p ∈ t.splitTopLevel s, s.first < p.first ∧ p.first ≤ p.last ∧ p.last < s.last
  /-- They follow each other. -/
  ordered : (t.splitTopLevel s).Pairwise Span.Precedes
  /-- Each begins and ends with a significant token. -/
  ends : ∀ p ∈ t.splitTopLevel s, t.SignificantAt p.first ∧ t.SignificantAt p.last
  /-- A significant token is either in exactly one piece or a separator, which is in none. -/
  covered : ∀ i, s.first < i → i < s.last → t.SignificantAt i →
    (¬t.Separates s i ∧ ∃! p, p ∈ t.splitTopLevel s ∧ p.contains i = true) ∨
      (t.Separates s i ∧ ∀ p ∈ t.splitTopLevel s, p.contains i = false)
  /-- There is a separator between two consecutive pieces. -/
  between : ∀ front p q back, t.splitTopLevel s = front ++ p :: q :: back →
    ∃ i, p.last < i ∧ i < q.first ∧ t.Separates s i
  /-- Where brackets are nested, the separators are the commas that none encloses. -/
  unenclosed : Nested (fun _ => True) (Entry.kinds (t.window (s.first + 1) s.last)) → ∀ i,
    t.Separates s i ↔ s.first < i ∧ i < s.last ∧ t.kind? i = some .comma ∧ ¬t.Enclosed s i
  /-- So brackets enclose every comma of a piece. -/
  enclosed : Nested (fun _ => True) (Entry.kinds (t.window (s.first + 1) s.last)) →
    ∀ p ∈ t.splitTopLevel s, ∀ i, p.contains i = true → t.kind? i = some .comma → t.Enclosed s i

theorem significantAt_of_mem {e : Entry} {j l : Nat}
    (h : e ∈ Entry.significant (t.window j l)) : t.SignificantAt e.index := by
  obtain ⟨hmem, hsig⟩ := List.mem_filter.1 h
  refine ⟨e.kind, kind?_index (mem_startingAt_of_mem_window hmem), ?_⟩
  rw [Entry.isSignificant_eq, Bool.not_eq_true'] at hsig
  exact hsig

theorem inside_of_mem_splitTopLevel {p : Span} (hp : p ∈ t.splitTopLevel s) :
    s.first < p.first ∧ p.last < s.last :=
  Entry.bounds_of_mem_pieces hp fun _ he => bounds_of_mem_window he

theorem contains_eq_false_of_separates (h : t.Separates s i) {p : Span}
    (hp : p ∈ t.splitTopLevel s) : p.contains i = false := by
  obtain ⟨e, he, rfl, -⟩ := exists_entry_of_kind? h.comma h.after h.before
  exact ((isSeparator_iff he).2 h).contains_eq_false (pairwise_window t _ _) hp

/-- Two pieces that contain the same place are the same. -/
theorem eq_of_contains {p q : Span} (hp : p ∈ t.splitTopLevel s) (hq : q ∈ t.splitTopLevel s)
    (hpi : p.contains i = true) (hqi : q.contains i = true) : p = q := by
  by_contra hne
  rw [Span.contains_iff] at hpi hqi
  rcases rel_or_rel_of_pairwise (Entry.pairwise_pieces (pairwise_window t _ _)) hp hq hne with h | h
  · exact absurd h (Nat.not_lt.2 (hqi.1.trans hpi.2))
  · exact absurd h (Nat.not_lt.2 (hpi.1.trans hqi.2))

/-- Every span is split at its separators. -/
theorem splitsAtCommas (t : TokenTable) (s : Span) : t.SplitsAtCommas s where
  inside := by
    intro p hp
    obtain ⟨hfirst, hlast⟩ := inside_of_mem_splitTopLevel hp
    exact ⟨hfirst, p.ordered, hlast⟩
  ordered := Entry.pairwise_pieces (pairwise_window t _ _)
  ends := by
    intro p hp
    obtain ⟨a, ha, b, hb, hfirst, hlast⟩ :=
      Entry.exists_ends_of_mem_pieces (pairwise_window t _ _) hp
    rw [hfirst, hlast]
    exact ⟨significantAt_of_mem ha, significantAt_of_mem hb⟩
  covered := by
    rintro i hfirst hlast ⟨k, hk, hsig⟩
    obtain ⟨e, he, rfl, rfl⟩ := exists_entry_of_kind? hk hfirst hlast
    by_cases hsep : t.Separates s e.index
    · exact .inr ⟨hsep, fun p hp => contains_eq_false_of_separates hsep hp⟩
    · refine .inl ⟨hsep, ?_⟩
      have hmem : e ∈ Entry.significant (t.window (s.first + 1) s.last) := by
        refine List.mem_filter.2 ⟨he, ?_⟩
        rw [Entry.isSignificant_eq, hsig]
        rfl
      rcases Entry.isSeparator_or_contains (pairwise_window t _ _) hmem with h | ⟨p, hp, hcontains⟩
      · exact absurd ((isSeparator_iff he).1 h) hsep
      · exact ⟨p, ⟨hp, hcontains⟩, fun q hq => eq_of_contains hq.1 hp hq.2 hcontains⟩
  between := by
    intro front p q back hsplit
    have hpairs := Entry.pairwise_pieces_separator (pairwise_window t (s.first + 1) s.last)
    rw [← splitTopLevel, hsplit] at hpairs
    have hpq := (List.pairwise_append.1 hpairs).2.1
    obtain ⟨e, he, hlast, hfirst⟩ := (List.pairwise_cons.1 hpq).1 q List.mem_cons_self
    have hmem : e ∈ t.window (s.first + 1) s.last := by
      obtain ⟨-, before, after, hwindow, -⟩ := he
      rw [hwindow]
      simp
    exact ⟨e.index, hlast, hfirst, (isSeparator_iff hmem).1 he⟩
  unenclosed := by
    intro hnested i
    constructor
    · intro h
      exact ⟨h.after, h.before, h.comma,
        (depthAt_eq_zero_iff hnested h.after h.before h.comma).1 h.outside⟩
    · rintro ⟨hfirst, hlast, hcomma, hnot⟩
      exact ⟨hfirst, hlast, hcomma, (depthAt_eq_zero_iff hnested hfirst hlast hcomma).2 hnot⟩
  enclosed := by
    intro hnested p hp i hi hcomma
    obtain ⟨hfirst, hlast⟩ := inside_of_mem_splitTopLevel hp
    obtain ⟨hpi, hip⟩ := Span.contains_iff.1 hi
    by_contra hnot
    have hsep : t.Separates s i := ⟨by omega, by omega, hcomma,
      (depthAt_eq_zero_iff hnested (by omega) (by omega) hcomma).2 hnot⟩
    have hfalse := contains_eq_false_of_separates hsep hp
    rw [hi] at hfalse
    cases hfalse

end TokenTable

end PhpOutline
