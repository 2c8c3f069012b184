import PhpOutline.Proofs.Declaration.Shifts
import PhpOutline.Proofs.Declaration.Spans

/-!
# Parts of a function

The parameter list, the return type and the body of a function come in this order, and none of them
begins outside the function. The list and the body end in it as well, however malformed it is. The
return type does so when the parentheses of the header are closed in the header: a parenthesis of
the type is taken together with all that stands in it, wherever it is closed.

## Main definitions

* `Callable.Tail.Follows`: what has been read behind the parameter list.
* `Callable.HeaderEnds`: the parentheses of a header are closed in it.
* `Callable.PartsOrdered`: the parts of a function come in order.

## Main statements

* `Callable.tailStep_follows`, `Callable.tail_follows`: one step behind the parameter list, and all
  of them.
* `Callable.partsOrdered_read`: the parts of every function come in order.
* `Callable.inside_of_headerEnds`: the return type of a function with a closed header.
-/

namespace PhpOutline.Callable

variable {t : TokenTable} {lo last : Nat}

/-- Behind a parameter list that ends in front of place `lo`, with the entries `es` left to read:
the return type has begun in front of them and has been read up to them, and nothing is left behind
a body. -/
structure Tail.Follows (lo last : Nat) (c : Tail) (es : List Entry) : Prop where
  typeFirst : ∀ i ∈ c.typeFirst, lo ≤ i ∧ i ≤ last ∧
    ∀ e ∈ es, e.kind.isInsignificant = false → i ≤ e.index
  typeLast : ∀ i ∈ c.typeLast, (∃ j ∈ c.typeFirst, j ≤ i) ∧ ∀ e ∈ es, i < e.index
  body : ∀ s ∈ c.body, lo ≤ s.first ∧ s.last ≤ last ∧ (∀ i ∈ c.typeLast, i < s.first) ∧ es = []

theorem Tail.Follows.mono {c : Tail} {es fs : List Entry} (h : c.Follows lo last es)
    (hfs : fs ⊆ es) : c.Follows lo last fs where
  typeFirst := by
    intro i hi
    obtain ⟨hlo, hlast, hes⟩ := h.typeFirst i hi
    exact ⟨hlo, hlast, fun e he => hes e (hfs he)⟩
  typeLast := by
    intro i hi
    obtain ⟨hfirst, hes⟩ := h.typeLast i hi
    exact ⟨hfirst, fun e he => hes e (hfs he)⟩
  body := by
    intro s hs
    obtain ⟨hfirst, hlast, htype, rfl⟩ := h.body s hs
    exact ⟨hfirst, hlast, htype, List.eq_nil_of_subset_nil hfs⟩

/-- The first entry without a property stands in front of all others without it. -/
theorem first_of_dropWhile {p : Entry → Bool} {es rest : List Entry} {a : Entry}
    (hes : es.Pairwise fun a b => a.index < b.index) (ha : es.dropWhile p = a :: rest) :
    a ∈ es ∧ p a = false ∧ ∀ e ∈ es, p e = false → a.index ≤ e.index := by
  have hfind : es.find? (fun e => !p e) = some a := by
    rw [List.find?_not_eq_head?_dropWhile, ha]
    rfl
  have hsplit : es = es.takeWhile p ++ a :: rest := by
    rw [← ha]
    exact List.takeWhile_append_dropWhile.symm
  rw [hsplit, List.pairwise_append] at hes
  refine ⟨List.mem_of_find?_eq_some hfind, by simpa using List.find?_some hfind, ?_⟩
  intro e he hp
  rw [hsplit, List.mem_append, List.mem_cons] at he
  rcases he with he | rfl | he
  · rw [List.mem_takeWhile_imp he] at hp
    cases hp
  · exact Nat.le_refl _
  · exact Nat.le_of_lt ((List.pairwise_cons.1 hes.2.1).1 e he)

theorem le_matchingClose? {i last : Nat} (h : i ≤ last) : i ≤ (t.matchingClose? i).getD last := by
  rw [TokenTable.matchingClose?]
  cases groupEnd? (Entry.kinds (t.startingAt i)) with
  | none => exact h
  | some n => exact Nat.le_add_right i n

/-- A bracket that is closed in the declaration is closed at the same place in its window. -/
theorem groupLast_eq {e : Entry} {es : List Entry} (h : e :: es <:+ t.window lo (last + 1))
    {j : Nat}
    (hj : t.matchingClose? e.index = some j) (hle : j ≤ last) : groupLast last (e :: es) = j := by
  rw [TokenTable.matchingClose?] at hj
  obtain ⟨n, hn, rfl⟩ := Option.map_eq_some_iff.1 hj
  have hwindow := TokenTable.window_eq_of_suffix h
  have hlength : n < (e :: es).length := by
    have hlt := groupEnd?_lt hn
    rw [Entry.kinds, List.length_map, TokenTable.startingAt, Entry.length_number,
      List.length_drop] at hlt
    rw [← hwindow, TokenTable.window, Entry.length_number, List.length_take, List.length_drop]
    omega
  rw [← TokenTable.window_append_drop t e.index (last + 1), hwindow, Entry.kinds_append] at hn
  have hgroup := groupEnd?_append_of_lt hn (by rwa [Entry.kinds, List.length_map]) []
  rw [List.append_nil] at hgroup
  rw [groupLast, hgroup]
  rfl

/-! ## One step behind the parameter list -/

section

variable {c : Tail} {e : Entry} {es : List Entry}

/-- The return type goes on to place `i`, and what is left stands behind that. -/
theorem Tail.Follows.read (h : c.Follows lo last (e :: es)) (hfirst : ¬ c.typeFirst.isNone)
    (hsig : e.kind.isInsignificant = false) {i : Nat} (hi : e.index ≤ i) {fs : List Entry}
    (hfs : fs ⊆ es) (hrest : ∀ a ∈ fs, i < a.index) :
    Tail.Follows lo last { c with typeLast := some i } fs where
  typeFirst := (h.mono (List.Subset.trans hfs (List.subset_cons_self e es))).typeFirst
  typeLast := by
    intro j hj
    obtain rfl := Option.some.inj hj
    obtain ⟨a, ha⟩ : ∃ a, c.typeFirst = some a := by
      simpa [Option.ne_none_iff_exists'] using hfirst
    obtain ⟨-, -, hle⟩ := h.typeFirst a ha
    exact ⟨⟨a, ha, Nat.le_trans (hle e List.mem_cons_self hsig) hi⟩, hrest⟩
  body := by
    intro s hs
    cases (h.body s hs).2.2.2

/-- One step behind a parameter list. -/
theorem tailStep_follows (hes : e :: es <:+ t.window lo (last + 1))
    (h : c.Follows lo last (e :: es)) :
    (tailStep t last c e es).1.Follows lo last (es.drop (tailStep t last c e es).2) := by
  have hbounds := TokenTable.bounds_of_mem_window (hes.subset List.mem_cons_self)
  have hle : e.index ≤ last := Nat.le_of_lt_succ hbounds.2
  have hsorted : (e :: es).Pairwise fun a b => a.index < b.index :=
    (t.pairwise_window lo (last + 1)).sublist hes.sublist
  have hbehind : c.Follows lo last es := h.mono (List.subset_cons_self e es)
  rw [tailStep_eq]
  split_ifs with hbrace hsemicolon hnone hcolon hparen htrivia
  · -- the body ends the declaration
    rw [List.drop_length]
    refine ⟨(h.mono (List.nil_subset _)).typeFirst, (h.mono (List.nil_subset _)).typeLast, ?_⟩
    intro s hs
    obtain rfl := Option.some.inj hs
    refine ⟨hbounds.1, Nat.max_le.2 ⟨hle, groupLast_le hes⟩, ?_, rfl⟩
    intro i hi
    exact (h.typeLast i hi).2 e List.mem_cons_self
  · rw [List.drop_length]
    exact h.mono (List.nil_subset _)
  · -- the type begins with the first significant entry behind the colon
    rw [List.drop_zero]
    refine ⟨?_, ?_, hbehind.body⟩
    · intro i hi
      obtain ⟨a, ha, rfl⟩ := Option.map_eq_some_iff.1 hi
      obtain ⟨rest, hrest⟩ := List.head?_eq_some_iff.1 ha
      obtain ⟨hmem, -, hfirst⟩ := first_of_dropWhile (List.pairwise_cons.1 hsorted).2 hrest
      have hin := TokenTable.bounds_of_mem_window (hes.subset (List.mem_cons_of_mem e hmem))
      exact ⟨hin.1, Nat.le_of_lt_succ hin.2, hfirst⟩
    · intro i hi
      obtain ⟨⟨j, hj, -⟩, -⟩ := h.typeLast i hi
      rw [Option.mem_def.1 hj] at hnone
      cases hnone
  · exact hbehind
  · -- a group in parentheses is taken as a whole
    refine h.read hnone (by rw [hparen]; rfl) (le_matchingClose? hle)
      (List.drop_subset _ _) ?_
    intro a ha
    have := TokenTable.lt_index_of_mem_drop hes ha
    omega
  · exact hbehind
  · refine h.read hnone (by simpa using htrivia) (Nat.le_refl _)
      (List.drop_subset _ _) ?_
    intro a ha
    exact (List.pairwise_cons.1 hsorted).1 a ha

end

/-- What stands behind a parameter list follows it. -/
theorem tail_follows (t : TokenTable) (last : Nat) (list : Span) :
    (tail t last list).Follows (list.last + 1) last [] := by
  have hinvariant := @settle_invariant _ _ (tailStep t last)
    (fun c es => es <:+ t.window (list.last + 1) (last + 1) ∧ c.Follows (list.last + 1) last es)
    (fun c e es h => ⟨(List.drop_suffix _ es).trans ((List.suffix_cons e es).trans h.1),
      tailStep_follows h.1 h.2⟩)
    {} 0 _ ⟨List.suffix_refl _, by simp, by simp, by simp⟩
  exact hinvariant.2

/-! ## Closed headers -/

/-- The header of a function that ends at place `last` goes on to place `stop`: a semicolon or a
brace stands there, or the function ends in front of it. From place `lo` on, a parenthesis that is
closed at all is closed in the header. -/
structure HeaderEnds (t : TokenTable) (lo last stop : Nat) : Prop where
  lo_le : lo ≤ stop
  le : stop ≤ last + 1
  ends : stop ≤ last → t.kind? stop = some .semicolon ∨ t.kind? stop = some (.opener .brace)
  closes : ∀ e ∈ t.window lo stop, e.kind = .opener .paren →
    ∀ j ∈ t.matchingClose? e.index, j < stop

instance (t : TokenTable) (lo last stop : Nat) : Decidable (HeaderEnds t lo last stop) :=
  decidable_of_iff
    (lo ≤ stop ∧ stop ≤ last + 1 ∧
      (stop ≤ last → t.kind? stop = some .semicolon ∨ t.kind? stop = some (.opener .brace)) ∧
      ∀ e ∈ t.window lo stop, e.kind = .opener .paren →
        ∀ j ∈ t.matchingClose? e.index, j < stop)
    ⟨fun ⟨hlo, hle, hends, hcloses⟩ => ⟨hlo, hle, hends, hcloses⟩,
      fun h => ⟨h.lo_le, h.le, h.ends, h.closes⟩⟩

/-- What has been read of the return type lies in the function, and the pass has not left the
header. -/
def Tail.InHeader (last stop : Nat) (c : Tail) (es : List Entry) : Prop :=
  (∀ i ∈ c.typeLast, i ≤ last) ∧ ∀ e ∈ es.head?, e.index ≤ stop

/-- The entry behind `k` claimed ones. -/
theorem index_of_head?_drop {e a : Entry} {es : List Entry} {stop k : Nat}
    (h : e :: es <:+ t.window lo stop) (ha : (es.drop k).head? = some a) :
    a.index = e.index + 1 + k := by
  obtain ⟨after, hafter⟩ := List.head?_eq_some_iff.1 ha
  have hlength : (es.take k).length = k := by
    have hpos := congrArg List.length hafter
    rw [List.length_drop, List.length_cons] at hpos
    rw [List.length_take]
    omega
  have hsplit : e :: (es.take k ++ a :: after) <:+ t.window lo stop := by
    rw [← hafter, List.take_append_drop]
    exact h
  rw [TokenTable.index_eq_of_suffix hsplit, hlength]

namespace HeaderEnds

variable {stop : Nat} {e : Entry} {es : List Entry}

/-- In front of the end of a header, the pass stands in the header. -/
theorem index_lt (h : HeaderEnds t lo last stop) (he : e ∈ t.window lo (last + 1))
    (hle : e.index ≤ stop) (hbrace : e.kind ≠ .opener .brace) (hsemicolon : e.kind ≠ .semicolon) :
    e.index < stop := by
  refine Nat.lt_of_le_of_ne hle ?_
  rintro rfl
  have hkind := TokenTable.kind?_index (TokenTable.mem_startingAt_of_mem_window he)
  rcases h.ends (Nat.le_of_lt_succ (TokenTable.bounds_of_mem_window he).2) with hstop | hstop
  · exact hsemicolon (Option.some.inj (hkind.symm.trans hstop))
  · exact hbrace (Option.some.inj (hkind.symm.trans hstop))

/-- A parenthesis in a header is closed in it, or takes all the rest of the function. -/
theorem paren (h : HeaderEnds t lo last stop) (hes : e :: es <:+ t.window lo (last + 1))
    (hlt : e.index < stop) (hparen : e.kind = .opener .paren) :
    (t.matchingClose? e.index).getD last ≤ last ∧
      ∀ a ∈ (es.drop ((t.matchingClose? e.index).getD last - e.index)).head?, a.index ≤ stop := by
  have hmem := hes.subset List.mem_cons_self
  have hbounds := TokenTable.bounds_of_mem_window hmem
  have hopener : e ∈ t.window lo stop :=
    TokenTable.mem_window (TokenTable.mem_startingAt_of_mem_window hmem) hbounds.1 hlt
  have hfirst := @le_matchingClose? t e.index last (Nat.le_of_lt_succ hbounds.2)
  cases hclose : t.matchingClose? e.index with
  | none =>
    refine ⟨Nat.le_refl _, ?_⟩
    intro a ha
    have hdropped := List.mem_of_mem_head? ha
    have hbehind := TokenTable.lt_index_of_mem_drop hes hdropped
    have hbound := (TokenTable.bounds_of_mem_window
      (hes.subset (List.mem_cons_of_mem e (List.mem_of_mem_drop hdropped)))).2
    simp only [Option.getD_none] at hbehind
    omega
  | some j =>
    have hj : j < stop := h.closes e hopener hparen j hclose
    have hstop := h.le
    simp only [hclose, Option.getD_some] at hfirst ⊢
    refine ⟨by omega, ?_⟩
    intro a ha
    rw [index_of_head?_drop hes ha]
    omega

end HeaderEnds

/-- One step behind a parameter list does not leave a closed header. -/
theorem tailStep_inHeader {stop : Nat} (hheader : HeaderEnds t lo last stop) {c : Tail} {e : Entry}
    {es : List Entry} (hes : e :: es <:+ t.window lo (last + 1))
    (h : c.InHeader last stop (e :: es)) :
    (tailStep t last c e es).1.InHeader last stop (es.drop (tailStep t last c e es).2) := by
  obtain ⟨htype, hhead⟩ := h
  have hmem := hes.subset List.mem_cons_self
  have hin := hheader.index_lt hmem (hhead e rfl)
  have hnil : ∀ a ∈ (es.drop es.length).head?, a.index ≤ stop := by
    simp
  have hnext : e.index < stop → ∀ a ∈ (es.drop 0).head?, a.index ≤ stop := by
    intro hlt a ha
    rw [index_of_head?_drop hes ha]
    omega
  rw [tailStep_eq]
  split_ifs with hbrace hsemicolon hnone hcolon hparen htrivia
  · exact ⟨htype, hnil⟩
  · exact ⟨htype, hnil⟩
  · exact ⟨htype, hnext (hin hbrace hsemicolon)⟩
  · exact ⟨htype, hnext (hin hbrace hsemicolon)⟩
  · obtain ⟨hle, hbehind⟩ := hheader.paren hes (hin hbrace hsemicolon) hparen
    refine ⟨?_, hbehind⟩
    intro i hi
    obtain rfl := Option.some.inj hi
    exact hle
  · exact ⟨htype, hnext (hin hbrace hsemicolon)⟩
  · refine ⟨?_, hnext (hin hbrace hsemicolon)⟩
    intro i hi
    obtain rfl := Option.some.inj hi
    exact Nat.le_of_lt_succ (TokenTable.bounds_of_mem_window hmem).2

/-- Behind a closed header, the return type ends in the function. -/
theorem tail_inHeader {stop : Nat} {list : Span}
    (hheader : HeaderEnds t (list.last + 1) last stop) :
    ∀ i ∈ (tail t last list).typeLast, i ≤ last := by
  have hinvariant := @settle_invariant _ _ (tailStep t last)
    (fun c es => es <:+ t.window (list.last + 1) (last + 1) ∧ c.InHeader last stop es)
    (fun c e es h => ⟨(List.drop_suffix _ es).trans ((List.suffix_cons e es).trans h.1),
      tailStep_inHeader hheader h.1 h.2⟩)
    {} 0 _ ⟨List.suffix_refl _, by simp, ?_⟩
  · exact hinvariant.2.1
  · intro e he
    obtain ⟨rest, hrest⟩ := List.head?_eq_some_iff.1 he
    have hindex := @Entry.index_eq_of_number_eq _ _ [] _ _ hrest
    have hstart := hheader.lo_le
    simp only [List.length_nil] at hindex
    omega

/-! ## The parts of a function -/

/-- The parameter list and the body of a function lie in it, the return type begins in it, and these
parts come in order. -/
structure PartsOrdered (c : Callable) : Prop where
  list : ∀ l ∈ c.parameterList, l.Inside c.span
  type : ∀ r ∈ c.returnSpan, c.span.first ≤ r.first ∧ r.first ≤ c.span.last
  body : ∀ b ∈ c.bodySpan, b.Inside c.span
  list_type : ∀ r ∈ c.returnSpan, ∃ l ∈ c.parameterList, l.Precedes r
  list_body : ∀ b ∈ c.bodySpan, ∃ l ∈ c.parameterList, l.Precedes b
  type_body : ∀ r ∈ c.returnSpan, ∀ b ∈ c.bodySpan, r.Precedes b

section

variable (t : TokenTable) (context : NameContext) (scope : Option ClassScope) (inInterface : Bool)
  (span : Span)

/-- The parts of a function are found behind its name. -/
theorem parts_read :
    (read t context scope inInterface span).parameterList =
        parameterList? span.last (naming (leadIn (t.within span)).rest).2 ∧
      (read t context scope inInterface span).returnSpan =
        ((read t context scope inInterface span).parameterList.bind fun l =>
          (tail t span.last l).typeSpan) ∧
      (read t context scope inInterface span).bodySpan =
        ((read t context scope inInterface span).parameterList.bind fun l =>
          (tail t span.last l).body) := by
  refine ⟨rfl, ?_, ?_⟩
  · simp only [read]
    cases parameterList? span.last (naming (leadIn (t.within span)).rest).2 <;> rfl
  · simp only [read]
    cases parameterList? span.last (naming (leadIn (t.within span)).rest).2 <;> rfl

theorem inside_of_mem_parameterList :
    ∀ l ∈ (read t context scope inInterface span).parameterList, l.Inside span := by
  intro l hl
  exact inside_of_parameterList? ((naming_suffix _).trans (rest_leadIn_suffix _)) hl

variable {t context scope inInterface span}

/-- The return type stands behind the parameter list and reaches from its first token to its
last. -/
theorem exists_of_mem_returnSpan {r : Span}
    (h : r ∈ (read t context scope inInterface span).returnSpan) :
    ∃ l ∈ (read t context scope inInterface span).parameterList,
      r.first ∈ (tail t span.last l).typeFirst ∧ r.last ∈ (tail t span.last l).typeLast := by
  rw [(parts_read t context scope inInterface span).2.1] at h
  obtain ⟨l, hl, hr⟩ := Option.bind_eq_some_iff.1 h
  refine ⟨l, hl, ?_⟩
  rw [Tail.typeSpan] at hr
  split at hr
  · rename_i i j hi hj
    obtain rfl := Option.some.inj hr
    obtain ⟨⟨i', hi', hle⟩, -⟩ := (tail_follows t span.last l).typeLast j hj
    obtain rfl : i = i' := Option.some.inj (hi.symm.trans hi')
    rw [Span.first_ofBounds, Span.last_ofBounds, Nat.max_eq_right hle]
    exact ⟨hi, hj⟩
  · cases hr

theorem exists_of_mem_bodySpan {b : Span}
    (h : b ∈ (read t context scope inInterface span).bodySpan) :
    ∃ l ∈ (read t context scope inInterface span).parameterList,
      b ∈ (tail t span.last l).body := by
  rw [(parts_read t context scope inInterface span).2.2] at h
  exact Option.bind_eq_some_iff.1 h

/-- The parts of every function come in order. -/
theorem partsOrdered_read : (read t context scope inInterface span).PartsOrdered := by
  have hinside := inside_of_mem_parameterList t context scope inInterface span
  constructor
  case list => exact hinside
  case type =>
    intro r hr
    obtain ⟨l, hl, hfirst, -⟩ := exists_of_mem_returnSpan hr
    obtain ⟨hlo, hle, -⟩ := (tail_follows t span.last l).typeFirst _ hfirst
    have hlist := (hinside l hl).1
    have hordered := l.ordered
    change span.first ≤ r.first ∧ r.first ≤ span.last
    omega
  case body =>
    intro b hb
    obtain ⟨l, hl, hbody⟩ := exists_of_mem_bodySpan hb
    obtain ⟨hlo, hle, -⟩ := (tail_follows t span.last l).body b hbody
    have hlist := (hinside l hl).1
    have hordered := l.ordered
    change span.first ≤ b.first ∧ b.last ≤ span.last
    omega
  case list_type =>
    intro r hr
    obtain ⟨l, hl, hfirst, -⟩ := exists_of_mem_returnSpan hr
    exact ⟨l, hl, ((tail_follows t span.last l).typeFirst _ hfirst).1⟩
  case list_body =>
    intro b hb
    obtain ⟨l, hl, hbody⟩ := exists_of_mem_bodySpan hb
    exact ⟨l, hl, ((tail_follows t span.last l).body b hbody).1⟩
  case type_body =>
    intro r hr b hb
    obtain ⟨l, hl, -, hlast⟩ := exists_of_mem_returnSpan hr
    obtain ⟨l', hl', hbody⟩ := exists_of_mem_bodySpan hb
    obtain rfl : l = l' := Option.some.inj (hl.symm.trans hl')
    exact ((tail_follows t span.last l).body b hbody).2.2.1 _ hlast

/-- The return type of a function with a closed header lies in the function. -/
theorem inside_of_headerEnds
    (h : ∀ l ∈ (read t context scope inInterface span).parameterList,
      ∃ stop, HeaderEnds t (l.last + 1) span.last stop) :
    ∀ r ∈ (read t context scope inInterface span).returnSpan, r.Inside span := by
  intro r hr
  obtain ⟨l, hl, -, hlast⟩ := exists_of_mem_returnSpan hr
  obtain ⟨stop, hheader⟩ := h l hl
  exact ⟨(partsOrdered_read.type r hr).1, tail_inHeader hheader _ hlast⟩

end

end PhpOutline.Callable
