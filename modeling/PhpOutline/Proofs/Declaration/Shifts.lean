import PhpOutline.Proofs.Declaration.Spans
import PhpOutline.Proofs.TokenTable.Shifts

/-!
# Functions, properties and constants at later places

In two tables with tokens in common, a declaration that lies in the common part is read alike: every
record is the same, with its spans at later places. This needs that nothing is read outside the
declaration, except for the end of a bracket and for the token behind an ampersand, which are found
alike in both tables.

## Main definitions

* `Parameter.shifted`, `Callable.shifted`: a record with later spans.
* `Callable.Tail.Below`: what stands behind a parameter list lies in front of a place.

## Main statements

* `Parameter.read_shifted`, `Property.read_shifted`, `Constant.read_shifted`,
  `Callable.read_shifted`: what is read at a later place.
-/

namespace PhpOutline

open TokenTable (Shift)

variable {front ts : List Token} {d : Nat} {t u : TokenTable}

/-! ## Parameters -/

namespace Parameter

/-- The parameter with its span `k` places later. -/
def shifted (k : Nat) (p : Parameter) : Parameter := { p with span := p.span.shifted k }

@[simp] theorem shifted_zero : shifted 0 = id := rfl

/-- The draft with the span of the type `k` places later. -/
def Draft.shifted (k : Nat) (p : Draft) : Draft :=
  { p with typeSpan := p.typeSpan.map (Span.shifted k) }

theorem extendType_shifted (k i : Nat) (p : Draft) :
    (p.shifted k).extendType (i + k) = (p.extendType i).shifted k := by
  simp only [Draft.extendType, Draft.shifted, Option.map_some, ← Span.ofBounds_add]
  cases p.typeSpan <;> rfl

theorem readFront_shifted (h : Shift front ts d t u) (p : Draft) (e : Entry) :
    readFront u (p.shifted front.length) (e.shifted front.length d) =
      (readFront t p e).shifted front.length := by
  have hnone : (p.shifted front.length).typeSpan.isNone = p.typeSpan.isNone := Option.isNone_map
  simp only [readFront, hnone, Entry.kind_shifted, Entry.index_shifted, Entry.text_shifted,
    h.marksReference_eq]
  split
  · rfl
  · split
    · split
      · rfl
      · exact extendType_shifted _ _ _
    · rfl
    · rfl
    · exact extendType_shifted _ _ _

theorem step_shifted (h : Shift front ts d t u) {last : Nat} (hlast : last < ts.length) (p : Draft)
    (e : Entry) {es : List Entry} (hes : ∀ a ∈ es, a.index < ts.length) :
    step u (last + front.length) (p.shifted front.length) (e.shifted front.length d)
        (es.map (Entry.shifted front.length d)) =
      ((step t last p e es).1.shifted front.length, (step t last p e es).2) := by
  have hkinds : Entry.kinds (e.shifted front.length d :: es.map (Entry.shifted front.length d)) =
      Entry.kinds (e :: es) := Entry.kinds_shifted (e :: es)
  have hname : (p.shifted front.length).name = p.name := rfl
  have hvalue : (Entry.skipTrivia (es.map (Entry.shifted front.length d))).head?.map
      (fun v => u.sourceOf (.ofBounds v.index (last + front.length))) =
      (Entry.skipTrivia es).head?.map fun v => t.sourceOf (.ofBounds v.index last) := by
    rw [Entry.skipTrivia_shifted, List.head?_map, Option.map_map]
    refine Option.map_congr ?_
    intro v hv
    have hmem : v ∈ es := (List.dropWhile_suffix _).subset (List.mem_of_head? hv)
    have hlt : (Span.ofBounds v.index last).last < ts.length := Nat.max_lt.2 ⟨hes v hmem, hlast⟩
    rw [← h.sourceOf_eq hlt, ← Span.ofBounds_add]
    rfl
  simp only [step, Entry.kind_shifted, hkinds, List.length_map, hname, readFront_shifted h, hvalue]
  split
  · rfl
  split
  · rfl
  split
  · rfl
  split
  · rfl
  · rfl

/-- The type of a parameter lies in its span. -/
theorem typeSpan_last_le (t : TokenTable) (span : Span) :
    ∀ s ∈ (settle (step t span.last) {} 0 (t.within span)).typeSpan, s.last ≤ span.last := by
  refine settle_induction (P := fun p : Draft => ∀ s ∈ p.typeSpan, s.last ≤ span.last) ?_
    (List.suffix_refl (t.within span)) (by simp)
  intro p e es hes hp
  have hindex : e.index ≤ span.last := by
    have := (TokenTable.index_add_length_le hes).2
    rw [List.length_cons] at this
    omega
  have hextend : ∀ s ∈ (p.extendType e.index).typeSpan, s.last ≤ span.last := by
    intro s hs
    obtain rfl := Option.some.inj hs
    refine Nat.max_le.2 ⟨?_, hindex⟩
    cases htype : p.typeSpan with
    | none => exact hindex
    | some s => exact Nat.le_trans s.ordered (hp s htype)
  rw [step]
  split
  · exact hp
  split
  · exact hp
  split
  · rw [readFront]
    split
    · exact hp
    split
    · split
      · exact hp
      · exact hextend
    · exact hp
    · exact hp
    · exact hextend
  split
  · exact hp
  · exact hp

/-- A parameter at a later place. -/
theorem read_shifted (h : Shift front ts d t u) (context : NameContext) (scope : Option ClassScope)
    {span : Span} (hspan : span.last < ts.length) (position : Nat) :
    read u context scope (span.shifted front.length) position =
      (read t context scope span position).shifted front.length := by
  have hdraft : settle (step u (span.last + front.length)) {} 0
      (u.within (span.shifted front.length)) =
      (settle (step t span.last) {} 0 (t.within span)).shifted front.length := by
    rw [h.within_eq hspan]
    refine settle_map ?_ (by rfl) (List.suffix_refl _)
    intro p e es hes
    refine step_shifted h hspan p e ?_
    intro a ha
    have := (TokenTable.bounds_of_mem_window (hes.subset (List.mem_cons_of_mem e ha))).2
    omega
  have htype : ∀ s ∈ (settle (step t span.last) {} 0 (t.within span)).typeSpan,
      u.sourceOf (s.shifted front.length) = t.sourceOf s := by
    intro s hs
    exact h.sourceOf_eq (Nat.lt_of_le_of_lt (typeSpan_last_le t span s hs) hspan)
  have hhint : (settle (step u (span.last + front.length)) {} 0
      (u.within (span.shifted front.length))).typeSpan.map u.sourceOf =
      (settle (step t span.last) {} 0 (t.within span)).typeSpan.map t.sourceOf := by
    rw [hdraft, Draft.shifted, Option.map_map]
    exact Option.map_congr htype
  have hline : u.line (span.first + front.length) = t.line span.first :=
    h.line_eq (Nat.lt_of_le_of_lt span.ordered hspan)
  simp only [read, shifted, Span.first_shifted, Span.last_shifted, hhint, hline]
  simp only [hdraft, Draft.shifted]

end Parameter

/-! ## Properties and constants -/

/-- An extent among entries of a window ends in it. -/
theorem last_lt_of_extent? {i j : Nat} {es : List Entry} {s : Span}
    (hes : ∀ e ∈ es, e ∈ t.window i j) (h : Entry.extent? es = some s) : s.last < j := by
  obtain ⟨a, ha, b, hb, rfl⟩ := Entry.exists_of_extent? h
  exact Nat.max_lt.2 ⟨(TokenTable.bounds_of_mem_window (hes a ha)).2,
    (TokenTable.bounds_of_mem_window (hes b hb)).2⟩

namespace Property

theorem named_shifted (h : Shift front ts d t u) {item : Span} (hitem : item.last < ts.length) :
    named u (item.shifted front.length) = (named t item).map (Entry.shifted front.length d) := by
  rw [named, h.within_eq hitem, Entry.dropWhile_shifted _ (· != .variableName), named]

theorem valueStep_shifted (k first last state : Nat) (e : Entry) (es : List Entry) :
    valueStep (first + k) (last + k) (state + k) (e.shifted k d) (es.map (Entry.shifted k d)) =
      ((valueStep first last state e es).1 + k, (valueStep first last state e es).2) := by
  have hkinds : Entry.kinds (e.shifted k d :: es.map (Entry.shifted k d)) = Entry.kinds (e :: es) :=
    Entry.kinds_shifted (e :: es)
  simp only [valueStep, Entry.kind_shifted, Entry.index_shifted, hkinds, List.length_map,
    Nat.add_lt_add_iff_right]
  split
  · split <;> rfl
  · split
    · rw [Nat.add_right_comm]
    · rfl
  · split
    · rw [Nat.add_right_comm]
    · rfl
  · split <;> rfl

theorem valueSpan?_shifted (k last : Nat) (es : List Entry) :
    valueSpan? (last + k) (es.map (Entry.shifted k d)) =
      (valueSpan? last es).map (Span.shifted k) := by
  have hskip : Entry.skipTrivia
      (((es.map (Entry.shifted k d)).dropWhile fun e => e.kind != .equals).drop 1) =
      (Entry.skipTrivia ((es.dropWhile fun e => e.kind != .equals).drop 1)).map
        (Entry.shifted k d) := by
    rw [Entry.dropWhile_shifted es (· != .equals), ← List.map_drop, Entry.skipTrivia_shifted]
  rw [valueSpan?, valueSpan?, hskip]
  cases Entry.skipTrivia ((es.dropWhile fun e => e.kind != .equals).drop 1) with
  | nil => rfl
  | cons v rest =>
    have hsettle : settle (valueStep (v.index + k) (last + k)) (v.index + k) 0
        ((v :: rest).map (Entry.shifted k d)) =
        settle (valueStep v.index last) v.index 0 (v :: rest) + k := by
      refine settle_map (g := (· + k)) ?_ rfl (List.suffix_refl _)
      intro state e es _
      exact valueStep_shifted k _ _ state e es
    rw [List.map_cons] at hsettle ⊢
    simp only [Entry.index_shifted, hsettle, Span.ofBounds_add, Option.map_some]

/-- The default value of a property lies in its item. -/
theorem valueSpan?_last_le {i last : Nat} {es : List Entry} {s : Span}
    (hes : es <:+ t.window i (last + 1)) (h : valueSpan? last es = some s) : s.last ≤ last := by
  rw [valueSpan?] at h
  split at h
  · rename_i v rest hskip
    obtain rfl := Option.some.inj h
    have hsuffix : v :: rest <:+ t.window i (last + 1) := by
      rw [← hskip]
      exact (((List.dropWhile_suffix _).trans (List.drop_suffix _ _)).trans
        (List.dropWhile_suffix _)).trans hes
    have hbound : ∀ {e es}, e :: es <:+ t.window i (last + 1) → e.index + es.length ≤ last := by
      intro e es hes
      have := (TokenTable.index_add_length_le hes).2
      rw [List.length_cons] at this
      omega
    refine Nat.max_le.2 ⟨Nat.le_trans (Nat.le_add_right _ _) (hbound hsuffix), ?_⟩
    refine settle_induction (P := (· ≤ last)) ?_ hsuffix
      (Nat.le_trans (Nat.le_add_right _ _) (hbound hsuffix))
    intro state e es hes hstate
    have hindex : e.index ≤ last := Nat.le_trans (Nat.le_add_right _ _) (hbound hes)
    have hgroup : ∀ n, groupEnd? (Entry.kinds (e :: es)) = some n → e.index + n ≤ last := by
      intro n hn
      have hle := Callable.groupLast_le hes
      rwa [Callable.groupLast, hn] at hle
    rw [valueStep]
    split
    · split
      · exact hstate
      · exact hindex
    -- a bracket that is not closed takes the rest of the item
    · split
      · exact hgroup _ ‹_›
      · exact Nat.le_refl last
    · split
      · exact hgroup _ ‹_›
      · exact Nat.le_refl last
    · split
      · exact hstate
      · exact hindex
  · cases h

/-- A property at a later place. -/
theorem read_shifted (h : Shift front ts d t u) (context : NameContext) (scope : Option ClassScope)
    {decl item : Span} (hdecl : decl.last < ts.length) (hitem : item.last < ts.length) :
    read u context scope (decl.shifted front.length) (item.shifted front.length) =
      read t context scope decl item := by
  have hfront : (u.within (decl.shifted front.length)).takeWhile
      (fun e => e.kind != .variableName) =
      ((t.within decl).takeWhile fun e => e.kind != .variableName).map
        (Entry.shifted front.length d) := by
    rw [h.within_eq hdecl, Entry.takeWhile_shifted _ (· != .variableName)]
  generalize hlead : (t.within decl).takeWhile (fun e => e.kind != .variableName) = lead at hfront
  have hnamed := named_shifted h hitem
  generalize hbehind : named t item = behind at hnamed
  have htype : (Entry.extent? ((Entry.significant (lead.map (Entry.shifted front.length d))).filter
        fun e => e.kind.modifier?.isNone)).map u.sourceOf =
      (Entry.extent? ((Entry.significant lead).filter fun e => e.kind.modifier?.isNone)).map
        t.sourceOf := by
    rw [Entry.significant_shifted, Entry.filter_shifted _ (·.modifier?.isNone),
      Entry.extent?_shifted, Option.map_map]
    refine Option.map_congr ?_
    intro s hs
    have hmem : ∀ e ∈ (Entry.significant lead).filter (fun e => e.kind.modifier?.isNone),
        e ∈ t.within decl := by
      intro e he
      have hlead' : e ∈ lead := List.mem_of_mem_filter (List.mem_of_mem_filter he)
      rw [← hlead] at hlead'
      exact (List.takeWhile_sublist _).subset hlead'
    exact h.sourceOf_eq (Nat.lt_of_lt_of_le (last_lt_of_extent? hmem hs) hdecl)
  have hvalue : (valueSpan? (item.last + front.length)
        (behind.map (Entry.shifted front.length d))).map u.sourceOf =
      (valueSpan? item.last behind).map t.sourceOf := by
    rw [valueSpan?_shifted, Option.map_map]
    refine Option.map_congr ?_
    intro s hs
    have hsuffix : behind <:+ t.within item := by
      rw [← hbehind]
      exact List.dropWhile_suffix _
    exact h.sourceOf_eq (Nat.lt_of_le_of_lt (valueSpan?_last_le hsuffix hs) hitem)
  have hline : u.line (((behind.map (Entry.shifted front.length d)).head?.map Entry.index).getD
        (item.first + front.length)) =
      t.line ((behind.head?.map Entry.index).getD item.first) := by
    rw [List.head?_map]
    cases hhead : behind.head? with
    | none => exact h.line_eq (Nat.lt_of_le_of_lt item.ordered hitem)
    | some e =>
      have hmem : e ∈ named t item := by
        rw [hbehind]
        exact List.mem_of_head? hhead
      exact h.line_eq (Nat.lt_of_lt_of_le
        (TokenTable.bounds_of_mem_window ((List.dropWhile_suffix _).subset hmem)).2 hitem)
  have hdoc : u.docComment? (decl.first + front.length) = t.docComment? decl.first :=
    h.docComment?_eq (Nat.le_of_lt (Nat.lt_of_le_of_lt decl.ordered hdecl))
  simp only [read, hfront, hlead, hnamed, hbehind, htype, hvalue, hline, hdoc, Entry.kinds_shifted,
    Span.first_shifted, Span.last_shifted]
  rw [List.head?_map, Option.map_map]
  rfl

end Property

namespace Constant

/-- The name of a constant is one of the tokens of its item. -/
theorem nameIndex?_le {item : Span} {i : Nat} (h : nameIndex? t item = some i) : i ≤ item.last := by
  rw [nameIndex?] at h
  split at h
  · obtain ⟨e, he, rfl⟩ := Option.map_eq_some_iff.1 h
    have hmem : e ∈ t.within item :=
      (List.takeWhile_sublist _).subset (List.mem_of_mem_filter (List.mem_of_getLast? he))
    exact Nat.le_of_lt_succ (TokenTable.bounds_of_mem_window hmem).2
  · obtain rfl := Option.some.inj h
    exact Nat.le_refl _

theorem nameIndex?_shifted (h : Shift front ts d t u) {item : Span}
    (hitem : item.last < ts.length) :
    nameIndex? u (item.shifted front.length) = (nameIndex? t item).map (· + front.length) := by
  have hany : ∀ es : List Entry, (es.map (Entry.shifted front.length d)).any
      (fun e => e.kind == .equals) = es.any fun e => e.kind == .equals := by
    intro es
    rw [List.any_map]
    rfl
  rw [nameIndex?, nameIndex?, h.within_eq hitem]
  simp only [hany, Entry.takeWhile_shifted _ (· != .equals), Entry.significant_shifted,
    List.getLast?_map, Option.map_map]
  split
  · rw [Option.map_map]
    rfl
  · rfl

/-- A constant at a later place. -/
theorem read_shifted (h : Shift front ts d t u) {decl item : Span} (hdecl : decl.last < ts.length)
    (hitem : item.last < ts.length) :
    read u (decl.shifted front.length) (item.shifted front.length) = read t decl item := by
  have hfront : (u.within (decl.shifted front.length)).takeWhile
        (fun e => e.kind != .keyword .const) =
      ((t.within decl).takeWhile fun e => e.kind != .keyword .const).map
        (Entry.shifted front.length d) := by
    rw [h.within_eq hdecl, Entry.takeWhile_shifted _ (· != .keyword .const)]
  have hname := nameIndex?_shifted h hitem
  have htext : (nameIndex? u (item.shifted front.length)).map u.text =
      (nameIndex? t item).map t.text := by
    rw [hname, Option.map_map]
    refine Option.map_congr ?_
    intro i hi
    exact h.text_eq (Nat.lt_of_le_of_lt (nameIndex?_le hi) hitem)
  have hvalue : (Entry.skipTrivia (((u.within (item.shifted front.length)).dropWhile
        fun e => e.kind != .equals).drop 1)).head?.map
          (fun v => u.sourceOf (.ofBounds v.index (item.last + front.length))) =
      (Entry.skipTrivia (((t.within item).dropWhile fun e => e.kind != .equals).drop 1)).head?.map
        fun v => t.sourceOf (.ofBounds v.index item.last) := by
    rw [h.within_eq hitem, Entry.dropWhile_shifted _ (· != .equals), ← List.map_drop,
      Entry.skipTrivia_shifted, List.head?_map, Option.map_map]
    refine Option.map_congr ?_
    intro v hv
    have hmem : v ∈ t.within item := (List.dropWhile_suffix _).subset (List.mem_of_mem_drop
      ((List.dropWhile_suffix _).subset (List.mem_of_head? hv)))
    have hlt : (Span.ofBounds v.index item.last).last < ts.length :=
      Nat.max_lt.2 ⟨Nat.lt_of_lt_of_le (TokenTable.bounds_of_mem_window hmem).2 hitem, hitem⟩
    rw [← h.sourceOf_eq hlt, ← Span.ofBounds_add]
    rfl
  have hline : u.line ((nameIndex? u (item.shifted front.length)).getD
        (item.first + front.length)) = t.line ((nameIndex? t item).getD item.first) := by
    rw [hname]
    cases hi : nameIndex? t item with
    | none => exact h.line_eq (Nat.lt_of_le_of_lt item.ordered hitem)
    | some i => exact h.line_eq (Nat.lt_of_le_of_lt (nameIndex?_le hi) hitem)
  have hdoc : u.docComment? (decl.first + front.length) = t.docComment? decl.first :=
    h.docComment?_eq (Nat.le_of_lt (Nat.lt_of_le_of_lt decl.ordered hdecl))
  simp only [read, hfront, htext, hvalue, hline, hdoc, Entry.kinds_shifted, Span.first_shifted,
    Span.last_shifted]

end Constant

/-! ## Functions and methods -/

namespace Callable

/-- The function with its spans `k` places later. -/
def shifted (k : Nat) (c : Callable) : Callable :=
  { c with
    span := c.span.shifted k
    parameterList := c.parameterList.map (Span.shifted k)
    parameters := c.parameters.map (Parameter.shifted k)
    returnSpan := c.returnSpan.map (Span.shifted k)
    bodySpan := c.bodySpan.map (Span.shifted k) }

@[simp] theorem shifted_zero : shifted 0 = id := by
  ext c : 1
  simp [shifted]

/-- What stands in front of a name, with the entries behind it `k` places later. -/
def LeadIn.shifted (k d : Nat) (l : LeadIn) : LeadIn :=
  { l with rest := l.rest.map (Entry.shifted k d) }

section

variable (k : Nat)

theorem leadIn_shifted (es : List Entry) :
    leadIn (es.map (Entry.shifted k d)) = (leadIn es).shifted k d := by
  rw [leadIn]
  refine settle_map ?_ (by rfl) (List.suffix_refl es)
  intro l e es _
  have hkinds : Entry.kinds (e.shifted k d :: es.map (Entry.shifted k d)) = Entry.kinds (e :: es) :=
    Entry.kinds_shifted (e :: es)
  simp only [leadInStep, Entry.kind_shifted, hkinds, List.length_map]
  split <;> rfl

theorem naming_shifted (es : List Entry) :
    naming (es.map (Entry.shifted k d)) =
      ((naming es).1, (naming es).2.map (Entry.shifted k d)) := by
  rw [naming, naming, Entry.skipTrivia_shifted]
  cases Entry.skipTrivia es with
  | nil => rfl
  | cons e rest =>
    simp only [List.map_cons, Entry.kind_shifted, Entry.skipTrivia_shifted]
    split <;> rfl

theorem groupLast_shifted (last : Nat) (es : List Entry) :
    groupLast (last + k) (es.map (Entry.shifted k d)) = groupLast last es + k := by
  cases es with
  | nil => rfl
  | cons e es =>
    have hkinds : Entry.kinds (e.shifted k d :: es.map (Entry.shifted k d)) =
        Entry.kinds (e :: es) := Entry.kinds_shifted (e :: es)
    simp only [List.map_cons, groupLast, hkinds, Entry.index_shifted]
    cases groupEnd? (Entry.kinds (e :: es)) with
    | none => rfl
    | some n => exact Nat.add_right_comm _ _ _

theorem parameterList?_shifted (last : Nat) (es : List Entry) :
    parameterList? (last + k) (es.map (Entry.shifted k d)) =
      (parameterList? last es).map (Span.shifted k) := by
  rw [parameterList?, parameterList?, Entry.dropWhile_shifted es (· != .opener .paren)]
  cases es.dropWhile fun e => e.kind != .opener .paren with
  | nil => rfl
  | cons e rest =>
    have hlast := @groupLast_shifted d k last (e :: rest)
    rw [List.map_cons] at hlast ⊢
    simp only [hlast, Entry.index_shifted, Span.ofBounds_add, Option.map_some]

end

/-- What stands behind a parameter list, with its places `k` later. -/
def Tail.shifted (k : Nat) (c : Tail) : Tail :=
  ⟨c.typeFirst.map (· + k), c.typeLast.map (· + k), c.body.map (Span.shifted k)⟩

/-- What a step behind the parameter list does depends on the kind of the token and on whether the
return type has begun. -/
theorem tailStep_eq (t : TokenTable) (last : Nat) (c : Tail) (e : Entry) (es : List Entry) :
    tailStep t last c e es =
      if e.kind = .opener .brace then
        ({ c with body := some (.ofBounds e.index (groupLast last (e :: es))) }, es.length)
      else if e.kind = .semicolon then (c, es.length)
      else if c.typeFirst.isNone then
        if e.kind = .colon then
          ({ c with typeFirst := (Entry.skipTrivia es).head?.map Entry.index }, 0)
        else (c, 0)
      else if e.kind = .opener .paren then
        ({ c with typeLast := some ((t.matchingClose? e.index).getD last) },
          (t.matchingClose? e.index).getD last - e.index)
      else if e.kind.isInsignificant then (c, 0)
      else ({ c with typeLast := some e.index }, 0) := by
  rw [tailStep]
  split <;> simp_all

theorem tailStep_shifted (h : Shift front ts d t u) (last : Nat) (c : Tail) {e : Entry}
    (he : e.index < ts.length) (es : List Entry) :
    tailStep u (last + front.length) (c.shifted front.length) (e.shifted front.length d)
        (es.map (Entry.shifted front.length d)) =
      ((tailStep t last c e es).1.shifted front.length, (tailStep t last c e es).2) := by
  have hgroup := @groupLast_shifted d front.length last (e :: es)
  rw [List.map_cons] at hgroup
  have hclose : (u.matchingClose? (e.index + front.length)).getD (last + front.length) =
      (t.matchingClose? e.index).getD last + front.length := by
    rw [(h.matchingClose?_eq he).1]
    cases t.matchingClose? e.index <;> rfl
  have hnone : (c.shifted front.length).typeFirst.isNone = c.typeFirst.isNone := Option.isNone_map
  have hhead : (Entry.skipTrivia (es.map (Entry.shifted front.length d))).head?.map Entry.index =
      ((Entry.skipTrivia es).head?.map Entry.index).map (· + front.length) := by
    rw [Entry.skipTrivia_shifted, List.head?_map, Option.map_map, Option.map_map]
    rfl
  simp only [tailStep_eq, Entry.kind_shifted, Entry.index_shifted, hgroup, hclose, hnone, hhead,
    Span.ofBounds_add, Nat.add_sub_add_right, List.length_map]
  split_ifs with _ _ _ _ _ hkind
  · rfl
  · rfl
  · rfl
  · rfl
  · rfl
  · exact if_pos hkind
  · exact if_neg hkind

/-- What stands behind a parameter list lies in front of place `n`. -/
structure Tail.Below (n : Nat) (c : Tail) : Prop where
  typeFirst : ∀ i ∈ c.typeFirst, i < n
  typeLast : ∀ i ∈ c.typeLast, i < n
  body : ∀ s ∈ c.body, s.last < n

theorem Tail.Below.typeSpan {n : Nat} {c : Tail} (h : c.Below n) :
    ∀ s ∈ c.typeSpan, s.last < n := by
  intro s hs
  rw [Tail.typeSpan] at hs
  split at hs
  · rename_i a b ha hb
    obtain rfl := Option.some.inj hs
    exact Nat.max_lt.2 ⟨h.typeFirst a ha, h.typeLast b hb⟩
  · cases hs

/-- The return type and the body lie in the part in common. -/
theorem tail_below (h : Shift front ts d t u) {last : Nat} (hlast : last < ts.length)
    (list : Span) :
    (tail t last list).Below ts.length := by
  refine settle_induction (P := Tail.Below ts.length) ?_ (List.suffix_refl _)
    ⟨by simp, by simp, by simp⟩
  intro c e es hes hc
  have hmem : ∀ a ∈ e :: es, a.index < ts.length := by
    intro a ha
    exact Nat.lt_of_lt_of_le (TokenTable.bounds_of_mem_window (hes.subset ha)).2 hlast
  have he := hmem e List.mem_cons_self
  rw [tailStep_eq]
  split_ifs
  · refine ⟨hc.typeFirst, hc.typeLast, ?_⟩
    intro s hs
    obtain rfl := Option.some.inj hs
    exact Nat.max_lt.2 ⟨he, Nat.lt_of_le_of_lt (groupLast_le hes) hlast⟩
  · exact hc
  · refine ⟨?_, hc.typeLast, hc.body⟩
    intro i hi
    obtain ⟨v, hv, rfl⟩ := Option.map_eq_some_iff.1 hi
    exact hmem v (List.mem_cons_of_mem e
      ((List.dropWhile_suffix _).subset (List.mem_of_head? hv)))
  · exact hc
  · refine ⟨hc.typeFirst, ?_, hc.body⟩
    intro i hi
    obtain rfl := Option.some.inj hi
    cases hclose : t.matchingClose? e.index with
    | none => exact hlast
    | some j => exact (h.matchingClose?_eq he).2 j hclose
  · exact hc
  · refine ⟨hc.typeFirst, ?_, hc.body⟩
    intro i hi
    obtain rfl := Option.some.inj hi
    exact he

theorem tail_shifted (h : Shift front ts d t u) {last : Nat} (hlast : last < ts.length)
    (list : Span) :
    tail u (last + front.length) (list.shifted front.length) =
      (tail t last list).shifted front.length := by
  have hwindow := h.window_eq (list.last + 1) hlast
  rw [Nat.add_right_comm, Nat.succ_add] at hwindow
  rw [tail, Span.last_shifted, hwindow]
  refine settle_map ?_ (by rfl) (List.suffix_refl _)
  intro c e es hes
  refine tailStep_shifted h last c ?_ es
  exact Nat.lt_of_lt_of_le
    (TokenTable.bounds_of_mem_window (hes.subset List.mem_cons_self)).2 hlast

theorem readParameters_shifted (h : Shift front ts d t u) (context : NameContext)
    (scope : Option ClassScope) {list : Span} (hlist : list.last < ts.length) :
    readParameters u context scope (list.shifted front.length) =
      (readParameters t context scope list).map (Parameter.shifted front.length) := by
  have hpieces : u.splitTopLevel (list.shifted front.length) =
      (t.splitTopLevel list).map (Span.shifted front.length) := by
    have hwindow := h.window_eq (list.first + 1) (Nat.le_of_lt hlist)
    rw [Nat.add_right_comm] at hwindow
    rw [TokenTable.splitTopLevel, Span.first_shifted, Span.last_shifted, hwindow,
      Entry.pieces_shifted, TokenTable.splitTopLevel]
  rw [readParameters, readParameters, hpieces]
  refine List.ext_getElem? ?_
  intro n
  rw [List.getElem?_map, List.getElem?_mapIdx, List.getElem?_mapIdx, List.getElem?_map,
    Option.map_map, Option.map_map]
  refine Option.map_congr ?_
  intro piece hpiece
  have hbound := (Entry.bounds_of_mem_pieces (List.mem_of_getElem? hpiece) fun a ha =>
    TokenTable.bounds_of_mem_window ha).2
  exact Parameter.read_shifted h context scope (Nat.lt_trans hbound hlist) n

theorem typeSpan_shifted (k : Nat) (c : Tail) :
    (c.shifted k).typeSpan = c.typeSpan.map (Span.shifted k) := by
  obtain ⟨typeFirst, typeLast, body⟩ := c
  cases typeFirst with
  | none => rfl
  | some a =>
    cases typeLast with
    | none => rfl
    | some b => exact congrArg some (Span.ofBounds_add k a b)

/-- A function or method at a later place. -/
theorem read_shifted (h : Shift front ts d t u) (context : NameContext) (scope : Option ClassScope)
    (inInterface : Bool) {span : Span} (hspan : span.last < ts.length) :
    read u context scope inInterface (span.shifted front.length) =
      (read t context scope inInterface span).shifted front.length := by
  have hfirst : span.first < ts.length := Nat.lt_of_le_of_lt span.ordered hspan
  have hline := h.line_eq hfirst
  have hline' := h.line_eq hspan
  have hdoc := h.docComment?_eq (Nat.le_of_lt hfirst)
  have hlead : leadIn (u.within (span.shifted front.length)) =
      (leadIn (t.within span)).shifted front.length d := by
    rw [h.within_eq hspan, leadIn_shifted]
  have hsuffix : (naming (leadIn (t.within span)).rest).2 <:+ t.within span :=
    (naming_suffix _).trans (rest_leadIn_suffix _)
  simp only [read, shifted, hlead, LeadIn.shifted, naming_shifted, Span.first_shifted,
    Span.last_shifted, parameterList?_shifted, hline, hline', hdoc]
  generalize naming (leadIn (t.within span)).rest = named at hsuffix ⊢
  have hname : ((named.2.map (Entry.shifted front.length d)).head?.map fun e => e.text) =
      named.2.head?.map fun e => e.text := by
    rw [List.head?_map, Option.map_map]
    rfl
  cases hlist : parameterList? span.last named.2 with
  | none => simp only [hname, Option.map_none, Option.getD_none, Tail.typeSpan, List.map_nil]
  | some list =>
    have hlast : list.last < ts.length :=
      Nat.lt_of_le_of_lt (inside_of_parameterList? hsuffix hlist).2 hspan
    have hbelow := tail_below h hspan list
    have htype : (tail t span.last list).typeSpan.map (u.sourceOf ∘ Span.shifted front.length) =
        (tail t span.last list).typeSpan.map t.sourceOf := by
      refine Option.map_congr ?_
      intro s hs
      exact h.sourceOf_eq (hbelow.typeSpan s hs)
    have hbody : (tail t span.last list).body.map
          ((fun b => u.sourceBetween b.first b.last) ∘ Span.shifted front.length) =
        (tail t span.last list).body.map fun b => t.sourceBetween b.first b.last := by
      refine Option.map_congr ?_
      intro s hs
      have hs := hbelow.body s hs
      exact h.sourceBetween_eq (Nat.lt_of_le_of_lt s.ordered hs) hs
    simp only [hname, Option.map_some, Option.getD_some, tail_shifted h hspan,
      readParameters_shifted h context scope hlast, typeSpan_shifted, Option.map_map, htype]
    rw [Tail.shifted, Option.map_map, hbody]

end Callable

end PhpOutline
