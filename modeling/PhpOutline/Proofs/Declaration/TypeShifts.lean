import PhpOutline.Proofs.Declaration.Shifts

/-!
# Types at later places

In two tables with tokens in common, a type that lies in the common part has the same members in
both, at later places, and each of them is read alike.

## Main definitions

* `Slot.shifted`, `Member.shifted`, `Listed.shifted`, `ClassLike.shifted`: the same at later places.

## Main statements

* `Member.step_shifted`, `Member.scan_shifted`: the members of a body.
* `ClassLike.read_shifted`: a type that is read at a later place.
-/

namespace PhpOutline

open TokenTable (Shift)

variable {front ts : List Token} {d : Nat} {t u : TokenTable}

/-! ## Members -/

/-- The slot with its spans `k` places later. -/
def Slot.shifted (k : Nat) (s : Slot) : Slot :=
  { s with decl := s.decl.shifted k, item := s.item.shifted k }

namespace Member

/-- The member with its spans `k` places later. -/
def shifted (k : Nat) : Member → Member
  | traitUse name => traitUse name
  | constant slot => constant (slot.shifted k)
  | property slot => property (slot.shifted k)
  | method slot => method (slot.shifted k)

theorem statementLength_shifted (k : Nat) (e : Entry) (es : List Entry) :
    statementLength (e.shifted k d) (es.map (Entry.shifted k d)) = statementLength e es := by
  have hkinds : Entry.kinds (e.shifted k d :: es.map (Entry.shifted k d)) = Entry.kinds (e :: es) :=
    Entry.kinds_shifted (e :: es)
  rw [statementLength, statementLength, hkinds, List.length_map]

theorem traitUses_shifted (k : Nat) (context : NameContext) (es : List Entry) :
    traitUses context (es.map (Entry.shifted k d)) = (traitUses context es).map (shifted k) := by
  simp only [traitUses]
  rw [Entry.takeWhile_shifted es (fun kind => kind != .opener .brace && kind != .semicolon),
    Entry.filter_shifted _ (· == .name), List.map_map, List.map_map]
  rfl

theorem constants_shifted (h : Shift front ts d t u) (decl : Span) {es : List Entry}
    (hes : ∀ e ∈ es, e.index < ts.length) :
    constants u (decl.shifted front.length) (es.map (Entry.shifted front.length d)) =
      (constants t decl es).map (shifted front.length) := by
  rw [constants, constants, Entry.pieces_shifted, List.filterMap_map, List.map_filterMap]
  refine List.filterMap_congr ?_
  intro item hitem
  have hlast : item.last < ts.length :=
    (Entry.bounds_of_mem_pieces hitem fun e he => ⟨Nat.zero_le _, hes e he⟩).2
  rw [Function.comp_apply, Constant.nameIndex?_shifted h hlast, Option.map_map, Option.map_map]
  refine Option.map_congr ?_
  intro i hi
  rw [Function.comp_apply, h.text_eq (Nat.lt_of_le_of_lt (Constant.nameIndex?_le hi) hlast)]
  rfl

theorem properties_shifted (h : Shift front ts d t u) (decl : Span) {es : List Entry}
    (hes : ∀ e ∈ es, e.index < ts.length) :
    properties u (decl.shifted front.length) (es.map (Entry.shifted front.length d)) =
      (properties t decl es).map (shifted front.length) := by
  rw [properties, properties, Entry.pieces_shifted, List.filterMap_map, List.map_filterMap]
  refine List.filterMap_congr ?_
  intro item hitem
  have hlast : item.last < ts.length :=
    (Entry.bounds_of_mem_pieces hitem fun e he => ⟨Nat.zero_le _, hes e he⟩).2
  rw [Function.comp_apply, Property.named_shifted h hlast, List.head?_map, Option.map_map,
    Option.map_map]
  rfl

theorem methodEnd?_shifted (h : Shift front ts d t u) (stop : Nat) {es : List Entry}
    (hes : ∀ e ∈ es, e.index < ts.length) :
    methodEnd? u (stop + front.length) (es.map (Entry.shifted front.length d)) =
      methodEnd? t stop es := by
  refine seek_map ?_ (List.suffix_refl es)
  intro e es' hsuffix
  have he : e.index < ts.length := hes e (hsuffix.subset List.mem_cons_self)
  simp only [Entry.kind_shifted, Entry.index_shifted, (h.matchingClose?_eq he).1,
    Entry.kinds_shifted]
  split
  · rfl
  · cases t.matchingClose? e.index with
    | none => rfl
    | some close =>
      simp only [Option.map_some, Nat.add_min_add_right, Nat.add_sub_add_right]
  · rfl
  · rfl
  · rfl
  · rfl

theorem method?_shifted (h : Shift front ts d t u) {i stop : Nat} (hstop : stop ≤ ts.length)
    (first : Nat) {es : List Entry} (hes : es <:+ t.window i stop) :
    method? u (stop + front.length) (first + front.length)
        (es.map (Entry.shifted front.length d)) =
      (method? t stop first es).map (Slot.shifted front.length) := by
  rw [method?, method?, Callable.naming_shifted]
  cases hnaming : (Callable.naming es).2 with
  | nil => rfl
  | cons name rest =>
    have hsuffix : name :: rest <:+ t.window i stop := by
      rw [← hnaming]
      exact (Callable.naming_suffix es).trans hes
    have hrest : ∀ e ∈ rest, e.index < ts.length := by
      intro e he
      exact Nat.lt_of_lt_of_le (TokenTable.bounds_of_mem_window
        (hsuffix.subset (List.mem_cons_of_mem name he))).2 hstop
    have hpos : 1 ≤ stop := Nat.lt_of_le_of_lt (Nat.zero_le _)
      (TokenTable.bounds_of_mem_window (hsuffix.subset List.mem_cons_self)).2
    have hlast : ((methodEnd? t stop rest).map (name.index + front.length + 1 + ·)).getD
          (stop + front.length - 1) =
        ((methodEnd? t stop rest).map (name.index + 1 + ·)).getD (stop - 1) + front.length := by
      cases methodEnd? t stop rest with
      | none =>
        simp only [Option.map_none, Option.getD_none]
        omega
      | some n =>
        simp only [Option.map_some, Option.getD_some]
        omega
    simp only [List.map_cons, Entry.index_shifted, methodEnd?_shifted h stop hrest, hlast,
      Span.ofBounds_add, Option.map_some]
    rfl

/-- A step over a body at a later place. -/
theorem step_shifted (h : Shift front ts d t u) (context : NameContext) {i stop : Nat}
    (hstop : stop ≤ ts.length) (start : Option Nat) {e : Entry} {es : List Entry}
    (hes : e :: es <:+ t.window i stop) :
    step u context (stop + front.length) (start.map (· + front.length))
        (e.shifted front.length d) (es.map (Entry.shifted front.length d)) =
      ⟨(step t context stop start e es).emitted.map (shifted front.length),
        (step t context stop start e es).state.map (· + front.length),
        (step t context stop start e es).claims⟩ := by
  have hmem : ∀ a ∈ e :: es, a.index < ts.length := by
    intro a ha
    exact Nat.lt_of_lt_of_le (TokenTable.bounds_of_mem_window (hes.subset ha)).2 hstop
  have hkinds : Entry.kinds (e.shifted front.length d :: es.map (Entry.shifted front.length d)) =
      Entry.kinds (e :: es) := Entry.kinds_shifted (e :: es)
  have hfirst : (start.map (· + front.length)).getD (e.index + front.length) =
      start.getD e.index + front.length := by
    cases start <;> rfl
  have hmethod := method?_shifted h hstop (start.getD e.index) ((List.suffix_cons e es).trans hes)
  have hconstants : ∀ decl n, constants u (decl.shifted front.length)
      ((es.map (Entry.shifted front.length d)).take n) =
      (constants t decl (es.take n)).map (shifted front.length) := by
    intro decl n
    rw [← List.map_take]
    refine constants_shifted h decl ?_
    intro a ha
    exact hmem a (List.mem_cons_of_mem e (List.mem_of_mem_take ha))
  have hproperties : ∀ decl n, properties u (decl.shifted front.length)
      ((e.shifted front.length d :: es.map (Entry.shifted front.length d)).take n) =
      (properties t decl ((e :: es).take n)).map (shifted front.length) := by
    intro decl n
    rw [← List.map_cons, ← List.map_take]
    refine properties_shifted h decl ?_
    intro a ha
    exact hmem a (List.mem_of_mem_take ha)
  have htraits : ∀ n, traitUses context ((es.map (Entry.shifted front.length d)).take n) =
      (traitUses context (es.take n)).map (shifted front.length) := by
    intro n
    rw [← List.map_take, traitUses_shifted]
  have hdecl : ∀ n, Span.ofBounds (start.getD e.index + front.length)
      (e.index + front.length + n) =
      (Span.ofBounds (start.getD e.index) (e.index + n)).shifted front.length := by
    intro n
    rw [Nat.add_right_comm, Span.ofBounds_add]
  simp only [step, Entry.kind_shifted, Entry.index_shifted, statementLength_shifted, hkinds, hfirst,
    hmethod, hdecl, hconstants, hproperties, htraits, Option.isNone_map, List.length_map]
  split
  case h_4 =>
    split
    · rfl
    · rfl
  case h_6 =>
    cases method? t stop (start.getD e.index) es with
    | none => rfl
    | some slot =>
      have hclaims : slot.decl.last + front.length - (e.index + front.length) =
          slot.decl.last - e.index := Nat.add_sub_add_right _ _ _
      exact congrArg (Stride.mk [method (slot.shifted front.length)] none) hclaims
  case h_10 =>
    split
    · rfl
    · rfl
  all_goals rfl

/-- The members of a body at a later place. -/
theorem scan_shifted (h : Shift front ts d t u) (context : NameContext) {body : Span}
    (hbody : body.last ≤ ts.length) :
    scan u context (body.shifted front.length) =
      (scan t context body).map (shifted front.length) := by
  have hwindow := h.window_eq (body.first + 1) hbody
  rw [Nat.add_right_comm] at hwindow
  rw [scan, scan, Span.first_shifted, Span.last_shifted, hwindow]
  refine sweep_map (g := Option.map (· + front.length)) ?_ (by rfl) (List.suffix_refl _)
  intro start e es hes
  exact step_shifted h context hbody start hes

end Member

/-! ## Types -/

/-- The member with its spans `k` places later, and its record as `f` makes it. -/
def Listed.shifted {α : Type} (k : Nat) (f : α → α) (l : Listed α) : Listed α :=
  ⟨l.toSlot.shifted k, f l.record⟩

@[simp] theorem Listed.shifted_zero {α : Type} : Listed.shifted 0 (id : α → α) = id := rfl

namespace ClassLike

/-- The type with its spans `k` places later. -/
def shifted (k : Nat) (c : ClassLike) : ClassLike :=
  { c with
    span := c.span.shifted k
    body := c.body.shifted k
    constants := c.constants.map (Listed.shifted k id)
    properties := c.properties.map (Listed.shifted k id)
    methods := c.methods.map (Listed.shifted k (Callable.shifted k)) }

@[simp] theorem shifted_zero : shifted 0 = id := by
  ext c : 1
  simp [shifted]

theorem references_shifted (k : Nat) (clause : Option Clause) (es : List Entry) :
    references clause (es.map (Entry.shifted k d)) = references clause es := by
  induction es generalizing clause with
  | nil => rfl
  | cons e es ih =>
    rw [List.map_cons, references.eq_def, references.eq_def]
    simp only [Entry.kind_shifted, Entry.text_shifted, ih]

/-- The members of one sort, which `f` picks, with what is read of them: `ru` reads at a later place
what `rt` reads. -/
theorem listed_shifted {α : Type} (context : NameContext) {body : Span} {n : Nat}
    (hbody : body.last < n) (k : Nat) {f : Member → Option Slot}
    (hf : ∀ m : Member, f (m.shifted k) = (f m).map (Slot.shifted k))
    (hslot : ∀ m s, f m = some s → m.slot? = some s) {rt ru : Slot → α} {g : α → α}
    (hread : ∀ s : Slot, s.decl.last < n → s.item.last < n → ru (s.shifted k) = g (rt s)) :
    ((((Member.scan t context body).map (Member.shifted k)).filterMap f).map fun s =>
        (⟨s, ru s⟩ : Listed α)) =
      (((Member.scan t context body).filterMap f).map fun s => (⟨s, rt s⟩ : Listed α)).map
        (Listed.shifted k g) := by
  have hslots : ((Member.scan t context body).map (Member.shifted k)).filterMap f =
      ((Member.scan t context body).filterMap f).map (Slot.shifted k) := by
    rw [List.filterMap_map, List.map_filterMap]
    refine List.filterMap_congr ?_
    intro m _
    exact hf m
  rw [hslots, List.map_map, List.map_map]
  refine List.map_congr_left ?_
  intro s hs
  obtain ⟨m, hm, hmem⟩ := List.mem_filterMap.1 hs
  -- the members of a body lie in it
  obtain ⟨-, hitem, hdecl⟩ := (Member.scan_ordered t context body).1 m hm s (hslot m s hmem)
  have hlt : s.decl.last < n := Nat.lt_of_le_of_lt hdecl hbody
  exact congrArg (Listed.mk (s.shifted k)) (hread s hlt (Nat.lt_of_le_of_lt hitem.2 hlt))

theorem traits_shifted (k : Nat) (ms : List Member) :
    (ms.map (Member.shifted k)).filterMap Member.traitUse? = ms.filterMap Member.traitUse? := by
  rw [List.filterMap_map]
  refine List.filterMap_congr ?_
  intro m _
  cases m <;> rfl

section

variable (h : Shift front ts d t u) (context : NameContext) {body : Span}
  (hbody : body.last < ts.length)

include h hbody

theorem constants_shifted :
    ((((Member.scan t context body).map (Member.shifted front.length)).filterMap
        Member.constant?).map fun s => (⟨s, .read u s.decl s.item⟩ : Listed Constant)) =
      (((Member.scan t context body).filterMap Member.constant?).map fun s =>
        (⟨s, .read t s.decl s.item⟩ : Listed Constant)).map (Listed.shifted front.length id) := by
  refine listed_shifted context hbody front.length ?_ ?_ ?_
  · intro m
    cases m <;> rfl
  · intro m s hs
    cases m <;> first | exact hs | cases hs
  · intro s hdecl hitem
    exact Constant.read_shifted h hdecl hitem

theorem properties_shifted (scope : Option ClassScope) :
    ((((Member.scan t context body).map (Member.shifted front.length)).filterMap
        Member.property?).map fun s =>
          (⟨s, .read u context scope s.decl s.item⟩ : Listed Property)) =
      (((Member.scan t context body).filterMap Member.property?).map fun s =>
        (⟨s, .read t context scope s.decl s.item⟩ : Listed Property)).map
          (Listed.shifted front.length id) := by
  refine listed_shifted context hbody front.length ?_ ?_ ?_
  · intro m
    cases m <;> rfl
  · intro m s hs
    cases m <;> first | exact hs | cases hs
  · intro s hdecl hitem
    exact Property.read_shifted h context scope hdecl hitem

theorem methods_shifted (scope : Option ClassScope) (inInterface : Bool) :
    ((((Member.scan t context body).map (Member.shifted front.length)).filterMap
        Member.methodSlot?).map fun s =>
          (⟨s, .read u context scope inInterface s.decl⟩ : Listed Callable)) =
      (((Member.scan t context body).filterMap Member.methodSlot?).map fun s =>
        (⟨s, .read t context scope inInterface s.decl⟩ : Listed Callable)).map
          (Listed.shifted front.length (Callable.shifted front.length)) := by
  refine listed_shifted context hbody front.length ?_ ?_ ?_
  · intro m
    cases m <;> rfl
  · intro m s hs
    cases m <;> first | exact hs | cases hs
  · intro s hdecl _
    exact Callable.read_shifted h context scope inInterface hdecl

end

/-- The first brace, or the last place where there is none. -/
theorem brace_shifted (k last : Nat) (es : List Entry) :
    (((es.map (Entry.shifted k d)).find? fun e => e.kind == .opener .brace).map
        Entry.index).getD (last + k) =
      ((es.find? fun e => e.kind == .opener .brace).map Entry.index).getD last + k := by
  rw [List.find?_map, Option.map_map]
  change ((es.find? fun e => e.kind == .opener .brace).map
    (Entry.index ∘ Entry.shifted k d)).getD _ = _
  cases es.find? fun e => e.kind == .opener .brace <;> rfl

theorem brace_le {last : Nat} {es : List Entry} (hes : ∀ e ∈ es, e.index ≤ last) :
    ((es.find? fun e => e.kind == .opener .brace).map Entry.index).getD last ≤ last := by
  cases hfind : es.find? fun e => e.kind == .opener .brace with
  | none => exact Nat.le_refl _
  | some e => exact hes e (List.mem_of_find?_eq_some hfind)

/-- What is named between the name of a type and its brace. -/
theorem header_shifted (h : Shift front ts d t u) (named : List Entry) {brace : Nat}
    (hbrace : brace ≤ ts.length) :
    references none (((named.map (Entry.shifted front.length d)).head?.map fun e =>
        u.window (e.index + 1) (brace + front.length)).getD []) =
      references none ((named.head?.map fun e => t.window (e.index + 1) brace).getD []) := by
  rw [List.head?_map, Option.map_map]
  cases named.head? with
  | none => rfl
  | some e =>
    have hwindow := h.window_eq (e.index + 1) hbrace
    rw [Nat.add_right_comm] at hwindow
    exact (congrArg (references none) hwindow).trans (references_shifted _ _ _)

/-- A type at a later place. -/
theorem read_shifted (h : Shift front ts d t u) (context : NameContext) {span : Span}
    (hspan : span.last < ts.length) {keyword : Nat} (hkeyword : keyword < ts.length) :
    read u context (span.shifted front.length) (keyword + front.length) =
      (read t context span keyword).shifted front.length := by
  have hfirst : span.first < ts.length := Nat.lt_of_le_of_lt span.ordered hspan
  have hline := h.line_eq hfirst
  have hline' := h.line_eq hspan
  have hdoc := h.docComment?_eq (Nat.le_of_lt hfirst)
  have hkind := h.kind?_eq hkeyword
  have hlead := h.window_eq span.first (Nat.le_of_lt hkeyword)
  have hnamed : Entry.skipTrivia
        (u.window (keyword + front.length + 1) (span.last + front.length + 1)) =
      (Entry.skipTrivia (t.window (keyword + 1) (span.last + 1))).map
        (Entry.shifted front.length d) := by
    rw [Nat.add_right_comm keyword, Nat.add_right_comm span.last,
      h.window_eq (keyword + 1) (Nat.succ_le_of_lt hspan), Entry.skipTrivia_shifted]
  have hmem : ∀ e ∈ Entry.skipTrivia (t.window (keyword + 1) (span.last + 1)),
      e.index ≤ span.last := by
    intro e he
    exact Nat.le_of_lt_succ
      (TokenTable.bounds_of_mem_window ((List.dropWhile_suffix _).subset he)).2
  simp only [read, shifted, Span.first_shifted, Span.last_shifted, hkind, hlead, hnamed,
    Entry.kinds_shifted, hline, hline', hdoc]
  generalize Entry.skipTrivia (t.window (keyword + 1) (span.last + 1)) = named at hmem ⊢
  have hname : ((named.map (Entry.shifted front.length d)).head?.map fun e => e.text) =
      named.head?.map fun e => e.text := by
    rw [List.head?_map, Option.map_map]
    rfl
  have hle := brace_le hmem
  rw [hname, brace_shifted]
  generalize ((named.find? fun e => e.kind == .opener .brace).map Entry.index).getD span.last =
    brace at hle ⊢
  have hbrace : brace < ts.length := Nat.lt_of_le_of_lt hle hspan
  have hbody : (Span.ofBounds brace span.last).last < ts.length := Nat.max_lt.2 ⟨hbrace, hspan⟩
  simp only [header_shifted h named (Nat.le_of_lt hbrace), Span.ofBounds_add,
    Member.scan_shifted h context (Nat.le_of_lt hbody), traits_shifted,
    constants_shifted h context hbody, properties_shifted h context hbody,
    methods_shifted h context hbody]

end ClassLike

end PhpOutline
