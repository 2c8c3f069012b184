import PhpOutline.Proofs.Declaration.Spans
import PhpOutline.Proofs.Discovery.Spans
import PhpOutline.Proofs.Lexing.Lines
import PhpOutline.Proofs.Outline.Snapshots

/-!
# Spans of a file

Spans are nested as declarations are: the types and functions of a file follow each other in the
file, the members of a type follow each other between its opening brace and its end, and the
parameters of a function lie in it. Lines are nested in the same way. This holds of every source,
however malformed or truncated it is.

## Main definitions

* `ClassLike.SpansNested`: the members of a type lie in its body.
* `SourceFile.SpansNested`: the declarations of a file, and what lies in them.

## Main statements

* `ClassLike.spansNested_read`: a type whose body has an opening brace.
* `SourceFile.spansNested`: every source.
-/

namespace PhpOutline

/-- Two spans have no place in common. -/
def Span.Apart (s u : Span) : Prop := s.Precedes u ∨ u.Precedes s

/-! ## Lines -/

/-- Lines never decrease from place to place. -/
theorem TokenTable.line_mono {t : TokenTable} (h : t.tokens.Pairwise fun a b => a.line ≤ b.line)
    {i j : Nat} (hij : i ≤ j) : t.line i ≤ t.line j := by
  have hle : ∀ {m n : Nat} (hm : m < t.tokens.length) (hn : n < t.tokens.length), m ≤ n →
      t.tokens[m].line ≤ t.tokens[n].line := by
    intro m n hm hn hmn
    rcases Nat.lt_or_eq_of_le hmn with hlt | rfl
    · exact List.pairwise_iff_getElem.1 h m n hm hn hlt
    · exact Nat.le_refl _
  by_cases hi : i < t.tokens.length
  · by_cases hj : j < t.tokens.length
    · simpa [line, get?, List.getElem?_eq_getElem, hi, hj] using hle hi hj hij
    · have hlast : t.tokens.length - 1 < t.tokens.length := by omega
      simpa [line, get?, List.getElem?_eq_getElem hi, List.getElem?_eq_none (Nat.le_of_not_lt hj),
        List.getLast?_eq_getElem?, List.getElem?_eq_getElem hlast] using
          hle hi hlast (by omega)
  · have hj : t.tokens.length ≤ j := by omega
    simp [line, get?, List.getElem?_eq_none (Nat.le_of_not_lt hi), List.getElem?_eq_none hj]

/-! ## Types -/

namespace ClassLike

/-- The members of a type lie in its body, one declaration behind the other, and the parameters of a
method in the method. -/
structure SpansNested (t : TokenTable) (c : ClassLike) : Prop where
  /-- The body begins with a brace, behind the first token of the type. -/
  brace : t.kind? c.body.first = some (.opener .brace)
  span_lt_body : c.span.first < c.body.first
  /-- A declaration lies behind the brace and ends with the type at the latest; what introduces the
  member lies in it. -/
  member : ∀ s ∈ c.constants.map Listed.toSlot ++ c.properties.map Listed.toSlot ++
    c.methods.map Listed.toSlot,
    c.body.first < s.decl.first ∧ s.decl.last ≤ c.span.last ∧ s.item.Inside s.decl
  /-- Constants stand in order, also within one declaration. -/
  constants : (c.constants.map Listed.toSlot).Pairwise Slot.Before
  /-- So do properties. -/
  properties : (c.properties.map Listed.toSlot).Pairwise Slot.Before
  /-- Every method has a declaration of its own, and these stand in order. -/
  methods : (c.methods.map Listed.toSlot).Pairwise fun s u => s.decl.Precedes u.decl
  /-- Members of different sorts have different declarations, and these are apart. -/
  constants_properties : ∀ s ∈ c.constants, ∀ u ∈ c.properties, s.decl.Apart u.decl
  constants_methods : ∀ s ∈ c.constants, ∀ u ∈ c.methods, s.decl.Apart u.decl
  properties_methods : ∀ s ∈ c.properties, ∀ u ∈ c.methods, s.decl.Apart u.decl
  /-- A method reaches over its declaration and has its parameters in it. -/
  parameters : ∀ m ∈ c.methods, m.record.span = m.decl ∧ m.record.SpansNested
  /-- The lines of a method lie between those of its type. -/
  lines : ∀ m ∈ c.methods, c.lineFirst ≤ m.record.lineFirst ∧
    m.record.lineFirst ≤ m.record.lineLast ∧ m.record.lineLast ≤ c.lineLast

theorem eq_constant {m : Member} {s : Slot} (h : m.constant? = some s) : m = .constant s := by
  cases m <;> simp_all [Member.constant?]

theorem eq_property {m : Member} {s : Slot} (h : m.property? = some s) : m = .property s := by
  cases m <;> simp_all [Member.property?]

theorem eq_method {m : Member} {s : Slot} (h : m.methodSlot? = some s) : m = .method s := by
  cases m <;> simp_all [Member.methodSlot?]

section

variable {t : TokenTable} {context : NameContext} {span : Span} {keyword : Nat}

/-- The body of a type begins at the first brace behind its name. -/
theorem body_read {brace : Entry} (hmem : brace ∈ t.startingAt 0)
    (hkind : brace.kind = .opener .brace) (hlt : keyword < brace.index)
    (hle : brace.index ≤ span.last) :
    t.kind? (read t context span keyword).body.first = some (.opener .brace) ∧
      keyword < (read t context span keyword).body.first ∧
      (read t context span keyword).body.last = span.last := by
  have hnamed : brace ∈ Entry.skipTrivia (t.window (keyword + 1) (span.last + 1)) := by
    have hwindow : brace ∈ t.window (keyword + 1) (span.last + 1) :=
      TokenTable.mem_window hmem hlt (Nat.lt_succ_of_le hle)
    have hsplit := @List.takeWhile_append_dropWhile _ (fun e : Entry => e.kind.isInsignificant)
      (t.window (keyword + 1) (span.last + 1))
    rw [← hsplit, List.mem_append] at hwindow
    rcases hwindow with htrivia | hrest
    · have := List.mem_takeWhile_imp htrivia
      rw [hkind] at this
      cases this
    · exact hrest
  obtain ⟨e, he⟩ : ∃ e, (Entry.skipTrivia (t.window (keyword + 1) (span.last + 1))).find?
      (fun e => e.kind == .opener .brace) = some e := by
    rw [← Option.isSome_iff_exists, List.find?_isSome]
    exact ⟨brace, hnamed, by simp [hkind]⟩
  have hekind : e.kind = .opener .brace := by simpa using List.find?_some he
  have hewindow : e ∈ t.window (keyword + 1) (span.last + 1) :=
    (List.dropWhile_suffix _).subset (List.mem_of_find?_eq_some he)
  obtain ⟨hfirst, hlast⟩ := TokenTable.bounds_of_mem_window hewindow
  have hbody : (read t context span keyword).body = .ofBounds e.index span.last := by
    simp [read, he]
  rw [hbody, Span.first_ofBounds, Span.last_ofBounds,
    TokenTable.kind?_index (TokenTable.mem_startingAt_of_mem_window hewindow), hekind]
  exact ⟨rfl, hfirst, by omega⟩

/-- The members of each sort, as they are found in the body. -/
theorem slots_read :
    (read t context span keyword).constants.map Listed.toSlot =
        (Member.scan t context (read t context span keyword).body).filterMap Member.constant? ∧
      (read t context span keyword).properties.map Listed.toSlot =
        (Member.scan t context (read t context span keyword).body).filterMap Member.property? ∧
      (read t context span keyword).methods.map Listed.toSlot =
        (Member.scan t context (read t context span keyword).body).filterMap
          Member.methodSlot? := by
  refine ⟨?_, ?_, ?_⟩
  · exact (List.map_map ..).trans (List.map_id _)
  · exact (List.map_map ..).trans (List.map_id _)
  · exact (List.map_map ..).trans (List.map_id _)

theorem constant_mem_scan {s : Slot}
    (h : s ∈ (read t context span keyword).constants.map Listed.toSlot) :
    .constant s ∈ Member.scan t context (read t context span keyword).body := by
  rw [slots_read.1] at h
  obtain ⟨m, hm, hs⟩ := List.mem_filterMap.1 h
  exact eq_constant hs ▸ hm

theorem property_mem_scan {s : Slot}
    (h : s ∈ (read t context span keyword).properties.map Listed.toSlot) :
    .property s ∈ Member.scan t context (read t context span keyword).body := by
  rw [slots_read.2.1] at h
  obtain ⟨m, hm, hs⟩ := List.mem_filterMap.1 h
  exact eq_property hs ▸ hm

theorem method_mem_scan {s : Slot}
    (h : s ∈ (read t context span keyword).methods.map Listed.toSlot) :
    .method s ∈ Member.scan t context (read t context span keyword).body := by
  rw [slots_read.2.2] at h
  obtain ⟨m, hm, hs⟩ := List.mem_filterMap.1 h
  exact eq_method hs ▸ hm

/-- A member, of whatever sort, lies in the body. -/
theorem liesFrom_read {s : Slot}
    (h : s ∈ (read t context span keyword).constants.map Listed.toSlot ++
      (read t context span keyword).properties.map Listed.toSlot ++
      (read t context span keyword).methods.map Listed.toSlot) :
    (read t context span keyword).body.first < s.decl.first ∧
      s.decl.last ≤ (read t context span keyword).body.last ∧ s.item.Inside s.decl := by
  obtain ⟨m, hm, hslot⟩ : ∃ m ∈ Member.scan t context (read t context span keyword).body,
      m.slot? = some s := by
    rcases List.mem_append.1 h with h | h
    · rcases List.mem_append.1 h with h | h
      · exact ⟨_, constant_mem_scan h, rfl⟩
      · exact ⟨_, property_mem_scan h, rfl⟩
    · exact ⟨_, method_mem_scan h, rfl⟩
  obtain ⟨hfirst, hitem, hlast⟩ := (Member.scan_ordered t context _).1 m hm s hslot
  exact ⟨hfirst, hlast, hitem⟩

/-- A method is read from its declaration. -/
theorem record_of_mem_methods {m : Listed Callable}
    (h : m ∈ (read t context span keyword).methods) :
    ∃ scope inInterface, m.record = .read t context scope inInterface m.decl := by
  obtain ⟨s, -, rfl⟩ := List.mem_map.1 h
  exact ⟨_, _, rfl⟩

/-- The members of a type lie in its body when that begins with a brace. -/
theorem spansNested_read (hlines : t.tokens.Pairwise fun a b => a.line ≤ b.line) {brace : Entry}
    (hmem : brace ∈ t.startingAt 0) (hkind : brace.kind = .opener .brace)
    (hfirst : span.first ≤ keyword) (hlt : keyword < brace.index) (hle : brace.index ≤ span.last) :
    (read t context span keyword).SpansNested t := by
  obtain ⟨hbrace, hbody, hlast⟩ := @body_read t context span keyword brace hmem hkind hlt hle
  have hordered := (Member.scan_ordered t context (read t context span keyword).body).2
  constructor
  case brace => exact hbrace
  case span_lt_body => exact Nat.lt_of_le_of_lt hfirst hbody
  case member =>
    intro s hs
    have hin := liesFrom_read hs
    rw [hlast] at hin
    exact hin
  case constants =>
    rw [slots_read.1]
    refine List.Pairwise.filterMap _ ?_ hordered
    intro m m' hlt s hs u hu
    rw [eq_constant hs, eq_constant hu] at hlt
    exact hlt
  case properties =>
    rw [slots_read.2.1]
    refine List.Pairwise.filterMap _ ?_ hordered
    intro m m' hlt s hs u hu
    rw [eq_property hs, eq_property hu] at hlt
    exact hlt
  case methods =>
    rw [slots_read.2.2]
    refine List.Pairwise.filterMap _ ?_ hordered
    intro m m' hlt s hs u hu
    rw [eq_method hs, eq_method hu] at hlt
    exact hlt s rfl u rfl
  case constants_properties =>
    intro s hs u hu
    have hor := rel_or_rel_of_pairwise hordered (constant_mem_scan (List.mem_map_of_mem hs))
      (property_mem_scan (List.mem_map_of_mem hu)) (by simp)
    exact hor.imp (fun h => h _ rfl _ rfl) (fun h => h _ rfl _ rfl)
  case constants_methods =>
    intro s hs u hu
    have hor := rel_or_rel_of_pairwise hordered (constant_mem_scan (List.mem_map_of_mem hs))
      (method_mem_scan (List.mem_map_of_mem hu)) (by simp)
    exact hor.imp (fun h => h _ rfl _ rfl) (fun h => h _ rfl _ rfl)
  case properties_methods =>
    intro s hs u hu
    have hor := rel_or_rel_of_pairwise hordered (property_mem_scan (List.mem_map_of_mem hs))
      (method_mem_scan (List.mem_map_of_mem hu)) (by simp)
    exact hor.imp (fun h => h _ rfl _ rfl) (fun h => h _ rfl _ rfl)
  case parameters =>
    intro m hm
    obtain ⟨scope, inInterface, hrecord⟩ := record_of_mem_methods hm
    rw [hrecord]
    exact ⟨rfl, Callable.spansNested_read t context scope inInterface m.decl⟩
  case lines =>
    intro m hm
    obtain ⟨scope, inInterface, hrecord⟩ := record_of_mem_methods hm
    obtain ⟨hafter, hend, -⟩ :=
      liesFrom_read (List.mem_append_right _ (List.mem_map_of_mem hm))
    rw [hlast] at hend
    rw [hrecord]
    refine ⟨TokenTable.line_mono hlines ?_, TokenTable.line_mono hlines m.decl.ordered,
      TokenTable.line_mono hlines hend⟩
    omega

end

end ClassLike

/-! ## Declarations of a file -/

namespace Event

theorem eq_declaresType {ev : Event} {site : Site} (h : ev.type? = some site) :
    ev = declaresType site := by
  cases ev <;> simp_all [type?]

theorem eq_declaresFunction {ev : Event} {site : Site} (h : ev.function? = some site) :
    ev = declaresFunction site := by
  cases ev <;> simp_all [function?]

end Event

namespace Outline

/-- The declarations at some sites stand at these sites. -/
theorem map_place_declarationsFrom (c : NameContext) (site? : Event → Option Site)
    (events : List Event) :
    (declarationsFrom c site? events).map (fun d => (d.keyword, d.span)) =
      (events.filterMap site?).map fun s => (s.keyword, s.span) := by
  induction events generalizing c with
  | nil => rfl
  | cons e events ih =>
    rw [declarationsFrom_cons, List.map_append, ih, List.filterMap_cons]
    cases site? e with
    | none => rfl
    | some site => rfl

section

variable {field : Outline → List Declared} {site? : Event → Option Site}

theorem map_place_ofTable (h : IsField field site?) (hnil : field {} = []) (t : TokenTable) :
    (field (ofTable t)).map (fun d => (d.keyword, d.span)) =
      ((Event.discover t).filterMap site?).map fun s => (s.keyword, s.span) := by
  rw [ofTable_eq_replay, field_replay h, hnil, List.nil_append, map_place_declarationsFrom]

/-- A declaration of an outline was found in the file, and is given in the context that was in
effect there. -/
theorem exists_event_of_mem (h : IsField field site?) (hnil : field {} = []) {t : TokenTable}
    {d : Declared} (hd : d ∈ field (ofTable t)) :
    ∃ ev ∈ Event.discover t, ∃ site, site? ev = some site ∧ d = site.declaredIn d.context := by
  rw [ofTable_eq_replay, field_replay h, hnil, List.nil_append] at hd
  obtain ⟨p, hp, hsite⟩ := List.mem_filterMap.1 hd
  obtain ⟨site, hs, rfl⟩ := Option.map_eq_some_iff.1 hsite
  exact ⟨p.2, (List.of_mem_zip hp).2, site, hs, rfl⟩

/-- The declarations of one sort follow each other. -/
theorem pairwise_field (h : IsField field site?) (hnil : field {} = [])
    (hsite : ∀ ev site, site? ev = some site → ev.site? = some site) (t : TokenTable) :
    (field (ofTable t)).Pairwise fun d e => d.span.Precedes e.span := by
  have hevents : ((Event.discover t).filterMap site?).Pairwise fun s u =>
      s.span.Precedes u.span := by
    refine List.Pairwise.filterMap _ ?_ (Event.pairwise_discover t)
    intro ev ev' hlt s hs u hu
    exact hlt s (hsite ev s hs) u (hsite ev' u hu)
  have hpairs : (((Event.discover t).filterMap site?).map fun s => (s.keyword, s.span)).Pairwise
      fun p q => p.2.Precedes q.2 := List.pairwise_map.2 hevents
  rw [← map_place_ofTable h hnil, List.pairwise_map] at hpairs
  exact hpairs

end

end Outline

namespace SourceFile

/-- The declarations of a file lie in the file, one behind the other, and their members and
parameters lie in them. -/
structure SpansNested (f : SourceFile) : Prop where
  types_lt : ∀ d ∈ f.outline.types, d.span.last < f.table.size
  functions_lt : ∀ d ∈ f.outline.functions, d.span.last < f.table.size
  types : f.outline.types.Pairwise fun d e => d.span.Precedes e.span
  functions : f.outline.functions.Pairwise fun d e => d.span.Precedes e.span
  types_functions : ∀ d ∈ f.outline.types, ∀ e ∈ f.outline.functions, d.span.Apart e.span
  readType : ∀ d ∈ f.outline.types,
    (f.readType d).span = d.span ∧ (f.readType d).SpansNested f.table
  readFunction : ∀ d ∈ f.outline.functions,
    (f.readFunction d).span = d.span ∧ (f.readFunction d).SpansNested

theorem exists_of_mem_types {t : TokenTable} {d : Declared} (h : d ∈ (Outline.ofTable t).types) :
    ∃ site, .declaresType site ∈ Event.discover t ∧ site.keyword = d.keyword ∧
      site.span = d.span := by
  obtain ⟨ev, hev, site, hs, hd⟩ := Outline.exists_event_of_mem Outline.isField_types rfl h
  rw [hd]
  exact ⟨site, Event.eq_declaresType hs ▸ hev, rfl, rfl⟩

theorem exists_of_mem_functions {t : TokenTable} {d : Declared}
    (h : d ∈ (Outline.ofTable t).functions) :
    ∃ site, .declaresFunction site ∈ Event.discover t ∧ site.keyword = d.keyword ∧
      site.span = d.span := by
  obtain ⟨ev, hev, site, hs, hd⟩ := Outline.exists_event_of_mem Outline.isField_functions rfl h
  rw [hd]
  exact ⟨site, Event.eq_declaresFunction hs ▸ hev, rfl, rfl⟩

/-- The spans of every file are nested. -/
theorem spansNested (o : Options) (source : Text) : (ofSource o source).SpansNested := by
  constructor
  case types_lt =>
    intro d hd
    obtain ⟨site, hsite, -, hspan⟩ := exists_of_mem_types hd
    rw [← hspan]
    exact (Event.bounds_of_mem_discover hsite rfl).2
  case functions_lt =>
    intro d hd
    obtain ⟨site, hsite, -, hspan⟩ := exists_of_mem_functions hd
    rw [← hspan]
    exact (Event.bounds_of_mem_discover hsite rfl).2
  case types =>
    refine Outline.pairwise_field Outline.isField_types rfl ?_ _
    intro ev site hs
    rw [Event.eq_declaresType hs]
    rfl
  case functions =>
    refine Outline.pairwise_field Outline.isField_functions rfl ?_ _
    intro ev site hs
    rw [Event.eq_declaresFunction hs]
    rfl
  case types_functions =>
    intro d hd e he
    obtain ⟨site, hsite, -, hspan⟩ := exists_of_mem_types hd
    obtain ⟨site', hsite', -, hspan'⟩ := exists_of_mem_functions he
    have hor := rel_or_rel_of_pairwise (Event.pairwise_discover _) hsite hsite' (by simp)
    rw [← hspan, ← hspan']
    exact hor.imp (fun h => h _ rfl _ rfl) (fun h => h _ rfl _ rfl)
  case readType =>
    intro d hd
    obtain ⟨site, hsite, hkeyword, hspan⟩ := exists_of_mem_types hd
    obtain ⟨brace, hmem, hkind, hlt, hle⟩ := Event.exists_brace_of_declaresType_mem hsite
    have hfirst := (Event.bounds_of_mem_discover hsite rfl).1
    rw [hkeyword] at hlt hfirst
    rw [hspan] at hle hfirst
    exact ⟨rfl, ClassLike.spansNested_read (pairwise_line_lex o source) hmem hkind hfirst hlt hle⟩
  case readFunction =>
    intro d hd
    exact ⟨rfl, Callable.spansNested_read _ _ _ _ _⟩

end SourceFile

end PhpOutline
