import PhpOutline.Proofs.Declaration.Naming
import PhpOutline.Proofs.Discovery.Bodies
import PhpOutline.Proofs.Outline.Listed
import PhpOutline.Proofs.Outline.Spans
import PhpOutline.Proofs.TokenTable.Significant

/-!
# Declarations read in depth

The discovery looks at the significant tokens of a file only, and reads no more of a declaration
than it needs to pass over it. What is asked for is read again later, from all the tokens of its
span and by other searches. Both come to the same names, kinds and bodies.

## Main definitions

* `Event.Declares`: the place at which the discovery declares a type.
* `Event.PassesOver`: the body that it passes over there.
* `Span.NamesConstant`, `Span.NamesProperty`: the name that an item of a declaration gives.
* `SourceFile.ReadAsFound`: what is read in depth is what was found.

## Main statements

* `TokenTable.lastPlace_group`, `TokenTable.drop_group`: where the discovery takes a group to end,
  and where it goes on.
* `ClassLike.body_read_eq`: a type is read with the brace that the discovery found.
* `Event.Declares.passesOver`: it is read with the body that the discovery passed over.
* `SourceFile.readAsFound`: what is read in depth in any file is what was found in it.
-/

namespace PhpOutline

/-! ## Groups that the discovery passes over -/

namespace TokenTable

variable {t : TokenTable} {brace : Entry} {after : List Entry}

/-- The last place of a group that the discovery passes over is that of its closer, or the last one
of the file. -/
theorem lastPlace_group (h : brace :: after <:+ Entry.significant (t.startingAt 0)) :
    Event.lastPlace t.lastIndex (brace :: after) (groupEnd? (Entry.kinds (brace :: after))) =
      t.matchingCloseOrLast brace.index := by
  have hmem := List.mem_filter.1 (h.subset List.mem_cons_self)
  have hsignificant : brace.kind.isInsignificant = false := by
    simpa [Entry.isSignificant_eq] using hmem.2
  rw [matchingCloseOrLast_eq, startingAt_index hmem.1, ← Entry.closer?_significant hsignificant,
    significant_startingAt h]
  rfl

/-- Behind such a group stand the significant entries behind its last place. -/
theorem drop_group (h : brace :: after <:+ Entry.significant (t.startingAt 0)) :
    (brace :: after).drop (((groupEnd? (Entry.kinds (brace :: after))).map (· + 1)).getD
        (brace :: after).length) =
      Entry.significant (t.startingAt (t.matchingCloseOrLast brace.index + 1)) := by
  rw [← lastPlace_group h, Event.lastPlace]
  cases hend : groupEnd? (Entry.kinds (brace :: after)) with
  | none =>
    have hempty : t.startingAt (t.lastIndex + 1) = [] := by
      rw [startingAt, List.drop_eq_nil_of_le (by simp only [lastIndex, size]; omega)]
      rfl
    rw [Option.map_none, Option.getD_none, List.drop_length]
    exact (congrArg Entry.significant hempty).symm
  | some n =>
    have hn : n < (brace :: after).length := by
      have := groupEnd?_lt hend
      rwa [Entry.kinds, List.length_map] at this
    have hsuffix : (brace :: after)[n] :: (brace :: after).drop (n + 1) <:+
        Entry.significant (t.startingAt 0) := by
      rw [← List.drop_eq_getElem_cons hn]
      exact (List.drop_suffix _ _).trans h
    simp only [Option.bind_some, List.getElem?_eq_getElem hn, Option.map_some, Option.getD_some]
    exact (significant_startingAt hsuffix).symm

end TokenTable

/-! ## Bodies of types -/

namespace Event

/-- The discovery of a file comes to a word in state `st`, in front of the entries `rest`, and
declares the type at a site there. -/
structure Declares (t : TokenTable) (st : State) (word : Entry) (rest : List Entry) (site : Site) :
    Prop where
  reaches : Reaches (step t.lastIndex) {} (Entry.significant (t.startingAt 0)) st (word :: rest)
  emitted : .declaresType site ∈ (step t.lastIndex st word rest).emitted

/-- At a word that declares a type, the discovery of a file passes over a body: it begins with the
brace that ends the header, and ends where that is closed, or else with the file. The discovery goes
on right behind it. -/
structure PassesOver (t : TokenTable) (st : State) (word : Entry) (rest : List Entry)
    (body : Span) :
    Prop where
  first : (typeBrace? rest).map Entry.index = some body.first
  last : body.last = t.matchingCloseOrLast body.first
  behind : rest.drop (step t.lastIndex st word rest).claims =
    Entry.significant (t.startingAt (body.last + 1))

/-- The brace that ends a header is the first one. -/
theorem find?_of_headerEnd? {es : List Entry} {n : Nat} {brace : Entry}
    (h : headerEnd? (Entry.kinds es) = some n) (hn : es[n]? = some brace) :
    es.find? (fun e => e.kind == .opener .brace) = some brace := by
  induction es generalizing n with
  | nil => simp at hn
  | cons e es ih =>
    rw [Entry.kinds, List.map_cons, headerEnd?_cons] at h
    by_cases he : e.kind = .opener .brace
    · rw [if_pos he] at h
      cases h
      rw [List.find?_cons_of_pos (by simp [he])]
      exact hn
    · rw [if_neg he] at h
      rw [List.find?_cons_of_neg (by simp [he])]
      split at h
      · obtain ⟨m, hm, rfl⟩ := Option.map_eq_some_iff.1 h
        exact ih hm hn
      · cases h

variable {t : TokenTable} {st : State} {word : Entry} {rest : List Entry} {site : Site}

/-- Behind the word stand a name and a header. The declaration reaches to the end of the group that
the brace behind the header opens, and the discovery goes on behind it. -/
theorem Declares.exists_brace (h : Declares t st word rest site) :
    ∃ name es header brace, rest = name :: es ∧ name.kind = .name ∧
      headerEnd? (Entry.kinds es) = some header ∧ es[header]? = some brace ∧
      site = ⟨name.text, word.index,
        .ofBounds (st.start.getD word.index) (t.matchingCloseOrLast brace.index)⟩ ∧
      rest.drop (step t.lastIndex st word rest).claims =
        Entry.significant (t.startingAt (t.matchingCloseOrLast brace.index + 1)) := by
  obtain ⟨-, -, -, name, es, rfl, hname⟩ := exists_of_declaresType_emitted h.emitted
  obtain ⟨name', es', header, hes, hheader, hsite, hclaims⟩ :=
    exists_of_declaresType_mem_step h.emitted
  obtain ⟨rfl, rfl⟩ := List.cons.inj hes
  obtain ⟨brace, after, hdrop, -⟩ := Entry.exists_brace_of_headerEnd? hheader
  have hbody : brace :: after <:+ Entry.significant (t.startingAt 0) := by
    rw [← hdrop]
    exact ((List.drop_suffix _ _).trans (List.suffix_cons name es)).trans
      ((List.suffix_cons word _).trans h.reaches.suffix)
  have hbrace : es[header]? = some brace := by
    rw [← List.head?_drop, hdrop]
    rfl
  rw [hdrop] at hsite hclaims
  rw [TokenTable.lastPlace_group hbody] at hsite
  refine ⟨name, es, header, brace, rfl, hname, hheader, hbrace, hsite, ?_⟩
  rw [← TokenTable.drop_group hbody, hclaims]
  cases groupEnd? (Entry.kinds (brace :: after)) with
  | none => simp
  | some n =>
    have hlength : header + 2 + n = header + (n + 1) + 1 := by omega
    simp only [Option.map_some, Option.getD_some]
    rw [hlength, List.drop_succ_cons, ← List.drop_drop, hdrop]

end Event

/-- A type is read with the brace that ends its header, wherever its span ends behind it. -/
theorem ClassLike.body_read_eq {t : TokenTable} {context : NameContext} {span : Span}
    {word name brace : Entry} {es : List Entry} {header : Nat}
    (h : word :: name :: es <:+ Entry.significant (t.startingAt 0)) (hname : name.kind = .name)
    (hheader : headerEnd? (Entry.kinds es) = some header) (hbrace : es[header]? = some brace)
    (hlast : brace.index ≤ span.last) :
    (read t context span word.index).body = .ofBounds brace.index span.last := by
  have hsignificant : ∀ e : Entry, (e.kind == .opener .brace) = true → e.isSignificant = true := by
    intro e he
    rw [Entry.isSignificant_eq, eq_of_beq he]
    rfl
  have hfirst : (t.startingAt (word.index + 1)).find? (fun e => e.kind == .opener .brace) =
      some brace := by
    rw [← Entry.find?_significant hsignificant, TokenTable.significant_startingAt h,
      List.find?_cons_of_neg (by simp [hname])]
    exact Event.find?_of_headerEnd? hheader hbrace
  have hwindow := TokenTable.find?_window hfirst (Nat.lt_succ_of_le hlast)
  rw [← Entry.find?_significant hsignificant, ← Entry.significant_skipTrivia,
    Entry.find?_significant hsignificant] at hwindow
  simp only [read, hwindow, Option.map_some, Option.getD_some]

namespace Event

variable {t : TokenTable} {st : State} {word : Entry} {rest : List Entry} {site : Site}

/-- A type is read with the body that the discovery passes over when it finds the type. -/
theorem Declares.passesOver (h : Declares t st word rest site)
    (hfirst : site.span.first ≤ site.keyword) (context : NameContext) :
    PassesOver t st word rest (ClassLike.read t context site.span site.keyword).body := by
  obtain ⟨name, es, header, brace, rfl, hname, hheader, hbrace, rfl, hbehind⟩ := h.exists_brace
  have hsuffix := h.reaches.suffix
  have hmem : brace ∈ name :: es := List.mem_cons_of_mem name (List.mem_of_getElem? hbrace)
  have hword : word.index < brace.index := by
    have hsorted : (word :: name :: es).Pairwise fun a b => a.index < b.index :=
      ((Entry.pairwise_number _ _).filter _).sublist hsuffix.sublist
    exact (List.pairwise_cons.1 hsorted).1 brace hmem
  have hclose : brace.index ≤ t.matchingCloseOrLast brace.index :=
    TokenTable.le_matchingCloseOrLast
      (List.mem_of_mem_filter (hsuffix.subset (List.mem_cons_of_mem word hmem)))
  have hstart : st.start.getD word.index ≤ word.index := hfirst
  have hlast : (Span.ofBounds (st.start.getD word.index)
      (t.matchingCloseOrLast brace.index)).last = t.matchingCloseOrLast brace.index := by
    rw [Span.last_ofBounds]
    omega
  have hread : (ClassLike.read t context (.ofBounds (st.start.getD word.index)
      (t.matchingCloseOrLast brace.index)) word.index).body =
        .ofBounds brace.index (t.matchingCloseOrLast brace.index) := by
    rw [ClassLike.body_read_eq hsuffix hname hheader hbrace (by rwa [hlast]), hlast]
  have hend : (Span.ofBounds brace.index (t.matchingCloseOrLast brace.index)).last =
      t.matchingCloseOrLast brace.index := by
    rw [Span.last_ofBounds]
    omega
  rw [hread]
  constructor
  case first =>
    rw [typeBrace?, List.drop_one, List.tail_cons, hheader, Option.bind_some, hbrace,
      Span.first_ofBounds]
    rfl
  case last => rw [hend, Span.first_ofBounds]
  case behind => rw [hend, hbehind]

end Event

/-! ## Names of functions -/

/-- A declared function has its word among the significant entries and its name behind it, past an
ampersand, and its span reaches from the word to the name at least. -/
theorem Event.exists_of_declaresFunction_mem {t : TokenTable} {site : Site}
    (h : .declaresFunction site ∈ discover t) :
    ∃ word name es rest, word :: es <:+ Entry.significant (t.startingAt 0) ∧
      word.kind = .keyword .function ∧ es.drop (ampersands es) = name :: rest ∧
      name.kind = .name ∧ site.shortName = name.text ∧ site.span.first = word.index ∧
      name.index ≤ site.span.last := by
  obtain ⟨st, word, es, hsuffix, h⟩ := exists_step_of_mem_sweep h
  obtain ⟨hkind, name, list, rest, hes, hname, -, rfl⟩ := exists_of_declaresFunction_emitted h
  refine ⟨word, name, es, list :: rest, hsuffix, hkind, hes, hname, rfl, rfl, ?_⟩
  have hall : (name :: list :: rest).Sublist (t.startingAt 0) := by
    rw [← hes]
    exact (((List.drop_suffix _ es).trans (List.suffix_cons word es)).trans hsuffix).sublist.trans
      List.filter_sublist
  have hsorted := (Entry.pairwise_number 0 (t.tokens.drop 0)).sublist hall
  refine Nat.le_trans (le_lastPlace ?_ ?_) (Nat.le_max_right _ _)
  · intro e he
    exact Nat.le_of_lt ((List.pairwise_cons.1 hsorted).1 e he)
  · exact (TokenTable.index_le_lastIndex (hall.subset List.mem_cons_self)).1

/-! ## Names of members -/

/-- An item names a constant: by its last significant token before the first equals sign, or,
without one, by its last token. -/
def Span.NamesConstant (t : TokenTable) (item : Span) (name : Text) : Prop :=
  ∃ i, item.first ≤ i ∧ t.text i = name ∧
    (t.findKind? item.first item.last .equals).elim (some item.last) t.prevSignificant? = some i

/-- An item names a property: by its first variable, without the dollar sign. -/
def Span.NamesProperty (t : TokenTable) (item : Span) (name : Text) : Prop :=
  ∃ i, t.findKind? item.first item.last .variableName = some i ∧ (t.text i).drop 1 = name

theorem Span.namesProperty_of_named {t : TokenTable} {item : Span} {name : Text}
    (h : (Property.named t item).head?.map (fun e => e.text.drop 1) = some name) :
    item.NamesProperty t name := by
  obtain ⟨e, he, rfl⟩ := Option.map_eq_some_iff.1 h
  have hfind : (t.window item.first (item.last + 1)).find? (fun e => e.kind == .variableName) =
      some e := by
    rw [List.find?_eq_head?_dropWhile_not]
    exact he
  have hmem := TokenTable.mem_startingAt_of_mem_window (List.mem_of_find?_eq_some hfind)
  refine ⟨e.index, ?_, by rw [TokenTable.text_index hmem]⟩
  rw [TokenTable.findKind?, hfind]
  rfl

theorem Span.namesConstant_of_nameIndex? {t : TokenTable} {item : Span} {name : Text}
    (h : (Constant.nameIndex? t item).map t.text = some name) : item.NamesConstant t name := by
  obtain ⟨i, hi, rfl⟩ := Option.map_eq_some_iff.1 h
  rw [Constant.nameIndex?, TokenTable.within] at hi
  cases hfind : (t.window item.first (item.last + 1)).find? (fun e => e.kind == .equals) with
  | none =>
    have hnone : (t.window item.first (item.last + 1)).any (fun e => e.kind == .equals) =
        false := by
      rw [List.any_eq_false]
      exact List.find?_eq_none.1 hfind
    rw [hnone, if_neg (by simp)] at hi
    refine ⟨i, Option.some.inj hi ▸ item.ordered, rfl, ?_⟩
    rw [TokenTable.findKind?, hfind]
    exact hi
  | some e =>
    have hkind : (e.kind == .equals) = true := by
      have hsome := List.find?_some hfind
      exact hsome
    have hany : (t.window item.first (item.last + 1)).any (fun e => e.kind == .equals) = true :=
      List.any_eq_true.2 ⟨e, List.mem_of_find?_eq_some hfind, hkind⟩
    obtain ⟨behind, hsplit⟩ : ∃ behind, t.window item.first (item.last + 1) =
        (t.window item.first (item.last + 1)).takeWhile (fun e => e.kind != .equals) ++
          e :: behind := by
      rw [List.find?_eq_head?_dropWhile_not] at hfind
      obtain ⟨behind, hbehind⟩ := List.head?_eq_some_iff.1 hfind
      exact ⟨behind, by rw [← hbehind]; exact List.takeWhile_append_dropWhile.symm⟩
    rw [hany, if_pos rfl, TokenTable.eq_window_of_append hsplit] at hi
    obtain ⟨name, hname, rfl⟩ := Option.map_eq_some_iff.1 hi
    have hmem := List.mem_of_mem_filter (List.mem_of_getLast? hname)
    have hbounds := TokenTable.bounds_of_mem_window hmem
    refine ⟨name.index, hbounds.1, rfl, ?_⟩
    -- nothing significant stands between the name and the equals sign, in the item or before it
    rw [TokenTable.findKind?, hfind]
    change t.prevSignificant? e.index = some name.index
    rw [TokenTable.prevSignificant?,
      ← TokenTable.window_append t (Nat.zero_le item.first) (by omega),
      Entry.significant_append, List.getLast?_append, hname]
    rfl

/-! ## The whole file -/

namespace SourceFile

/-- What is read in depth in a file is what was found in it. -/
structure ReadAsFound (f : SourceFile) : Prop where
  /-- The types have the names that are listed. -/
  typeNames : f.outline.types.map (fun d => (f.readType d).name) = f.typeNames
  /-- They are of the kind that their word declares. -/
  kinds : ∀ d ∈ f.outline.types,
    f.table.kind? d.keyword = some (.keyword (.declares (f.readType d).kind))
  /-- Their bodies are the ones that the discovery passes over. -/
  bodies : ∀ d ∈ f.outline.types, ∃ st word rest site,
    Event.Declares f.table st word rest site ∧ d = site.declaredIn d.context ∧
      Event.PassesOver f.table st word rest (f.readType d).body
  /-- The functions have the names that are listed. -/
  functionNames : f.outline.functions.map (fun d => d.context.qualify (f.readFunction d).name) =
    f.functionNames
  /-- The constants of a type have the names under which it lists them, those in their items. -/
  constants : ∀ d ∈ f.outline.types, ∀ l ∈ (f.readType d).constants,
    l.record.name = l.name ∧ l.item.NamesConstant f.table l.name
  /-- So do the properties. -/
  properties : ∀ d ∈ f.outline.types, ∀ l ∈ (f.readType d).properties,
    l.record.name = l.name ∧ l.item.NamesProperty f.table l.name

theorem exists_declares_of_mem_types {t : TokenTable} {d : Declared}
    (h : d ∈ (Outline.ofTable t).types) : ∃ st word rest site,
      Event.Declares t st word rest site ∧ d = site.declaredIn d.context ∧
        site.span.first ≤ site.keyword := by
  obtain ⟨ev, hev, site, hs, hd⟩ := Outline.exists_event_of_mem Outline.isField_types rfl h
  obtain rfl := Event.eq_declaresType hs
  obtain ⟨st, word, rest, hreaches, hemitted⟩ := exists_reaches_of_mem_sweep hev
  exact ⟨st, word, rest, site, ⟨hreaches, hemitted⟩, hd, (Event.bounds_of_mem_discover hev rfl).1⟩

/-- A function that is read in depth has the name it is listed under. -/
theorem name_readFunction {o : Options} {source : Text} {d : Declared}
    (h : d ∈ (ofSource o source).outline.functions) :
    d.context.qualify ((ofSource o source).readFunction d).name = d.name := by
  obtain ⟨ev, hev, site, hs, hd⟩ := Outline.exists_event_of_mem Outline.isField_functions rfl h
  obtain rfl := Event.eq_declaresFunction hs
  obtain ⟨word, name, es, rest, hsuffix, hkind, hes, hname, hshort, hfirst, hlast⟩ :=
    Event.exists_of_declaresFunction_mem hev
  have hword := List.mem_of_mem_filter (hsuffix.subset List.mem_cons_self)
  have hnaming := Callable.naming_window hsuffix hes hname (Nat.lt_succ_of_le hlast)
  rw [hd]
  change d.context.qualify _ = d.context.qualify site.shortName
  rw [hshort]
  have hwithin : (ofSource o source).table.within site.span =
      [] ++ word :: (ofSource o source).table.window (word.index + 1) (site.span.last + 1) := by
    have hordered := site.span.ordered
    rw [TokenTable.within, hfirst]
    exact TokenTable.window_index hword (by omega)
  exact congrArg d.context.qualify (Callable.name_read hwithin .nil hkind hnaming)

/-- What is read in depth in any file is what was found in it. -/
theorem readAsFound (o : Options) (source : Text) : (ofSource o source).ReadAsFound := by
  constructor
  case typeNames => exact List.map_congr_left fun d hd => name_readType hd
  case kinds =>
    intro d hd
    obtain ⟨st, word, rest, site, hdeclares, hsite, -⟩ := exists_declares_of_mem_types hd
    obtain ⟨⟨kind, hkind⟩, hkeyword, -⟩ := Event.exists_of_declaresType_emitted hdeclares.emitted
    have hword := List.mem_of_mem_filter (hdeclares.reaches.suffix.subset List.mem_cons_self)
    have hfound : (ofSource o source).table.kind? d.keyword = some (.keyword (.declares kind)) := by
      rw [hsite]
      change (ofSource o source).table.kind? site.keyword = _
      rw [hkeyword, ← hkind]
      exact TokenTable.kind?_index hword
    have hread : ((ofSource o source).readType d).kind = kind := by
      change ClassLike.kindOf ((ofSource o source).table.kind? d.keyword) = kind
      rw [hfound]
      rfl
    rw [hread, hfound]
  case bodies =>
    intro d hd
    obtain ⟨st, word, rest, site, hdeclares, hsite, hfirst⟩ := exists_declares_of_mem_types hd
    refine ⟨st, word, rest, site, hdeclares, hsite, ?_⟩
    rw [hsite]
    exact hdeclares.passesOver hfirst _
  case functionNames => exact List.map_congr_left fun d hd => name_readFunction hd
  case constants =>
    intro d _ l hl
    have hm := ClassLike.constant_mem_scan (List.mem_map_of_mem hl)
    obtain ⟨start, e, es, -, hm⟩ := exists_step_of_mem_sweep hm
    have hname := Member.comesFrom_of_mem_emitted hm
    obtain ⟨s, -, rfl⟩ := List.mem_map.1 hl
    refine ⟨?_, Span.namesConstant_of_nameIndex? hname⟩
    exact congrArg (Option.getD · []) hname
  case properties =>
    intro d _ l hl
    have hm := ClassLike.property_mem_scan (List.mem_map_of_mem hl)
    obtain ⟨start, e, es, -, hm⟩ := exists_step_of_mem_sweep hm
    have hname := Member.comesFrom_of_mem_emitted hm
    obtain ⟨s, -, rfl⟩ := List.mem_map.1 hl
    refine ⟨?_, Span.namesProperty_of_named hname⟩
    exact congrArg (Option.getD · []) hname

end SourceFile

end PhpOutline
