import PhpOutline.Proofs.Outline.Listed
import PhpOutline.Proofs.Outline.Spans

/-!
# Aliases in several spellings

Imports are kept by the exact spelling of their aliases, and looked up in any ASCII case. As long as
an alias is written in one way only, its last import counts. Where it is imported in several
spellings, the spelling of the reference counts, or else the first one in the order of the aliases,
and of that spelling the last import.

## Main definitions

* `Bindings.Sorted`: aliases in increasing order.
* `lastBoundAnyCase`: the name that the last of some imports gives to an alias in any ASCII case.
* `Import.CountsFor`: the spelling of an alias that counts for a reference.
* `SourceFile.importsBefore`: the imports in effect at a declaration.

## Main statements

* `Bindings.exists_lookup?_ofImports`: what an alias in any ASCII case stands for.
* `SourceFile.resolve_alias`: what a reference at a declaration stands for.
-/

namespace PhpOutline

/-! ## Bindings in order -/

namespace Bindings

/-- The aliases stand in increasing order. -/
def Sorted (bs : Bindings) : Prop := bs.Pairwise fun p q => p.1 < q.1

theorem mem_bind {key name : Text} {bs : Bindings} {p : Text × Text} (h : p ∈ bind key name bs) :
    p = (key, name) ∨ p ∈ bs := by
  induction bs with
  | nil => exact .inl (List.mem_singleton.1 h)
  | cons q bs ih =>
    rw [bind] at h
    split at h
    · rcases List.mem_cons.1 h with h | h
      · exact .inl h
      · exact .inr (List.mem_cons_of_mem q h)
    · split at h
      · exact List.mem_cons.1 h
      · rcases List.mem_cons.1 h with rfl | h
        · exact .inr List.mem_cons_self
        · exact (ih h).imp_right (List.mem_cons_of_mem q)

/-- An alias is bound in its place. -/
theorem Sorted.bind {bs : Bindings} (h : bs.Sorted) (key name : Text) :
    (bs.bind key name).Sorted := by
  induction bs with
  | nil => exact List.pairwise_singleton _ _
  | cons p bs ih =>
    obtain ⟨hp, hbs⟩ := List.pairwise_cons.1 h
    rw [Bindings.bind]
    split
    · rename_i hkey
      refine List.pairwise_cons.2 ⟨?_, hbs⟩
      intro q hq
      rw [hkey]
      exact hp q hq
    · rename_i hne
      split
      · rename_i hlt
        refine List.pairwise_cons.2 ⟨?_, h⟩
        intro q hq
        rcases List.mem_cons.1 hq with rfl | hq
        · exact hlt
        · exact Std.lt_trans hlt (hp q hq)
      · rename_i hnot
        refine List.pairwise_cons.2 ⟨?_, ih hbs⟩
        intro q hq
        rcases mem_bind hq with rfl | hq
        · by_contra hlt
          exact hne (List.le_antisymm (List.not_lt.1 hlt) (List.not_lt.1 hnot))
        · exact hp q hq

theorem sorted_ofImports (is : List Import) : (ofImports is).Sorted := by
  induction is using List.reverseRecOn with
  | nil => exact List.Pairwise.nil
  | append_singleton is i ih =>
    rw [ofImports_concat]
    exact ih.bind i.key i.name

/-- In order, an alias is bound once. -/
theorem Sorted.get?_of_mem {bs : Bindings} (h : bs.Sorted) {p : Text × Text} (hp : p ∈ bs) :
    get? p.1 bs = some p.2 := by
  induction bs with
  | nil => cases hp
  | cons q bs ih =>
    obtain ⟨hq, hbs⟩ := List.pairwise_cons.1 h
    rcases List.mem_cons.1 hp with rfl | hp
    · simp [get?]
    · have hne : q.1 ≠ p.1 := by
        intro heq
        have hlt := hq p hp
        rw [heq] at hlt
        exact Std.lt_irrefl hlt
      rw [← ih hbs hp]
      simp [get?, hne]

/-- In order, the first alias with a property is the least one. -/
theorem Sorted.not_lt_of_find? {bs : Bindings} (h : bs.Sorted) {f : Text × Text → Bool}
    {p q : Text × Text} (hp : bs.find? f = some p) (hq : q ∈ bs) (hfq : f q = true) :
    ¬ q.1 < p.1 := by
  induction bs with
  | nil => cases hq
  | cons b bs ih =>
    obtain ⟨hb, hbs⟩ := List.pairwise_cons.1 h
    cases hfb : f b with
    | true =>
      rw [List.find?_cons_of_pos hfb] at hp
      obtain rfl := Option.some.inj hp
      rcases List.mem_cons.1 hq with rfl | hq
      · exact Std.lt_irrefl
      · exact fun hlt => Std.lt_irrefl (Std.lt_trans hlt (hb q hq))
    | false =>
      rw [List.find?_cons_of_neg (by simp [hfb])] at hp
      rcases List.mem_cons.1 hq with rfl | hq
      · rw [hfb] at hfq
        cases hfq
      · exact ih hbs hp hq

end Bindings

/-! ## What an alias stands for -/

/-- The name that the last of some imports gives to an alias in any ASCII case. -/
def lastBoundAnyCase (head : Text) (is : List Import) : Option Text :=
  (is.reverse.find? fun i => i.key.sameWord head).map Import.name

/-- An alias is bound exactly when it is imported. -/
theorem exists_lastBound_iff {key : Text} {is : List Import} :
    (∃ name, lastBound key is = some name) ↔ key ∈ is.map Import.key := by
  rw [← Option.isSome_iff_exists, lastBound, Option.isSome_map, List.find?_isSome]
  simp

namespace Import

/-- Of the spellings in which some imports write an alias, this one counts for a reference: that of
the reference itself, or else the first one in the order of the aliases. -/
structure CountsFor (is : List Import) (head key : Text) : Prop where
  mem : key ∈ is.map Import.key
  sameWord : key.sameWord head = true
  least : key = head ∨ head ∉ is.map Import.key ∧
    ∀ other ∈ is.map Import.key, other.sameWord head = true → ¬ other < key

/-- What some imports make of a reference: of the spelling that counts the last import decides.
Where all imports of the alias are spelled alike, that is the last one of all. -/
structure Decide (is : List Import) (head name : Text) : Prop where
  spelling : ∃ key, CountsFor is head key ∧ lastBound key is = some name
  uniform : (∀ i ∈ is, ∀ j ∈ is, i.key.sameWord head = true → j.key.sameWord head = true →
    i.key = j.key) → lastBoundAnyCase head is = some name

/-- Where an alias is spelled in one way only, its last import in any case is its last import. -/
theorem lastBoundAnyCase_eq_lastBound {is : List Import} {head key : Text}
    (hsame : key.sameWord head = true)
    (h : ∀ i ∈ is, i.key.sameWord head = true → i.key = key) :
    lastBoundAnyCase head is = lastBound key is := by
  induction is using List.reverseRecOn with
  | nil => rfl
  | append_singleton is i ih =>
    have hrest := ih fun j hj => h j (List.mem_append_left _ hj)
    rw [lastBound_concat, ← hrest]
    by_cases hi : i.key = key
    · simp [lastBoundAnyCase, hi, hsame]
    · have hother : i.key.sameWord head = false := by
        cases hw : i.key.sameWord head with
        | false => rfl
        | true => exact absurd (h i (by simp) hw) hi
      simp [lastBoundAnyCase, hi, hother]

end Import

/-- The look-up of an alias that is imported in some ASCII case finds the last import of the
spelling that counts. -/
theorem Bindings.exists_lookup?_ofImports {is : List Import} {head : Text}
    (h : ∃ i ∈ is, i.key.sameWord head = true) :
    ∃ name, lookup? head (ofImports is) = some name ∧ Import.Decide is head name := by
  have hbound : ∀ {key name}, lastBound key is = some name →
      Import.CountsFor is head key → Import.Decide is head name := by
    intro key name hname hcounts
    refine ⟨⟨key, hcounts, hname⟩, ?_⟩
    intro huniform
    obtain ⟨j, hj, hjkey⟩ := List.mem_map.1 hcounts.mem
    have hall : ∀ i ∈ is, i.key.sameWord head = true → i.key = key := by
      intro i hi hw
      rw [← hjkey]
      exact huniform i hi j hj hw (hjkey ▸ hcounts.sameWord)
    rw [Import.lastBoundAnyCase_eq_lastBound hcounts.sameWord hall, hname]
  rw [lookup?, get?_ofImports]
  cases hexact : lastBound head is with
  | some name =>
    have hmem := exists_lastBound_iff.1 ⟨name, hexact⟩
    exact ⟨name, rfl, hbound hexact ⟨hmem, Text.sameWord_refl head, .inl rfl⟩⟩
  | none =>
    have hmem : ∀ key, key ∈ is.map Import.key → ∃ name, (key, name) ∈ ofImports is := by
      intro key hkey
      obtain ⟨name, hname⟩ := exists_lastBound_iff.2 hkey
      rw [← get?_ofImports, get?] at hname
      obtain ⟨p, hp, rfl⟩ := Option.map_eq_some_iff.1 hname
      have hpkey : p.1 = key := by simpa using List.find?_some hp
      exact ⟨p.2, hpkey ▸ List.mem_of_find?_eq_some hp⟩
    have hsorted := sorted_ofImports is
    obtain ⟨i, hi, hw⟩ := h
    obtain ⟨iname, hiname⟩ := hmem i.key (List.mem_map_of_mem hi)
    cases hfind : (ofImports is).find? fun p => Text.sameWord p.1 head with
    | none => exact absurd hw (List.find?_eq_none.1 hfind _ hiname)
    | some p =>
      have hp : lastBound p.1 is = some p.2 := by
        rw [← get?_ofImports]
        exact hsorted.get?_of_mem (List.mem_of_find?_eq_some hfind)
      refine ⟨p.2, rfl, hbound hp ⟨exists_lastBound_iff.1 ⟨p.2, hp⟩, ?_, .inr ⟨?_, ?_⟩⟩⟩
      · simpa using List.find?_some hfind
      · intro hhead
        obtain ⟨name, hname⟩ := exists_lastBound_iff.2 hhead
        rw [hexact] at hname
        cases hname
      · intro other hother hsame
        obtain ⟨name, hname⟩ := hmem other hother
        exact hsorted.not_lt_of_find? hfind hname hsame

/-- A reference without a backslash that is imported stands for the name that is imported. -/
theorem NameContext.resolve_of_imported? {c : NameContext} {head name : Text} (h : '\\' ∉ head)
    (hname : c.imported? head = some name) : c.resolve head = name := by
  have hstrip : head.stripOne '\\' = none := by
    cases head with
    | nil => rfl
    | cons d s =>
      rw [List.mem_cons, not_or] at h
      simp [Text.stripOne, Ne.symm h.1]
  have himport : c.resolveImport? head = some name := by
    rw [resolveImport?, Text.splitFirst_eq_none.2 h, hname]
  rw [resolve, hstrip, himport]

/-! ## References at a declaration -/

/-- The events in front of the one that declares something in a span. -/
def Event.inFrontOf (span : Span) (events : List Event) : List Event :=
  events.takeWhile fun e => e.site?.map Site.span != some span

/-- The events in front of a declaration are those before the event that declares it. -/
theorem Event.inFrontOf_eq {t : TokenTable} {before after : List Event} {e : Event} {site : Site}
    (h : discover t = before ++ e :: after) (hsite : e.site? = some site) :
    inFrontOf site.span (discover t) = before := by
  have hother : ∀ a ∈ before, (a.site?.map Site.span != some site.span) = true := by
    intro a ha
    have hpairwise := pairwise_discover t
    rw [h, List.pairwise_append] at hpairwise
    have hprecedes := hpairwise.2.2 a ha e List.mem_cons_self
    cases hs : a.site? with
    | none => rfl
    | some s =>
      have hlt : s.span.last < site.span.first := hprecedes s hs site hsite
      have hne : s.span ≠ site.span := by
        intro heq
        rw [heq] at hlt
        exact absurd site.span.ordered (Nat.not_le.2 hlt)
      simpa using hne
  rw [inFrontOf, h, List.takeWhile_append_of_pos hother,
    List.takeWhile_cons_of_neg (by simp [hsite]), List.append_nil]

/-- A declaration stands behind some of the events, in the context that they leave. -/
theorem Outline.exists_of_mem_declarationsFrom {c : NameContext} {site? : Event → Option Site}
    {events : List Event} {d : Declared} (h : d ∈ declarationsFrom c site? events) :
    ∃ before e after site, events = before ++ e :: after ∧ site? e = some site ∧
      d = site.declaredIn (before.foldl NameContext.after c) := by
  induction events generalizing c with
  | nil => cases h
  | cons e events ih =>
    rw [declarationsFrom_cons, List.mem_append] at h
    rcases h with h | h
    · obtain ⟨site, hsite, rfl⟩ := Option.map_eq_some_iff.1 (Option.mem_toList.1 h)
      exact ⟨[], e, events, site, rfl, hsite, rfl⟩
    · obtain ⟨before, e', after, site, rfl, hsite, rfl⟩ := ih h
      exact ⟨e :: before, e', after, site, rfl, hsite, rfl⟩

namespace SourceFile

/-- The imports before a declaration, as far as they belong to its namespace. -/
def importsBefore (f : SourceFile) (d : Declared) : List Import :=
  Event.importsSince (Event.inFrontOf d.span (Event.discover f.table))

/-- A declaration has the imports before it in its context. -/
theorem imports_context_eq {field : Outline → List Declared} {site? : Event → Option Site}
    (hfield : Outline.IsField field site?) (hnil : field {} = [])
    (hsites : ∀ ev site, site? ev = some site → ev.site? = some site) (o : Options)
    (source : Text) {d : Declared} (hd : d ∈ field (ofSource o source).outline) :
    d.context.imports = .ofImports ((ofSource o source).importsBefore d) := by
  rw [outline_ofSource, Outline.field_replay hfield, hnil, List.nil_append] at hd
  obtain ⟨before, e, after, site, hsplit, hsite, rfl⟩ :=
    Outline.exists_of_mem_declarationsFrom hd
  have hinfront := Event.inFrontOf_eq hsplit (hsites e site hsite)
  change (contextAfter before).imports =
    .ofImports (Event.importsSince (Event.inFrontOf site.span _))
  rw [hinfront, imports_contextAfter]

/-- A reference without a backslash to an alias that is imported in some ASCII case, at any
declaration of a file: it stands for the name of the last import of the spelling that counts, and so
for that of the last import as long as the alias is spelled in one way. -/
theorem resolve_alias (o : Options) (source : Text) {d : Declared}
    (hd : d ∈ (ofSource o source).outline.types ++ (ofSource o source).outline.functions)
    (head : Text) (hhead : '\\' ∉ head)
    (halias : ∃ i ∈ (ofSource o source).importsBefore d, i.key.sameWord head = true) :
    Import.Decide ((ofSource o source).importsBefore d) head (d.context.resolve head) := by
  have himports : d.context.imports = .ofImports ((ofSource o source).importsBefore d) := by
    rcases List.mem_append.1 hd with hd | hd
    · refine imports_context_eq Outline.isField_types rfl ?_ o source hd
      intro ev site hs
      rw [Event.eq_declaresType hs]
      rfl
    · refine imports_context_eq Outline.isField_functions rfl ?_ o source hd
      intro ev site hs
      rw [Event.eq_declaresFunction hs]
      rfl
  obtain ⟨name, hlookup, hdecide⟩ := Bindings.exists_lookup?_ofImports halias
  have hname : d.context.imported? head = some name := by
    rw [NameContext.imported?, himports, hlookup]
  rwa [NameContext.resolve_of_imported? hhead hname]

/-- An alias in two spellings, of which the first one in order is imported twice. -/
def twoSpellings : Text :=
  "<?php namespace N; use A\\foo; use B\\Foo; use C\\Foo; class D extends FOO {}".toList

/-- In a third spelling, the alias stands for the last import of the first one. -/
theorem resolve_alias_twoSpellings :
    ∃ d ∈ (ofSource {} twoSpellings).outline.types,
      (∃ i ∈ (ofSource {} twoSpellings).importsBefore d, i.key.sameWord "FOO".toList = true) ∧
      d.context.resolve "FOO".toList = "C\\Foo".toList ∧
      Import.Decide ((ofSource {} twoSpellings).importsBefore d) "FOO".toList "C\\Foo".toList := by
  have hclass : ∃ d ∈ (ofSource {} twoSpellings).outline.types,
      (∃ i ∈ (ofSource {} twoSpellings).importsBefore d, i.key.sameWord "FOO".toList = true) ∧
      d.context.resolve "FOO".toList = "C\\Foo".toList := by
    decide +kernel
  obtain ⟨d, hd, halias, hname⟩ := hclass
  have hdecide := resolve_alias {} twoSpellings (List.mem_append_left _ hd)
    "FOO".toList (by decide) halias
  rw [hname] at hdecide
  exact ⟨d, hd, halias, hname, hdecide⟩

/-- An alias that is imported again in another spelling. -/
def respelledSource : Text := "<?php use A\\Foo; use B\\foo; class C extends Foo {}".toList

/-- The later import of an alias does not count when it is spelled in another way: the class extends
the name that the earlier import gives. -/
theorem later_import_loses :
    (¬ ∀ (o : Options) (source : Text) (d : Declared) (head : Text),
      d ∈ (ofSource o source).outline.types ++ (ofSource o source).outline.functions →
      '\\' ∉ head →
      (∃ i ∈ (ofSource o source).importsBefore d, i.key.sameWord head = true) →
        lastBoundAnyCase head ((ofSource o source).importsBefore d) =
          some (d.context.resolve head)) ∧
    ((ofSource {} respelledSource).outline.types.map fun d =>
      (lastBoundAnyCase "Foo".toList ((ofSource {} respelledSource).importsBefore d),
        ((ofSource {} respelledSource).readType d).parent)) =
      [(some "B\\foo".toList, some "A\\Foo".toList)] := by
  refine ⟨?_, by decide +kernel⟩
  intro h
  have hclass : ∃ d ∈ (ofSource {} respelledSource).outline.types,
      (∃ i ∈ (ofSource {} respelledSource).importsBefore d, i.key.sameWord "Foo".toList = true) ∧
      lastBoundAnyCase "Foo".toList ((ofSource {} respelledSource).importsBefore d) ≠
        some (d.context.resolve "Foo".toList) := by
    decide +kernel
  obtain ⟨d, hd, halias, hne⟩ := hclass
  exact hne (h {} respelledSource d "Foo".toList (List.mem_append_left _ hd) (by decide) halias)

end SourceFile

end PhpOutline
