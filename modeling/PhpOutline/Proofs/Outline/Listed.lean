import PhpOutline.Report
import PhpOutline.Proofs.Discovery.Sites
import PhpOutline.Proofs.Outline.Replay
import PhpOutline.Proofs.TokenTable.Extents

/-!
# Looking up listed names

The names that a file lists are looked up again when it is described. A name of one segment is
sought in every namespace of the file before it is sought as it stands, so that it can lead to a
declaration of that name in a namespace. A backslash in front of a name is passed over, though a
declaration may be listed with one. In every other case a listed name leads to the declaration it
was listed for.

## Main definitions

* `Outline.Shadows`: a name of one segment is also declared in a namespace of the file.

## Main statements

* `Outline.exists_find?`: a listed name is found, and by its own spelling unless it is shadowed.
* `SourceFile.name_readType`: a type that is read in depth has the name it is listed under.
* `SourceFile.listed_names_found`: both, for the types and the functions of a file.
* `SourceFile.listed_name_not_found`: files that are not described in full.
-/

namespace PhpOutline

/-! ## Declarations by name -/

theorem exists_firstNamedAnyCase? {α : Type} (nameOf : α → Text) {items : List α} {a : α}
    (h : a ∈ items) :
    ∃ b ∈ items, firstNamedAnyCase? nameOf (nameOf a) items = some b ∧ nameOf b = nameOf a := by
  obtain ⟨b, hb⟩ : ∃ b, firstNamed? nameOf (nameOf a) items = some b := exists_firstNamed? h
  have hmem := firstNamed?_mem hb
  exact ⟨b, hmem.1, by simp [firstNamedAnyCase?, hb], hmem.2⟩

theorem sameWord_of_firstNamedAnyCase? {α : Type} {nameOf : α → Text} {items : List α} {a : α}
    {name : Text} (h : firstNamedAnyCase? nameOf name items = some a) :
    a ∈ items ∧ (nameOf a).sameWord name = true := by
  rw [firstNamedAnyCase?, Option.or_eq_some_iff] at h
  rcases h with h | ⟨-, h⟩
  · have hmem := firstNamed?_mem h
    exact ⟨hmem.1, by simp [hmem.2]⟩
  · have hword := List.find?_some h
    exact ⟨List.mem_of_find?_eq_some h, by simpa using hword⟩

theorem firstNamedAnyCase?_eq_none {α : Type} {nameOf : α → Text} {items : List α} {name : Text}
    (h : ∀ a ∈ items, (nameOf a).sameWord name = false) :
    firstNamedAnyCase? nameOf name items = none := by
  cases hf : firstNamedAnyCase? nameOf name items with
  | none => rfl
  | some a =>
    have hmem := sameWord_of_firstNamedAnyCase? hf
    rw [h a hmem.1] at hmem
    exact absurd hmem.2 (by simp)

namespace Outline

/-- A name of one segment is, up to ASCII case, also declared in a namespace of the file. -/
def Shadows (o : Outline) (items : List Declared) (name : Text) : Prop :=
  '\\' ∉ name ∧ ∃ ns ∈ o.namespaces, ∃ d ∈ items, d.name.sameWord (joinNames ns name) = true

/-- Where the lookup of a listed name leads: to that very name unless the name is shadowed, and then
to that name, up to ASCII case, in a namespace of the file. -/
structure LeadsTo (o : Outline) (items : List Declared) (name found : Text) : Prop where
  plain : ¬ o.Shadows items name → found = name
  shadowed : o.Shadows items name →
    ∃ ns ∈ o.namespaces, found.sameWord (joinNames ns name) = true

/-- The namespace at the end of a file is one of its namespaces. -/
theorem namespaceName_mem_replay (o : Outline) (events : List Event)
    (ho : ∀ ns ∈ o.namespaceName, ns ∈ o.namespaces) :
    ∀ ns ∈ (o.replay events).namespaceName, ns ∈ (o.replay events).namespaces := by
  induction events generalizing o with
  | nil => exact ho
  | cons ev events ih =>
    apply ih
    cases ev with
    | entersNamespace name =>
      intro ns hns
      have : name = some ns := hns
      simp [apply, this]
    | _ => exact ho

theorem withoutRoot_eq_self {name : Text} (h : name.head? ≠ some '\\') :
    withoutRoot name = name := by
  cases name with
  | nil => rfl
  | cons c s =>
    have hc : c ≠ '\\' := by simpa using h
    simp [withoutRoot, Text.stripOne, hc]

/-- The namespaces in which a name of one segment is sought are those of the file. -/
theorem mem_namespaces_of_sought {o : Outline} {ns : Text}
    (ho : ∀ ns ∈ o.namespaceName, ns ∈ o.namespaces)
    (h : ns ∈ o.namespaceName.toList ++ o.namespaces) : ns ∈ o.namespaces := by
  rcases List.mem_append.1 h with h | h
  · exact ho ns (by simpa using h)
  · exact h

/-- A name that is not shadowed is found as it stands. -/
theorem find?_of_not_shadows {o : Outline} {items : List Declared} {name : Text}
    (ho : ∀ ns ∈ o.namespaceName, ns ∈ o.namespaces) (h : ¬ o.Shadows items name) :
    o.find? items name = firstNamedAnyCase? Declared.name name items := by
  have hnone : (if name.contains '\\' then none
      else (o.namespaceName.toList ++ o.namespaces).findSome? fun ns =>
        firstNamedAnyCase? Declared.name (joinNames ns name) items) = none := by
    split
    · rfl
    · rename_i hc
      rw [List.findSome?_eq_none_iff]
      intro ns hns
      apply firstNamedAnyCase?_eq_none
      intro d hd
      have hno : '\\' ∉ name := by simpa using hc
      cases hw : d.name.sameWord (joinNames ns name) with
      | false => rfl
      | true => exact absurd ⟨hno, ns, mem_namespaces_of_sought ho hns, d, hd, hw⟩ h
  rw [find?, hnone, Option.none_or]

/-- A shadowed name leads into a namespace of the file. -/
theorem exists_find?_of_shadows {o : Outline} {items : List Declared} {name : Text}
    (ho : ∀ ns ∈ o.namespaceName, ns ∈ o.namespaces) (h : o.Shadows items name) :
    ∃ d ∈ items, o.find? items name = some d ∧
      ∃ ns ∈ o.namespaces, d.name.sameWord (joinNames ns name) = true := by
  obtain ⟨hno, ns, hns, d, hd, hw⟩ := h
  have hsome : ((o.namespaceName.toList ++ o.namespaces).findSome? fun ns =>
      firstNamedAnyCase? Declared.name (joinNames ns name) items).isSome = true := by
    rw [List.findSome?_isSome_iff]
    refine ⟨ns, by simp [hns], ?_⟩
    rw [firstNamedAnyCase?, Option.isSome_or, Bool.or_eq_true]
    exact .inr (List.find?_isSome.2 ⟨d, hd, hw⟩)
  obtain ⟨e, he⟩ := Option.isSome_iff_exists.1 hsome
  obtain ⟨ns', hns', he'⟩ := List.exists_of_findSome?_eq_some he
  have hmem := sameWord_of_firstNamedAnyCase? he'
  refine ⟨e, hmem.1, ?_, ns', mem_namespaces_of_sought ho hns', hmem.2⟩
  have hc : name.contains '\\' = false := by simpa using hno
  rw [find?, hc, if_neg (by simp), he, Option.some_or]

/-- A listed name is found: as it stands, or in a namespace that shadows it. -/
theorem exists_find? {o : Outline} {items : List Declared} {d : Declared}
    (ho : ∀ ns ∈ o.namespaceName, ns ∈ o.namespaces) (hd : d ∈ items) :
    ∃ e ∈ items, o.find? items d.name = some e ∧ o.LeadsTo items d.name e.name := by
  by_cases h : o.Shadows items d.name
  · obtain ⟨e, he, hfind, hns⟩ := exists_find?_of_shadows ho h
    exact ⟨e, he, hfind, ⟨fun hn => absurd h hn, fun _ => hns⟩⟩
  · obtain ⟨e, he, hfind, hname⟩ := exists_firstNamedAnyCase? Declared.name hd
    exact ⟨e, he, by rw [find?_of_not_shadows ho h, hfind],
      ⟨fun _ => hname, fun hs => absurd hs h⟩⟩

/-! ## Declared types -/

/-- A type of an outline was declared at a site, in the context that was in effect there. -/
theorem exists_site_of_mem_types {o : Outline} {events : List Event} {d : Declared}
    (h : d ∈ (o.replay events).types) :
    d ∈ o.types ∨ ∃ context site, .declaresType site ∈ events ∧
      d = ⟨context.qualify site.shortName, site.keyword, site.span, context⟩ := by
  induction events generalizing o with
  | nil => exact .inl h
  | cons ev events ih =>
    rcases ih h with h | ⟨context, site, hsite, hd⟩
    · cases ev with
      | declaresType site =>
        rcases List.mem_append.1 h with h | h
        · exact .inl h
        · exact .inr ⟨o.context, site, by simp, by simpa [declared] using h⟩
      | _ => exact .inl h
    · exact .inr ⟨context, site, by simp [hsite], hd⟩

end Outline

namespace ClassLike

/-- The name of a type is read from the first significant entry behind its word. -/
theorem name_read {t : TokenTable} {context : NameContext} {span : Span} {keyword : Nat}
    {word name : Entry} {rest : List Entry}
    (h : word :: name :: rest <:+ Entry.significant (t.startingAt 0))
    (hkeyword : keyword = word.index) (hlast : name.index ≤ span.last) :
    (read t context span keyword).name = context.qualify name.text := by
  have hskip := TokenTable.skipTrivia_window h (Nat.lt_succ_of_le hlast)
  simp only [read, hkeyword, hskip, List.head?_cons, Option.map_some, Option.getD_some]

end ClassLike

namespace SourceFile

theorem outline_ofSource (o : Options) (source : Text) :
    (ofSource o source).outline = .replay {} (Event.discover (ofSource o source).table) :=
  Outline.ofTable_eq_replay _

/-- The namespaces in which names are sought are those that the file declares. -/
theorem namespaceName_mem (o : Options) (source : Text) :
    ∀ ns ∈ (ofSource o source).outline.namespaceName,
      ns ∈ (ofSource o source).outline.namespaces := by
  rw [outline_ofSource]
  exact Outline.namespaceName_mem_replay {} _ (by simp [Outline.namespaceName])

/-- A type that is read in depth has the name it is listed under. -/
theorem name_readType {o : Options} {source : Text} {d : Declared}
    (h : d ∈ (ofSource o source).outline.types) :
    ((ofSource o source).readType d).name = d.name := by
  rw [outline_ofSource] at h
  rcases Outline.exists_site_of_mem_types h with h | ⟨context, site, hsite, rfl⟩
  · simp at h
  · obtain ⟨word, name, rest, hsuffix, hshort, hkeyword, hlast⟩ :=
      Event.exists_of_declaresType_mem hsite
    rw [hshort]
    exact ClassLike.name_read hsuffix hkeyword hlast

/-- Every listed name that does not begin with a backslash can be looked up, and leads to its own
declaration unless a namespace of the file shadows it. -/
theorem listed_names_found (o : Options) (source : Text) :
    (∀ n ∈ (ofSource o source).typeNames, n.head? ≠ some '\\' →
      ∃ c, (ofSource o source).type n = .ok c ∧
        (ofSource o source).outline.LeadsTo (ofSource o source).outline.types n c.name) ∧
    (∀ n ∈ (ofSource o source).functionNames, n.head? ≠ some '\\' →
      ∃ d ∈ (ofSource o source).outline.functions,
        (ofSource o source).function n = .ok ((ofSource o source).readFunction d) ∧
        (ofSource o source).outline.LeadsTo (ofSource o source).outline.functions n d.name) := by
  have hns := namespaceName_mem o source
  constructor
  · intro n hn hroot
    obtain ⟨d, hd, rfl⟩ := List.mem_map.1 hn
    obtain ⟨e, he, hfind, hleads⟩ := Outline.exists_find? hns hd
    refine ⟨(ofSource o source).readType e, ?_, ?_⟩
    · rw [type, Outline.withoutRoot_eq_self hroot, hfind]
      rfl
    · rw [name_readType he]
      exact hleads
  · intro n hn hroot
    obtain ⟨d, hd, rfl⟩ := List.mem_map.1 hn
    obtain ⟨e, he, hfind, hleads⟩ := Outline.exists_find? hns hd
    refine ⟨e, he, ?_, hleads⟩
    rw [function, Outline.withoutRoot_eq_self hroot, hfind]
    rfl

/-- A file with the class `A` in a namespace and another class `A` outside it. -/
def shadowingSource : Text := "<?php namespace N { class A {} } namespace { class A {} }".toList

/-- The class `A` in the namespace is found under its full name. -/
theorem qualified_name_found :
    ∃ c, (ofSource {} shadowingSource).type "N\\A".toList = .ok c ∧ c.name = "N\\A".toList := by
  obtain ⟨c, hc, hleads⟩ := (listed_names_found {} shadowingSource).1 "N\\A".toList
    (by decide +kernel) (by decide)
  refine ⟨c, hc, hleads.plain ?_⟩
  intro h
  exact h.1 (by decide)

/-- A file with a class that is declared with a backslash in front. -/
def rootedSource : Text := "<?php class \\A {}".toList

/-- A listed name need not lead back to itself: it can be shadowed, and a name that is declared with
a backslash in front is not found at all. A description then has one declaration twice and the other
not at all, or comes to no end. -/
theorem listed_name_not_found :
    (¬ ∀ (o : Options) (source : Text), ∀ n ∈ (ofSource o source).typeNames,
      ∃ c, (ofSource o source).type n = .ok c ∧ c.name = n) ∧
    ((ofSource {} shadowingSource).typeNames = ["N\\A".toList, "A".toList] ∧
      Report.describe (ofSource {} shadowingSource) =
        ⟨["class N\\A (lines 1-1)", "class N\\A (lines 1-1)"], none⟩) ∧
    "\\A".toList ∈ (ofSource {} rootedSource).typeNames ∧
    (ofSource {} rootedSource).type "\\A".toList = .error (.notFound .type "\\A".toList) ∧
    Report.describe (ofSource {} rootedSource) = ⟨[], some (.notFound .type "\\A".toList)⟩ := by
  refine ⟨?_, ⟨by decide +kernel, by decide +kernel⟩, by decide +kernel, ?_, by decide +kernel⟩
  case refine_2 =>
    have hnone : ((ofSource {} rootedSource).outline.find?
        (ofSource {} rootedSource).outline.types
        (Outline.withoutRoot "\\A".toList)).isNone = true := by
      decide +kernel
    rw [type, Option.isNone_iff_eq_none.1 hnone]
    rfl
  intro h
  obtain ⟨c, hc, hname⟩ := h {} shadowingSource "A".toList (by decide +kernel)
  have hfound : ((ofSource {} shadowingSource).type "A".toList).toOption.map ClassLike.name =
      some "N\\A".toList := by
    decide +kernel
  rw [hc] at hfound
  simp [Except.toOption, hname] at hfound

end SourceFile

end PhpOutline
