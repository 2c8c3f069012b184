import Mathlib.Data.List.Chain
import Mathlib.Data.List.TakeWhile
import PhpOutline.Proofs.Declaration.Spans
import PhpOutline.Proofs.Discovery.Spans
import PhpOutline.Proofs.Lexing.NameShape
import PhpOutline.Proofs.Outline.Listed

/-!
# Names without a backslash in front

A name in a source may have a backslash in front, to say that it is complete. In the namespaces and
imports of a file, and in what a type extends, implements and uses, names stand without it.

## Main definitions

* `Text.Rootless`, `Text.Canonical`: a name without a backslash in front, and one that is not empty.
* `NameContext.Canonical`, `Outline.Canonical`: all names in effect, or recorded, are canonical.
* `SourceFile.NamesRootless`: no name of a file has a backslash in front.

## Main statements

* `NameContext.Canonical.rootless_resolve`: references are resolved to names without a backslash.
* `Import.canonical_of_mem_ofStatement`: imports bind aliases to canonical names.
* `Outline.Canonical.replay`: what is recorded of a file is canonical.
* `SourceFile.namesRootless`: no name of any file has a backslash in front.
-/

namespace PhpOutline

/-! ## Names -/

/-- A name without a backslash in front. -/
def Text.Rootless (n : Text) : Prop := n.head? ≠ some '\\'

/-- A name that is not empty, and without a backslash in front. -/
structure Text.Canonical (n : Text) : Prop where
  ne_nil : n ≠ []
  rootless : n.Rootless

theorem Text.Canonical.append {a : Text} (h : a.Canonical) (b : Text) : (a ++ b).Canonical := by
  cases a with
  | nil => exact absurd rfl h.ne_nil
  | cons c s => exact ⟨by simp, h.rootless⟩

namespace IsNameText

variable {w : Text}

theorem canonical_stripAll (h : IsNameText w) : (w.stripAll '\\').Canonical where
  ne_nil := by
    intro hnil
    obtain ⟨c, s, rfl, hbegins⟩ := h.begins
    have hall : ∀ d ∈ c :: s, d = '\\' := by
      intro d hd
      simpa using List.dropWhile_eq_nil_iff.1 hnil d hd
    rcases hbegins with hc | ⟨-, hs⟩
    · simp [hall c (by simp), Lexeme.isIdentStart] at hc
    · cases s with
      | nil => simp [Lexeme.startsWith] at hs
      | cons d s => simp [Lexeme.startsWith, hall d (by simp), Lexeme.isIdentStart] at hs
  rootless := Text.head?_stripAll_ne _ w

/-- Behind a backslash of a name stands no other one. -/
theorem rootless_behind {a b : Text} (h : IsNameText (a ++ '\\' :: b)) : b.Rootless := by
  have hchain := h.apart.right_of_append
  cases b with
  | nil => simp [Text.Rootless]
  | cons c b =>
    have hc : c ≠ '\\' := (List.isChain_cons_cons.1 hchain).1 rfl
    simpa [Text.Rootless] using hc

end IsNameText

/-! ## Contexts -/

namespace Bindings

/-- All aliases stand for canonical names. -/
def Canonical (bs : Bindings) : Prop := ∀ b ∈ bs, b.2.Canonical

theorem canonical_nil : Canonical [] := by
  intro b hb
  simp at hb

theorem Canonical.bind {bs : Bindings} (h : bs.Canonical) (key : Text) {name : Text}
    (hname : name.Canonical) : (bs.bind key name).Canonical := by
  induction bs with
  | nil => simpa [Bindings.bind, Canonical] using hname
  | cons p bs ih =>
    have hp : p.2.Canonical := h p List.mem_cons_self
    have hbs : Canonical bs := fun b hb => h b (List.mem_cons_of_mem p hb)
    rw [Bindings.bind]
    split
    · exact List.forall_mem_cons.2 ⟨hname, hbs⟩
    · split
      · exact List.forall_mem_cons.2 ⟨hname, h⟩
      · exact List.forall_mem_cons.2 ⟨hp, ih hbs⟩

theorem Canonical.lookup? {bs : Bindings} (h : bs.Canonical) {key name : Text}
    (hkey : bs.lookup? key = some name) : name.Canonical := by
  have hmem : ∃ b ∈ bs, b.2 = name := by
    rw [Bindings.lookup?, Option.or_eq_some_iff] at hkey
    rcases hkey with hkey | ⟨-, hkey⟩
    · obtain ⟨b, hb, hname⟩ := Option.map_eq_some_iff.1 hkey
      exact ⟨b, List.mem_of_find?_eq_some hb, hname⟩
    · obtain ⟨b, hb, hname⟩ := Option.map_eq_some_iff.1 hkey
      exact ⟨b, List.mem_of_find?_eq_some hb, hname⟩
  obtain ⟨b, hb, rfl⟩ := hmem
  exact h b hb

end Bindings

namespace NameContext

/-- The namespace and the imported names are canonical. -/
structure Canonical (c : NameContext) : Prop where
  namespaceName : ∀ ns ∈ c.namespaceName, ns.Canonical
  imports : c.imports.Canonical

variable {c : NameContext} {w : Text}

theorem Canonical.rootless_qualify (h : c.Canonical) {n : Text} (hn : n.Rootless) :
    (c.qualify n).Rootless := by
  rw [qualify]
  split
  · rename_i ns hns
    exact ((h.namespaceName ns hns).append _).rootless
  · exact hn

theorem Canonical.rootless_of_resolveImport? (h : c.Canonical) {n : Text}
    (hn : c.resolveImport? w = some n) : n.Rootless := by
  rw [resolveImport?] at hn
  split at hn
  · obtain ⟨bound, hbound, rfl⟩ := Option.map_eq_some_iff.1 hn
    exact ((h.imports.lookup? hbound).append _).rootless
  · exact (h.imports.lookup? hn).rootless

/-- A reference is resolved to a name without a backslash in front, whether it is complete,
imported, relative to the namespace or declared in it. -/
theorem Canonical.rootless_resolve (h : c.Canonical) (hw : IsNameText w) :
    (c.resolve w).Rootless := by
  rw [resolve]
  split
  case h_1 full hfull =>
    cases w with
    | nil => cases hfull
    | cons d s =>
      rw [Text.stripOne] at hfull
      split at hfull
      · rename_i hd
        cases hfull
        exact IsNameText.rootless_behind (a := []) (hd ▸ hw)
      · cases hfull
  case h_2 hroot =>
    have hself : w.Rootless := by
      intro hhead
      cases w with
      | nil => cases hhead
      | cons d s => simp [Text.stripOne, Option.some.inj hhead] at hroot
    split
    · rename_i n hn
      exact h.rootless_of_resolveImport? hn
    · split
      · rename_i front rest hsplit
        obtain ⟨rfl, -⟩ := Text.splitFirst_eq_some hsplit
        split
        · exact h.rootless_qualify hw.rootless_behind
        · exact h.rootless_qualify hself
      · exact h.rootless_qualify hself

end NameContext

/-! ## Use statements -/

namespace Import

/-- The stem and the name of a draft are canonical where there are any. -/
structure Draft.Canonical (d : Draft) : Prop where
  stem : d.stem = [] ∨ d.stem.Canonical
  name : ∀ n ∈ d.name, n.Canonical

variable {d : Draft}

theorem Draft.Canonical.readName (h : d.Canonical) {word : Text} (hw : IsNameText word) :
    (d.readName word).Canonical := by
  have hstrip := hw.canonical_stripAll
  rw [Draft.readName]
  split
  · exact ⟨h.stem, h.name⟩
  · split
    · exact ⟨.inr hstrip, h.name⟩
    · refine ⟨h.stem, ?_⟩
      intro n hn
      obtain rfl := Option.some.inj hn
      rcases h.stem with hstem | hstem
      · rw [hstem]
        exact hstrip
      · exact hstem.append _

theorem Draft.Canonical.readToken (h : d.Canonical) {t : Token}
    (ht : t.kind = .name → IsNameText t.text) : (d.readToken t).Canonical := by
  rw [Draft.readToken]
  split
  · exact h
  · exact ⟨h.stem, h.name⟩
  · exact ⟨h.stem, h.name⟩
  · split
    · exact ⟨h.stem, h.name⟩
    · split
      · rename_i hname
        exact h.readName (ht hname)
      · exact h

theorem Draft.Canonical.next (h : d.Canonical) : d.next.Canonical where
  stem := h.stem
  name := by simp [Draft.next]

theorem Draft.Canonical.imports (h : d.Canonical) {i : Import} (hi : i ∈ d.imports) :
    i.name.Canonical := by
  rw [Draft.imports] at hi
  split at hi
  · rename_i name _ hname
    obtain rfl := List.mem_singleton.1 hi
    exact h.name name hname
  · simp at hi

/-- A use statement binds aliases to canonical names. -/
theorem canonical_of_mem_ofStatement (h : d.Canonical) {ts : List Token}
    (hts : ∀ t ∈ ts, t.kind = .name → IsNameText t.text) {i : Import} (hi : i ∈ ofStatement d ts) :
    i.name.Canonical := by
  -- The draft stays canonical: a new item begins with the stem of the last one.
  induction ts generalizing d with
  | nil => exact h.imports hi
  | cons t ts ih =>
    have hrest := fun u hu => hts u (List.mem_cons_of_mem t hu)
    rw [ofStatement] at hi
    split at hi
    · rcases List.mem_append.1 hi with hi | hi
      · exact h.imports hi
      · exact ih h.next hrest hi
    · exact ih (h.readToken (hts t List.mem_cons_self)) hrest hi

end Import

/-! ## Events -/

namespace Event

/-- The name of a namespace, or of an import, is canonical. -/
def Canonical : Event → Prop
  | entersNamespace name => ∀ n ∈ name, n.Canonical
  | imports i => i.name.Canonical
  | declaresType _ => True
  | declaresFunction _ => True

variable {es : List Entry} {ev : Event}

theorem canonical_of_mem_readNamespace (hes : Entry.NamesShaped es)
    (h : ev ∈ (readNamespace es).emitted) : ev.Canonical := by
  cases es with
  | nil => simp [readNamespace, resume] at h
  | cons e es =>
    rw [readNamespace] at h
    split at h
    · rename_i hkind
      obtain rfl := List.mem_singleton.1 h
      intro n hn
      obtain rfl := Option.some.inj hn
      exact (hes e List.mem_cons_self hkind).canonical_stripAll
    · obtain rfl := List.mem_singleton.1 h
      simp [Canonical]
    · obtain rfl := List.mem_singleton.1 h
      simp [Canonical]
    · simp [resume] at h

theorem canonical_of_mem_readUse (hes : Entry.NamesShaped es)
    (h : ev ∈ (readUse es).emitted) : ev.Canonical := by
  rw [readUse] at h
  split at h
  · simp [resume] at h
  · simp [resume] at h
  · simp [resume] at h
  · obtain ⟨i, hi, rfl⟩ := List.mem_map.1 h
    refine Import.canonical_of_mem_ofStatement ⟨.inl rfl, by simp⟩ ?_ hi
    intro t ht
    obtain ⟨e, he, rfl⟩ := List.mem_map.1 ht
    exact hes e (List.mem_of_mem_take he)

/-- What the discovery finds in a table whose names have their shape is canonical. -/
theorem canonical_of_mem_discover {t : TokenTable} (ht : Entry.NamesShaped (t.startingAt 0))
    (h : ev ∈ discover t) : ev.Canonical := by
  obtain ⟨st, e, es, hsuffix, h⟩ := exists_step_of_mem_sweep h
  have hes : Entry.NamesShaped es := by
    have hsub : e :: es ⊆ t.startingAt 0 :=
      fun a ha => List.mem_of_mem_filter (hsuffix.subset ha)
    exact ht.subset (List.subset_of_cons_subset hsub)
  rw [step] at h
  split at h
  case h_4 => exact canonical_of_mem_readNamespace hes h
  case h_5 => exact canonical_of_mem_readUse hes h
  case h_6 kind _ =>
    rcases readType_cases t.lastIndex st kind e es with ⟨hnone, -⟩ | ⟨name, rest, k, -, -, hstep⟩
    · simp [hnone] at h
    · rw [hstep] at h
      obtain rfl := List.mem_singleton.1 h
      trivial
  case h_7 =>
    rcases readFunction_cases t.lastIndex e es with ⟨hnone, -⟩ | ⟨name, k, n, hstep⟩
    · simp [hnone] at h
    · rw [hstep] at h
      obtain rfl := List.mem_singleton.1 h
      trivial
  all_goals simp [resume] at h

end Event

/-! ## Outlines -/

namespace Outline

/-- All names that an outline holds are canonical, and so are the contexts of its declarations. -/
structure Canonical (o : Outline) : Prop where
  context : o.context.Canonical
  namespaces : ∀ ns ∈ o.namespaces, ns.Canonical
  uses : o.uses.Canonical
  types : ∀ d ∈ o.types, d.context.Canonical
  functions : ∀ d ∈ o.functions, d.context.Canonical

theorem canonical_nil : Canonical {} where
  context := ⟨by simp, Bindings.canonical_nil⟩
  namespaces := by simp
  uses := Bindings.canonical_nil
  types := by simp
  functions := by simp

theorem Canonical.apply {o : Outline} (h : o.Canonical) {e : Event} (he : e.Canonical) :
    (o.apply e).Canonical := by
  cases e with
  | entersNamespace name =>
    refine ⟨⟨he, Bindings.canonical_nil⟩, ?_, h.uses, h.types, h.functions⟩
    intro ns hns
    rcases List.mem_append.1 hns with hns | hns
    · exact h.namespaces ns hns
    · exact he ns (by simpa using hns)
  | imports i =>
    exact ⟨⟨h.context.namespaceName, h.context.imports.bind i.key he⟩, h.namespaces,
      h.uses.bind i.key he, h.types, h.functions⟩
  | declaresType site =>
    refine ⟨h.context, h.namespaces, h.uses, ?_, h.functions⟩
    intro d hd
    rcases List.mem_append.1 hd with hd | hd
    · exact h.types d hd
    · obtain rfl := List.mem_singleton.1 hd
      exact h.context
  | declaresFunction site =>
    refine ⟨h.context, h.namespaces, h.uses, h.types, ?_⟩
    intro d hd
    rcases List.mem_append.1 hd with hd | hd
    · exact h.functions d hd
    · obtain rfl := List.mem_singleton.1 hd
      exact h.context

theorem Canonical.replay {o : Outline} (h : o.Canonical) {events : List Event}
    (hevents : ∀ e ∈ events, e.Canonical) : (o.replay events).Canonical := by
  induction events generalizing o with
  | nil => exact h
  | cons e events ih =>
    have happly := h.apply (hevents e List.mem_cons_self)
    exact ih happly fun e' he' => hevents e' (List.mem_cons_of_mem e he')

end Outline

/-! ## Types -/

namespace ClassLike

theorem mem_of_mem_references {clause : Option Clause} {es : List Entry} {r : Clause × Text}
    (h : r ∈ references clause es) : ∃ e ∈ es, e.kind = .name ∧ e.text = r.2 := by
  have hcons : ∀ {e : Entry} {es : List Entry}, (∃ a ∈ es, a.kind = .name ∧ a.text = r.2) →
      ∃ a ∈ e :: es, a.kind = .name ∧ a.text = r.2 := by
    rintro e es ⟨a, ha, hname⟩
    exact ⟨a, List.mem_cons_of_mem e ha, hname⟩
  fun_induction references clause es with
  | case1 => simp at h
  | case2 _ e es hkind ih => exact hcons (ih h)
  | case3 _ e es hkind ih => exact hcons (ih h)
  | case4 _ e es hkind ih => exact hcons (ih h)
  | case5 e es list hkind ih =>
    rcases List.mem_cons.1 h with rfl | h
    · exact ⟨e, List.mem_cons_self, hkind, rfl⟩
    · exact hcons (ih h)
  | case6 _ e es _ _ _ _ ih => exact hcons (ih h)

section

variable {context : NameContext} (hcontext : context.Canonical)

include hcontext

theorem rootless_of_mem_listed {es : List Entry} (hes : Entry.NamesShaped es) {list : Clause}
    {n : Text} (h : n ∈ listed context (references none es) list) : n.Rootless := by
  obtain ⟨r, hr, rfl⟩ := List.mem_map.1 h
  obtain ⟨e, he, hkind, htext⟩ := mem_of_mem_references (List.mem_of_mem_filter hr)
  rw [← htext]
  exact hcontext.rootless_resolve (hes e he hkind)

theorem rootless_of_traitUse_mem_scan {t : TokenTable} (ht : Entry.NamesShaped (t.startingAt 0))
    {body : Span} {n : Text} (h : .traitUse n ∈ Member.scan t context body) : n.Rootless := by
  obtain ⟨start, e, es, hsuffix, hm⟩ := exists_step_of_mem_sweep h
  obtain ⟨a, ha, hkind, rfl⟩ := Member.comesFrom_of_mem_emitted hm
  have hwindow := hsuffix.subset (List.mem_cons_of_mem e ha)
  exact hcontext.rootless_resolve
    (ht a (TokenTable.mem_startingAt_of_mem_window hwindow) hkind)

end

/-- The names that a type refers to stand without a backslash in front. -/
structure ReferencesRootless (c : ClassLike) : Prop where
  parent : ∀ n ∈ c.parent, n.Rootless
  interfaces : ∀ n ∈ c.interfaces, n.Rootless
  traits : ∀ n ∈ c.traits, n.Rootless

/-- The parent and the interfaces are among the names of the header. -/
theorem mem_of_mem_ancestry {kind : TypeKind} {extended implemented : List Text} {n : Text}
    (h : n ∈ (ancestry kind extended implemented).1 ∨
      n ∈ (ancestry kind extended implemented).2) : n ∈ extended ∨ n ∈ implemented := by
  cases kind with
  | interface => simpa [ancestry] using h
  | _ =>
    rcases h with h | h
    · exact .inl (List.mem_of_head? h)
    · exact .inr h

/-- The parent and the interfaces of a type are read from entries of the table. -/
theorem exists_header_read (t : TokenTable) (context : NameContext) (span : Span) (keyword : Nat) :
    ∃ es ⊆ t.startingAt 0,
      ((read t context span keyword).parent, (read t context span keyword).interfaces) =
        ancestry (kindOf (t.kind? keyword)) (listed context (references none es) .extended)
          (listed context (references none es) .implemented) := by
  refine ⟨_, ?_, rfl⟩
  cases (Entry.skipTrivia (t.window (keyword + 1) (span.last + 1))).head? with
  | none => exact List.nil_subset _
  | some e => exact fun a ha => TokenTable.mem_startingAt_of_mem_window ha

theorem referencesRootless_read {t : TokenTable} {context : NameContext}
    (ht : Entry.NamesShaped (t.startingAt 0)) (hcontext : context.Canonical) (span : Span)
    (keyword : Nat) : (read t context span keyword).ReferencesRootless := by
  have hlisted : ∀ n, n ∈ (read t context span keyword).parent ∨
      n ∈ (read t context span keyword).interfaces → n.Rootless := by
    intro n hn
    obtain ⟨es, hes, hread⟩ := exists_header_read t context span keyword
    obtain ⟨hparent, hinterfaces⟩ := Prod.mk.inj hread
    rw [hparent, hinterfaces] at hn
    have hshaped := ht.subset hes
    rcases mem_of_mem_ancestry hn with hn | hn
    · exact rootless_of_mem_listed hcontext hshaped hn
    · exact rootless_of_mem_listed hcontext hshaped hn
  constructor
  case parent => exact fun n hn => hlisted n (.inl hn)
  case interfaces => exact fun n hn => hlisted n (.inr hn)
  case traits =>
    intro n hn
    obtain ⟨m, hm, hname⟩ := List.mem_filterMap.1 hn
    cases m with
    | traitUse name =>
      obtain rfl := Option.some.inj hname
      exact rootless_of_traitUse_mem_scan hcontext ht hm
    | _ => cases hname

end ClassLike

/-! ## The whole file -/

namespace SourceFile

/-- No name of a file has a backslash in front: neither a namespace, nor a name that an alias stands
for, in the file or at one of its declarations, nor a name that a type refers to. -/
structure NamesRootless (f : SourceFile) : Prop where
  namespaces : ∀ ns ∈ f.outline.namespaces, ns.Rootless
  uses : ∀ b ∈ f.outline.uses, b.2.Rootless
  contexts : ∀ d ∈ f.outline.types ++ f.outline.functions,
    (∀ ns ∈ d.context.namespaceName, ns.Rootless) ∧ ∀ b ∈ d.context.imports, b.2.Rootless
  references : ∀ d ∈ f.outline.types, (f.readType d).ReferencesRootless

/-- No name of any file has a backslash in front. -/
theorem namesRootless (o : Options) (source : Text) : (ofSource o source).NamesRootless := by
  have hshaped := namesShaped o source
  have hcanonical : (ofSource o source).outline.Canonical := by
    rw [outline_ofSource]
    exact Outline.canonical_nil.replay fun e he => Event.canonical_of_mem_discover hshaped he
  constructor
  case namespaces => exact fun ns hns => (hcanonical.namespaces ns hns).rootless
  case uses => exact fun b hb => (hcanonical.uses b hb).rootless
  case contexts =>
    intro d hd
    have hcontext : d.context.Canonical := by
      rcases List.mem_append.1 hd with hd | hd
      · exact hcanonical.types d hd
      · exact hcanonical.functions d hd
    exact ⟨fun ns hns => (hcontext.namespaceName ns hns).rootless,
      fun b hb => (hcontext.imports b hb).rootless⟩
  case references =>
    exact fun d hd => ClassLike.referencesRootless_read hshaped (hcanonical.types d hd) _ _

end SourceFile

end PhpOutline
