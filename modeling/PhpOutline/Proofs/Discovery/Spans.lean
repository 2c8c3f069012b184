import PhpOutline.Proofs.Discovery.Sites
import PhpOutline.Proofs.TokenTable.Extents

/-!
# Spans of declarations

The discovery goes on behind the declaration that it has found, also where the declaration has no
end and is taken to reach to the end of the file. So the spans of declarations follow each other.

## Main definitions

* `Event.site?`: where an event declares something.
* `Event.LiesFrom`, `Event.Precedes`: where events declare something, in a file and to each other.

## Main statements

* `Event.step_cases`: what one step can do.
* `Event.step_ahead`: a step goes on behind what it declares.
* `Event.bounds_of_mem_discover`, `Event.pairwise_discover`: the spans of all declarations.
* `Event.exists_brace_of_declaresType_mem`: a declared type has the opening brace of a body.
-/

namespace PhpOutline.Event

/-- Where an event declares a type or a function. -/
def site? : Event → Option Site
  | declaresType site => some site
  | declaresFunction site => some site
  | entersNamespace _ => none
  | imports _ => none

/-! ## What a step can do -/

theorem site?_of_mem_readNamespace {es : List Entry} {ev : Event}
    (h : ev ∈ (readNamespace es).emitted) : ev.site? = none := by
  unfold readNamespace at h
  split at h
  · simp [resume] at h
  · split at h <;> simp_all [resume, site?]

theorem site?_of_mem_readUse {es : List Entry} {ev : Event} (h : ev ∈ (readUse es).emitted) :
    ev.site? = none := by
  rw [readUse] at h
  split at h
  · simp [resume] at h
  · simp [resume] at h
  · simp [resume] at h
  · obtain ⟨i, -, rfl⟩ := List.mem_map.1 h
    rfl

theorem state_readNamespace (es : List Entry) : (readNamespace es).state = {} := by
  unfold readNamespace
  split
  · rfl
  · split <;> rfl

theorem state_readUse (es : List Entry) : (readUse es).state = {} := by
  rw [readUse]
  split <;> rfl

/-- Behind the word `function`, either nothing is declared, or the declaration reaches to its end in
what follows the name. -/
theorem readFunction_cases (last : Nat) (word : Entry) (es : List Entry) :
    ((readFunction last word es).emitted = [] ∧ (readFunction last word es).state = {}) ∨
    ∃ name k n, readFunction last word es =
      resume [declaresFunction ⟨name, word.index,
        .ofBounds word.index (lastPlace last (es.drop k) n)⟩]
        ((n.map (k + 1 + ·)).getD es.length) := by
  rw [readFunction]
  simp only
  split
  · rename_i name list rest hes
    split
    · refine .inr ⟨name.text, ampersands es + 1, declarationEnd? (Entry.kinds (list :: rest)), ?_⟩
      rw [← List.drop_drop, hes]
      rfl
    · exact .inl ⟨rfl, rfl⟩
  · exact .inl ⟨rfl, rfl⟩

/-- A step declares nothing and remembers at most where the modifiers begin, or it declares
something that reaches from there, or from its own word, to the last entry that it claims. -/
theorem step_cases (last : Nat) (st : State) (e : Entry) (es : List Entry) :
    ((∀ ev ∈ (step last st e es).emitted, ev.site? = none) ∧
      ∀ i ∈ (step last st e es).state.start, i = st.start.getD e.index) ∨
    ∃ ev name first k n, ev.site? = some ⟨name, e.index,
        .ofBounds first (lastPlace last (es.drop k) n)⟩ ∧
      (first = e.index ∨ first = st.start.getD e.index) ∧
      step last st e es = resume [ev] ((n.map (k + 1 + ·)).getD es.length) := by
  rw [step]
  split
  case h_4 =>
    exact .inl ⟨fun ev => site?_of_mem_readNamespace, by simp [state_readNamespace]⟩
  case h_5 => exact .inl ⟨fun ev => site?_of_mem_readUse, by simp [state_readUse]⟩
  case h_6 kind _ =>
    rcases readType_cases last st kind e es with ⟨hnone, hstate⟩ | ⟨name, rest, k, rfl, -, hstep⟩
    · exact .inl ⟨by simp [hnone], by simp [hstate]⟩
    · exact .inr ⟨_, name.text, _, k + 1, _, rfl, .inr rfl, hstep⟩
  case h_7 =>
    rcases readFunction_cases last e es with ⟨hnone, hstate⟩ | ⟨name, k, n, hstep⟩
    · exact .inl ⟨by simp [hnone], by simp [hstate]⟩
    · exact .inr ⟨_, name, _, k, n, rfl, .inl rfl, hstep⟩
  all_goals exact .inl ⟨by simp [resume], by simp [resume]⟩

/-! ## What the pass has behind it -/

theorem lastPlace_le {last : Nat} {es : List Entry} {n : Option Nat}
    (h : ∀ e ∈ es, e.index ≤ last) : lastPlace last es n ≤ last := by
  rw [lastPlace]
  cases hn : n.bind fun k => es[k]? with
  | none => exact Nat.le_refl last
  | some e =>
    obtain ⟨k, -, hk⟩ := Option.bind_eq_some_iff.1 hn
    exact h e (List.mem_of_getElem? hk)

/-- What stands behind the claimed entries stands behind the last place of the declaration. -/
theorem lastPlace_lt {last k : Nat} {es : List Entry} {n : Option Nat}
    (hes : es.Pairwise fun a b => a.index < b.index) {a : Entry}
    (ha : a ∈ es.drop ((n.map (k + 1 + ·)).getD es.length)) :
    lastPlace last (es.drop k) n < a.index := by
  cases n with
  | none => simp at ha
  | some i =>
    have hi : k + i < es.length := by
      have := List.length_pos_of_mem ha
      simp only [Option.map_some, Option.getD_some, List.length_drop] at this
      omega
    have hsplit : es.drop (k + i) = es[k + i] :: es.drop (k + 1 + i) := by
      rw [Nat.add_right_comm k 1 i]
      exact List.drop_eq_getElem_cons hi
    have hsorted := hes.sublist (List.drop_sublist (k + i) es)
    rw [hsplit, List.pairwise_cons] at hsorted
    simpa [lastPlace, List.getElem?_drop, List.getElem?_eq_getElem hi] using hsorted.1 a ha

/-- What an event declares lies in the table, from place `lo` on, around the word that declares
it. -/
def LiesFrom (t : TokenTable) (lo : Nat) (ev : Event) : Prop :=
  ∀ site ∈ ev.site?, lo ≤ site.span.first ∧ site.span.first ≤ site.keyword ∧
    site.span.last < t.size

/-- What one event declares ends before what the other declares. -/
def Precedes (ev ev' : Event) : Prop :=
  ∀ site ∈ ev.site?, ∀ site' ∈ ev'.site?, site.span.Precedes site'.span

/-- A step goes on behind what it declares. -/
theorem step_ahead {t : TokenTable} {all : List Entry} {st : State} {lo : Nat} {e : Entry}
    {es : List Entry} (hall : all.Sublist (t.startingAt 0))
    (h : Entry.Ahead all st.start lo (e :: es)) :
    ∃ hi, lo ≤ hi ∧
      (∀ ev ∈ (step t.lastIndex st e es).emitted, ev.LiesFrom t lo ∧
        ∀ ev', ev'.LiesFrom t hi → ev.Precedes ev') ∧
      (step t.lastIndex st e es).emitted.Pairwise Precedes ∧
      Entry.Ahead all (step t.lastIndex st e es).state.start hi
        (es.drop (step t.lastIndex st e es).claims) := by
  have hsub : (e :: es).Sublist (t.startingAt 0) := h.suffix.sublist.trans hall
  have hsorted : (e :: es).Pairwise fun a b => a.index < b.index :=
    (Entry.pairwise_number 0 _).sublist hsub
  obtain ⟨hbehind, hes⟩ := List.pairwise_cons.1 hsorted
  rcases step_cases t.lastIndex st e es with
    ⟨hsite, hstart⟩ | ⟨ev, name, first, k, n, hev, hfirst, hstep⟩
  · refine ⟨lo, Nat.le_refl lo, ?_, ?_, h.keep hbehind hstart _⟩
    · intro ev hev
      constructor
      · intro site hs
        simp [hsite ev hev] at hs
      · intro ev' _ site hs
        simp [hsite ev hev] at hs
    · refine List.pairwise_of_forall_mem_list ?_
      intro ev hev ev' _ site hs
      simp [hsite ev hev] at hs
  · -- the next declaration may begin right behind the last place of this one
    have hbounds : lo ≤ first ∧ first ≤ e.index := by
      rcases hfirst with rfl | rfl
      · exact ⟨h.entries e List.mem_cons_self, Nat.le_refl _⟩
      · exact h.first_bounds
    obtain ⟨hindex, hsize⟩ := TokenTable.index_le_lastIndex (hsub.subset List.mem_cons_self)
    have hlast : lastPlace t.lastIndex (es.drop k) n ≤ t.lastIndex := by
      apply lastPlace_le
      intro a ha
      have hmem : a ∈ e :: es := List.mem_cons_of_mem e (List.mem_of_mem_drop ha)
      exact (TokenTable.index_le_lastIndex (hsub.subset hmem)).1
    rw [hstep]
    refine ⟨max first (lastPlace t.lastIndex (es.drop k) n) + 1, by omega, ?_, by simp [resume],
      h.past ?_⟩
    · intro ev' hev'
      obtain rfl : ev' = ev := by simpa [resume] using hev'
      constructor
      · intro site hs
        obtain rfl := Option.some.inj (hev.symm.trans hs)
        exact ⟨hbounds.1, hbounds.2, by simp only [Span.last_ofBounds]; omega⟩
      · intro ev'' hfrom site hs site' hs'
        obtain rfl := Option.some.inj (hev.symm.trans hs)
        exact (hfrom site' hs').1
    · intro a ha
      have hafter : lastPlace t.lastIndex (es.drop k) n < a.index := lastPlace_lt hes ha
      have := hbehind a (List.mem_of_mem_drop ha)
      omega

/-! ## The whole file -/

/-- The declarations of a file lie in the file, one behind the other. -/
theorem discover_ordered (t : TokenTable) :
    (∀ ev ∈ discover t, ev.LiesFrom t 0) ∧ (discover t).Pairwise Precedes := by
  refine sweep_ordered
    (fun st => Entry.Ahead (Entry.significant (t.startingAt 0)) st.start) (LiesFrom t) ?_ ?_ ?_
  · intro lo hi ev hle hev site hs
    obtain ⟨hfirst, hrest⟩ := hev site hs
    exact ⟨Nat.le_trans hle hfirst, hrest⟩
  · intro st lo e es h
    exact step_ahead List.filter_sublist h
  · exact ⟨List.suffix_refl _, fun _ _ => Nat.zero_le _, by simp⟩

theorem bounds_of_mem_discover {t : TokenTable} {ev : Event} {site : Site} (h : ev ∈ discover t)
    (hs : ev.site? = some site) : site.span.first ≤ site.keyword ∧ site.span.last < t.size :=
  ((discover_ordered t).1 ev h site hs).2

theorem pairwise_discover (t : TokenTable) : (discover t).Pairwise Precedes :=
  (discover_ordered t).2

/-- A declared type has the opening brace of a body behind its word. -/
theorem exists_brace_of_declaresType_mem {t : TokenTable} {site : Site}
    (h : .declaresType site ∈ discover t) :
    ∃ brace ∈ t.startingAt 0, brace.kind = .opener .brace ∧ site.keyword < brace.index ∧
      brace.index ≤ site.span.last := by
  obtain ⟨st, word, es, hsuffix, h⟩ := exists_step_of_mem_sweep h
  obtain ⟨name, rest, header, rfl, hend, rfl, -⟩ := exists_of_declaresType_mem_step h
  have hall : (word :: name :: rest).Sublist (t.startingAt 0) :=
    hsuffix.sublist.trans List.filter_sublist
  obtain ⟨brace, after, hbody, hkind⟩ := Entry.exists_brace_of_headerEnd? hend
  have hsorted : (word :: name :: rest).Pairwise fun a b => a.index < b.index :=
    (Entry.pairwise_number 0 _).sublist hall
  have hdrop : (brace :: after).Sublist (name :: rest) := by
    rw [← hbody]
    exact (List.drop_sublist header rest).trans (List.sublist_cons_self name rest)
  have hmem : brace ∈ name :: rest := hdrop.subset List.mem_cons_self
  have hbrace := hall.subset (List.mem_cons_of_mem word hmem)
  obtain ⟨hword, hbehind⟩ := List.pairwise_cons.1 hsorted
  refine ⟨brace, hbrace, hkind, hword brace hmem, ?_⟩
  refine Nat.le_trans (le_lastPlace ?_ ?_) (Nat.le_max_right _ _)
  · intro a ha
    rw [hbody] at ha
    rcases List.mem_cons.1 ha with rfl | ha
    · exact Nat.le_refl _
    · exact Nat.le_of_lt ((List.pairwise_cons.1 (hbehind.sublist hdrop)).1 a ha)
  · exact (TokenTable.index_le_lastIndex hbrace).1

end PhpOutline.Event
