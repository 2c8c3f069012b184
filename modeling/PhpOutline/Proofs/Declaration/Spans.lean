import PhpOutline.Declaration.ClassLike
import PhpOutline.Proofs.TokenTable.Extents

/-!
# Spans of members and parameters

The members of a type lie in its body, one declaration behind the other, and what one declaration
introduces lies in it, one item behind the other. The parameters of a function lie in its span. This
holds of every table, also where brackets have no partner: a search that finds no end stops at the
end of what it looks at.

## Main definitions

* `Member.slot?`: where a member is declared.
* `Member.ComesFrom`: what a member is read off from.
* `Slot.Before`, `Member.Before`: the order of members.
* `Callable.SpansNested`: the parameters lie in the span of a function.

## Main statements

* `Member.comesFrom_of_mem_emitted`, `Member.step_cases`: what one step over a body can do.
* `Member.step_ahead`: a step goes on behind what it declares.
* `Member.scan_ordered`: the members of a body.
* `Callable.spansNested_read`: the parameters of a function.
-/

namespace PhpOutline

/-- A slot stands before another one: its declaration does, or both belong to one declaration and
its item does. -/
def Slot.Before (s u : Slot) : Prop :=
  s.decl.Precedes u.decl ∨ s.decl = u.decl ∧ s.item.Precedes u.item

theorem Callable.naming_suffix (es : List Entry) : (naming es).2 <:+ es := by
  have hskip := Entry.skipTrivia_suffix
  rw [naming]
  split
  · rename_i e rest hes
    have hrest : e :: rest <:+ es := hes ▸ hskip es
    split
    · exact (hskip rest).trans ((List.suffix_cons e rest).trans hrest)
    · exact hrest
  · exact List.nil_suffix

namespace Member

/-- Where a member is declared. A trait that is used is declared elsewhere. -/
def slot? : Member → Option Slot
  | constant slot => some slot
  | property slot => some slot
  | method slot => some slot
  | traitUse _ => none

/-- A member stands before another one. Only constants, or properties, can share a declaration. -/
def Before : Member → Member → Prop
  | constant s, constant u => s.Before u
  | property s, property u => s.Before u
  | m, m' => ∀ s ∈ m.slot?, ∀ u ∈ m'.slot?, s.decl.Precedes u.decl

theorem before_of_precedes {m m' : Member}
    (h : ∀ s ∈ m.slot?, ∀ u ∈ m'.slot?, s.decl.Precedes u.decl) : m.Before m' := by
  cases m <;> cases m' <;> first | exact h | exact .inl (h _ rfl _ rfl)

/-- The member has its declaration in a body that ends at place `stop`, from place `lo` on, and its
item in the declaration. -/
def LiesFrom (stop lo : Nat) (m : Member) : Prop :=
  ∀ s ∈ m.slot?, lo ≤ s.decl.first ∧ s.item.Inside s.decl ∧ s.decl.last ≤ stop

/-! ## What a step can do -/

theorem slot?_of_mem_traitUses {context : NameContext} {es : List Entry} {m : Member}
    (h : m ∈ traitUses context es) : m.slot? = none := by
  obtain ⟨e, -, rfl⟩ := List.mem_map.1 h
  rfl

theorem statementLength_le (e : Entry) (es : List Entry) : statementLength e es ≤ es.length := by
  rw [statementLength]
  cases h : statementEnd? (Entry.kinds (e :: es)) with
  | none => exact Nat.le_refl _
  | some n =>
    have := statementEnd?_lt h
    rw [Entry.kinds, List.length_map, List.length_cons] at this
    exact Nat.le_of_lt_succ this

section

variable {t : TokenTable} {i stop : Nat} {e : Entry} {es : List Entry}

/-- Members that share a declaration: their items lie in it, one behind the other. -/
def Share (decl : Span) (ms : List Member) : Prop :=
  (∀ m ∈ ms, ∀ s ∈ m.slot?, s.decl = decl ∧ s.item.Inside decl) ∧ ms.Pairwise Before

/-- The items of one declaration, which are all of the sort `mk`. -/
theorem share_items (mk : Slot → Member) (hslot : ∀ s, (mk s).slot? = some s)
    (hmk : ∀ s u, s.Before u → (mk s).Before (mk u)) {f : Span → Option Member} {decl : Span}
    (hf : ∀ item m, f item = some m → ∃ name, m = mk ⟨name, decl, item⟩)
    (hes : es.Pairwise fun a b => a.index < b.index)
    (hin : ∀ a ∈ es, decl.first ≤ a.index ∧ a.index ≤ decl.last) :
    Share decl ((Entry.pieces es).filterMap f) := by
  constructor
  · intro m hm s hs
    obtain ⟨item, hitem, hm⟩ := List.mem_filterMap.1 hm
    obtain ⟨name, rfl⟩ := hf item m hm
    obtain rfl := Option.some.inj ((hslot _).symm.trans hs)
    have hbounds := Entry.bounds_of_mem_pieces hitem fun a ha =>
      ⟨(hin a ha).1, Nat.lt_succ_of_le (hin a ha).2⟩
    exact ⟨rfl, hbounds.1, Nat.le_of_lt_succ hbounds.2⟩
  · refine List.Pairwise.filterMap f ?_ (Entry.pairwise_pieces hes)
    intro item item' hlt m hm m' hm'
    obtain ⟨name, rfl⟩ := hf item m hm
    obtain ⟨name', rfl⟩ := hf item' m' hm'
    exact hmk _ _ (.inr ⟨rfl, hlt⟩)

theorem share_constants {decl : Span} (hes : es.Pairwise fun a b => a.index < b.index)
    (hin : ∀ a ∈ es, decl.first ≤ a.index ∧ a.index ≤ decl.last) :
    Share decl (constants t decl es) := by
  refine share_items constant (fun _ => rfl) (fun _ _ h => h) ?_ hes hin
  intro item m hm
  obtain ⟨i, -, rfl⟩ := Option.map_eq_some_iff.1 hm
  exact ⟨_, rfl⟩

theorem share_properties {decl : Span} (hes : es.Pairwise fun a b => a.index < b.index)
    (hin : ∀ a ∈ es, decl.first ≤ a.index ∧ a.index ≤ decl.last) :
    Share decl (properties t decl es) := by
  refine share_items property (fun _ => rfl) (fun _ _ h => h) ?_ hes hin
  intro item m hm
  obtain ⟨e, -, rfl⟩ := Option.map_eq_some_iff.1 hm
  exact ⟨_, rfl⟩

/-- A method ends in the body around it. -/
theorem methodEnd?_le (h : e :: es <:+ t.window i stop) {n : Nat}
    (hn : methodEnd? t stop es = some n) : e.index + 1 + n ≤ stop := by
  obtain ⟨before, a, rest, m, rfl, hlook, rfl⟩ := exists_ends_of_seek hn
  have hindex := TokenTable.index_eq_of_suffix h
  have hstop : a.index < stop := by
    have hsuffix : a :: rest <:+ t.window i stop :=
      ((List.suffix_append before _).trans (List.suffix_cons e _)).trans h
    have := (TokenTable.index_add_length_le hsuffix).2
    rw [List.length_cons] at this
    omega
  have hm : m ≤ stop - a.index := by
    split at hlook
    · cases hlook
      exact Nat.zero_le _
    · split at hlook
      · cases hlook
        exact Nat.sub_le_sub_right (Nat.min_le_right _ _) _
      · cases hlook
    · exact absurd hlook (passGroup_ne_ends _ _ _)
    · exact absurd hlook (passGroup_ne_ends _ _ _)
    · exact absurd hlook (passGroup_ne_ends _ _ _)
    · cases hlook
  omega

/-- The declaration of a method ends in the body. -/
theorem method?_bounds (h : e :: es <:+ t.window i stop) {first : Nat} (hfirst : first ≤ e.index)
    {s : Slot} (hs : method? t stop first es = some s) :
    s.item = s.decl ∧ s.decl.first = first ∧ s.decl.last ≤ stop := by
  rw [method?] at hs
  split at hs
  · rename_i name rest hnaming
    cases hs
    have hsuffix : name :: rest <:+ t.window i stop :=
      hnaming ▸ (Callable.naming_suffix es).trans ((List.suffix_cons e es).trans h)
    refine ⟨rfl, rfl, Nat.max_le.2 ⟨?_, ?_⟩⟩
    · have := (TokenTable.index_add_length_le h).2
      rw [List.length_cons] at this
      omega
    · cases hn : methodEnd? t stop rest with
      | none => exact Nat.sub_le stop 1
      | some n => exact methodEnd?_le hsuffix hn
  · cases hs

/-- Where a member comes from that a step at `e` emits: a trait from a name in the statement, a
constant or a property from its item, and a method from the word `function` at which the step
stands. -/
def ComesFrom (t : TokenTable) (context : NameContext) (stop : Nat) (start : Option Nat) (e : Entry)
    (es : List Entry) : Member → Prop
  | traitUse name => ∃ a ∈ es, a.kind = .name ∧ name = context.resolve a.text
  | constant s => (Constant.nameIndex? t s.item).map t.text = some s.name
  | property s => (Property.named t s.item).head?.map (fun a => a.text.drop 1) = some s.name
  | method s => e.kind = .keyword .function ∧ method? t stop (start.getD e.index) es = some s

theorem comesFrom_of_mem_emitted {context : NameContext} {start : Option Nat} {m : Member}
    (h : m ∈ (step t context stop start e es).emitted) :
    m.ComesFrom t context stop start e es := by
  rw [step] at h
  split at h
  case h_4 =>
    split at h
    · obtain ⟨a, ha, rfl⟩ := List.mem_map.1 h
      obtain ⟨ha, hkind⟩ := List.mem_filter.1 ha
      exact ⟨a, List.mem_of_mem_take (List.takeWhile_subset _ ha), by simpa using hkind, rfl⟩
    · simp at h
  case h_5 =>
    obtain ⟨item, -, hitem⟩ := List.mem_filterMap.1 h
    obtain ⟨i, hi, rfl⟩ := Option.map_eq_some_iff.1 hitem
    exact Option.map_eq_some_iff.2 ⟨i, hi, rfl⟩
  case h_6 hkind =>
    split at h
    · rename_i slot hslot
      obtain rfl := List.mem_singleton.1 h
      exact ⟨hkind, hslot⟩
    · simp at h
  case h_7 =>
    obtain ⟨item, -, hitem⟩ := List.mem_filterMap.1 h
    obtain ⟨a, ha, rfl⟩ := Option.map_eq_some_iff.1 hitem
    exact Option.map_eq_some_iff.2 ⟨a, ha, rfl⟩
  case h_10 => split at h <;> simp at h
  all_goals simp at h

/-- A step declares nothing and remembers at most where the modifiers begin, or it declares members
that share one declaration, and claims all of it. -/
theorem step_cases (context : NameContext) (start : Option Nat)
    (h : e :: es <:+ t.window i stop) (hfirst : start.getD e.index ≤ e.index) :
    ((∀ m ∈ (step t context stop start e es).emitted, m.slot? = none) ∧
      ∀ i ∈ (step t context stop start e es).state, i = start.getD e.index) ∨
    ∃ decl : Span, decl.first = start.getD e.index ∧ decl.last ≤ stop ∧
      decl.last ≤ e.index + (step t context stop start e es).claims ∧
      (step t context stop start e es).state = none ∧
      Share decl (step t context stop start e es).emitted := by
  have hstart : ∀ i ∈ start, i = start.getD e.index := by
    intro i hi
    simp [Option.mem_def.1 hi]
  have hstop := (TokenTable.index_add_length_le h).2
  rw [List.length_cons] at hstop
  have hn := statementLength_le e es
  have hlast : (Span.ofBounds (start.getD e.index) (e.index + statementLength e es)).last =
      e.index + statementLength e es := by
    rw [Span.last_ofBounds]
    omega
  have hsorted : (e :: es).Pairwise fun a b => a.index < b.index :=
    (TokenTable.pairwise_window t i stop).sublist h.sublist
  rw [step]
  split
  case h_4 =>
    split
    · exact .inl ⟨fun m => slot?_of_mem_traitUses, by simp⟩
    · exact .inl ⟨by simp, hstart⟩
  case h_5 =>
    refine .inr ⟨_, rfl, by omega, Nat.le_of_eq hlast, rfl, share_constants ?_ ?_⟩
    · exact (List.pairwise_cons.1 hsorted).2.sublist (List.take_sublist _ _)
    · intro a ha
      have := TokenTable.bounds_of_mem_take h ha
      rw [hlast, Span.first_ofBounds]
      omega
  case h_6 =>
    split
    · rename_i s hs
      obtain ⟨hitem, hdecl, hle⟩ := method?_bounds h hfirst hs
      refine .inr ⟨s.decl, hdecl, hle, by simp only; omega, rfl, ?_, by simp⟩
      intro m hm u hu
      obtain rfl : m = method s := by simpa using hm
      obtain rfl : s = u := Option.some.inj hu
      rw [hitem]
      exact ⟨rfl, Nat.le_refl _, Nat.le_refl _⟩
    · exact .inl ⟨by simp, by simp⟩
  case h_7 =>
    refine .inr ⟨_, rfl, by omega, Nat.le_of_eq hlast, rfl, share_properties ?_ ?_⟩
    · exact hsorted.sublist (List.take_sublist _ _)
    · intro a ha
      rw [hlast, Span.first_ofBounds]
      cases hlen : statementLength e es with
      | zero => simp [hlen] at ha
      | succ n =>
        rw [hlen, List.take_succ_cons, List.mem_cons] at ha
        rcases ha with rfl | ha
        · omega
        · have := TokenTable.bounds_of_mem_take h ha
          omega
  case h_10 =>
    split
    · exact .inl ⟨by simp, by simp⟩
    · exact .inl ⟨by simp, hstart⟩
  case h_3 => exact .inl ⟨by simp, by simp⟩
  case h_8 => exact .inl ⟨by simp, by simp⟩
  case h_9 => exact .inl ⟨by simp, by simp⟩
  all_goals exact .inl ⟨by simp, hstart⟩

/-- A step goes on behind what it declares. -/
theorem step_ahead (context : NameContext) {start : Option Nat} {lo : Nat}
    (h : Entry.Ahead (t.window i stop) start lo (e :: es)) :
    ∃ hi, lo ≤ hi ∧
      (∀ m ∈ (step t context stop start e es).emitted, m.LiesFrom stop lo ∧
        ∀ m', m'.LiesFrom stop hi → m.Before m') ∧
      (step t context stop start e es).emitted.Pairwise Before ∧
      Entry.Ahead (t.window i stop) (step t context stop start e es).state hi
        (es.drop (step t context stop start e es).claims) := by
  have hsorted : (e :: es).Pairwise fun a b => a.index < b.index :=
    (TokenTable.pairwise_window t i stop).sublist h.suffix.sublist
  obtain ⟨hlo, hfirst⟩ := h.first_bounds
  rcases step_cases context start h.suffix hfirst with
    ⟨hslot, hstart⟩ | ⟨decl, hdecl, hstop, hclaims, hstate, hin, hordered⟩
  · refine ⟨lo, Nat.le_refl lo, ?_, ?_, h.keep (List.pairwise_cons.1 hsorted).1 hstart _⟩
    · intro m hm
      constructor
      · intro s hs
        simp [hslot m hm] at hs
      · intro m' _
        refine before_of_precedes ?_
        intro s hs
        simp [hslot m hm] at hs
    · refine List.pairwise_of_forall_mem_list ?_
      intro m hm m' _
      refine before_of_precedes ?_
      intro s hs
      simp [hslot m hm] at hs
  · have hlast := decl.ordered
    refine ⟨decl.last + 1, by omega, ?_, hordered, ?_⟩
    · intro m hm
      constructor
      · intro s hs
        obtain ⟨rfl, hitem⟩ := hin m hm s hs
        exact ⟨by omega, hitem, hstop⟩
      · intro m' hm'
        refine before_of_precedes ?_
        intro s hs u hu
        obtain ⟨rfl, -⟩ := hin m hm s hs
        exact (hm' u hu).1
    · rw [hstate]
      refine h.past ?_
      intro a ha
      have := TokenTable.lt_index_of_mem_drop h.suffix ha
      omega

end

/-- The members of a body lie behind its opening brace, one declaration behind the other. -/
theorem scan_ordered (t : TokenTable) (context : NameContext) (body : Span) :
    (∀ m ∈ scan t context body, m.LiesFrom body.last (body.first + 1)) ∧
      (scan t context body).Pairwise Before := by
  refine sweep_ordered (Entry.Ahead (t.window (body.first + 1) body.last)) (LiesFrom body.last)
    ?_ ?_ ?_
  · intro lo hi m hle hm s hs
    obtain ⟨hfirst, hrest⟩ := hm s hs
    exact ⟨Nat.le_trans hle hfirst, hrest⟩
  · intro start lo e es h
    exact step_ahead context h
  · exact ⟨List.suffix_refl _, fun a ha => (TokenTable.bounds_of_mem_window ha).1, by simp⟩

end Member

/-! ## Parameters -/

namespace Callable

/-- The parameters of a function lie in its span, one behind the other. -/
structure SpansNested (c : Callable) : Prop where
  inside : ∀ p ∈ c.parameters, p.span.Inside c.span
  ordered : c.parameters.Pairwise fun p q => p.span.Precedes q.span

theorem rest_leadIn_suffix (es : List Entry) : (leadIn es).rest <:+ es := by
  refine settle_induction (P := fun l : LeadIn => l.rest <:+ es) ?_ (List.suffix_refl es)
    List.nil_suffix
  intro l e rest hrest hl
  rw [leadInStep]
  split
  · exact (List.suffix_cons e rest).trans hrest
  · exact hl
  · exact hl

theorem groupLast_le {t : TokenTable} {i last : Nat} {e : Entry} {es : List Entry}
    (h : e :: es <:+ t.window i (last + 1)) : groupLast last (e :: es) ≤ last := by
  rw [groupLast]
  cases hn : groupEnd? (Entry.kinds (e :: es)) with
  | none => exact Nat.le_refl last
  | some n =>
    have hlt := groupEnd?_lt hn
    rw [Entry.kinds, List.length_map] at hlt
    have := (TokenTable.index_add_length_le h).2
    change e.index + n ≤ last
    omega

/-- The parameter list of a function lies in its span. -/
theorem inside_of_parameterList? {t : TokenTable} {span list : Span} {es : List Entry}
    (hes : es <:+ t.within span) (h : parameterList? span.last es = some list) :
    list.Inside span := by
  rw [parameterList?] at h
  split at h
  · rename_i e rest hdrop
    cases h
    have hsuffix : e :: rest <:+ t.window span.first (span.last + 1) :=
      hdrop ▸ (List.dropWhile_suffix _).trans hes
    obtain ⟨hfirst, hlast⟩ := TokenTable.index_add_length_le hsuffix
    rw [List.length_cons] at hlast
    exact ⟨hfirst, Nat.max_le.2 ⟨by omega, groupLast_le hsuffix⟩⟩
  · cases h

theorem map_span_readParameters (t : TokenTable) (context : NameContext)
    (scope : Option ClassScope) (list : Span) :
    (readParameters t context scope list).map Parameter.span = t.splitTopLevel list := by
  refine List.ext_getElem? ?_
  intro n
  simp [readParameters, Parameter.read, Function.comp_def]

/-- The parameters of a function lie in its span, whatever its tokens are. -/
theorem spansNested_read (t : TokenTable) (context : NameContext) (scope : Option ClassScope)
    (inInterface : Bool) (span : Span) : (read t context scope inInterface span).SpansNested := by
  have hnamed : (naming (leadIn (t.within span)).rest).2 <:+ t.within span :=
    (naming_suffix _).trans (rest_leadIn_suffix _)
  cases hlist : parameterList? span.last (naming (leadIn (t.within span)).rest).2 with
  | none =>
    have hnil : (read t context scope inInterface span).parameters = [] := by
      simp [read, hlist]
    exact ⟨by simp [hnil], by simp [hnil]⟩
  | some list =>
    have hparameters : (read t context scope inInterface span).parameters =
        readParameters t context scope list := by
      simp [read, hlist]
    have hspans := map_span_readParameters t context scope list
    obtain ⟨hfirst, hlast⟩ := inside_of_parameterList? hnamed hlist
    constructor
    · intro p hp
      rw [hparameters] at hp
      have hpiece : p.span ∈ t.splitTopLevel list := hspans ▸ List.mem_map_of_mem hp
      obtain ⟨hp, hp'⟩ := Entry.bounds_of_mem_pieces hpiece fun a ha =>
        TokenTable.bounds_of_mem_window ha
      change span.first ≤ p.span.first ∧ p.span.last ≤ span.last
      omega
    · rw [hparameters]
      have hpieces := Entry.pairwise_pieces (t.pairwise_window (list.first + 1) list.last)
      rw [← TokenTable.splitTopLevel, ← hspans, List.pairwise_map] at hpieces
      exact hpieces

end Callable

end PhpOutline
