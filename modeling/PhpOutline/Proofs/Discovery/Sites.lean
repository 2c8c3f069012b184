import PhpOutline.Discovery.Event
import PhpOutline.Proofs.Sweep
import PhpOutline.Proofs.TokenTable.Windows

/-!
# Sites of declarations

What the discovery says about a declared type is what stands at its site: the word that declares it,
behind it the name, and a span that reaches at least to the name.

## Main statements

* `Event.readType_cases`: what is read behind the word that declares a type.
* `Event.exists_of_declaresType_mem`: a declared type has its word and its name in the table.
-/

namespace PhpOutline.Event

/-- The last place of a declaration is that of one of its entries, or the last of all. -/
theorem le_lastPlace {i last : Nat} {es : List Entry} {n : Option Nat}
    (hes : ∀ e ∈ es, i ≤ e.index) (hlast : i ≤ last) : i ≤ lastPlace last es n := by
  rw [lastPlace]
  cases h : n.bind fun k => es[k]? with
  | none => simpa using hlast
  | some e =>
    obtain ⟨k, -, hk⟩ := Option.bind_eq_some_iff.1 h
    simpa using hes e (List.mem_of_getElem? hk)

theorem notMem_unnamed {kind : TypeKind} {es : List Entry} {ev : Event} :
    ev ∉ (readType.unnamed kind es).emitted := by
  rw [readType.unnamed]
  split <;> simp [resume]

theorem state_unnamed (kind : TypeKind) (es : List Entry) :
    (readType.unnamed kind es).state = {} := by
  rw [readType.unnamed]
  split <;> rfl

/-- Behind the word that declares a type, either nothing is declared, or a name stands there, then
a header, and the declaration reaches to the end of the body. -/
theorem readType_cases (last : Nat) (st : State) (kind : TypeKind) (word : Entry)
    (es : List Entry) :
    ((readType last st kind word es).emitted = [] ∧ (readType last st kind word es).state = {}) ∨
    ∃ name rest header, es = name :: rest ∧ headerEnd? (Entry.kinds rest) = some header ∧
      readType last st kind word es =
        resume [declaresType ⟨name.text, word.index, .ofBounds (st.start.getD word.index)
          (lastPlace last (rest.drop header) (groupEnd? (Entry.kinds (rest.drop header))))⟩]
          (((groupEnd? (Entry.kinds (rest.drop header))).map (header + 2 + ·)).getD
            es.length) := by
  have hunnamed : (readType.unnamed kind es).emitted = [] :=
    List.eq_nil_iff_forall_not_mem.2 fun _ => notMem_unnamed
  unfold readType
  split
  case h_2 => exact .inl ⟨hunnamed, state_unnamed _ _⟩
  case h_1 name rest =>
    split
    · split
      · exact .inl ⟨rfl, rfl⟩
      · rename_i header hheader
        exact .inr ⟨name, rest, header, rfl, hheader, rfl⟩
    · exact .inl ⟨hunnamed, state_unnamed _ _⟩

theorem not_declaresType_of_mem_readNamespace {es : List Entry} {site : Site} :
    .declaresType site ∉ (readNamespace es).emitted := by
  unfold readNamespace
  split
  · simp [resume]
  · split <;> simp [resume]

theorem not_declaresType_of_mem_readUse {es : List Entry} {site : Site} :
    .declaresType site ∉ (readUse es).emitted := by
  rw [readUse]
  split <;> simp [resume]

theorem not_declaresType_of_mem_readFunction {last : Nat} {word : Entry} {es : List Entry}
    {site : Site} : .declaresType site ∉ (readFunction last word es).emitted := by
  rw [readFunction]
  simp only
  split
  · split <;> simp [resume]
  · simp [resume]

/-- A step that declares a type stands at a word and has its name and its header behind it, and it
claims the rest of the declaration. -/
theorem exists_of_declaresType_mem_step {last : Nat} {st : State} {e : Entry} {es : List Entry}
    {site : Site} (h : .declaresType site ∈ (step last st e es).emitted) :
    ∃ name rest header, es = name :: rest ∧ headerEnd? (Entry.kinds rest) = some header ∧
      site = ⟨name.text, e.index, .ofBounds (st.start.getD e.index)
        (lastPlace last (rest.drop header) (groupEnd? (Entry.kinds (rest.drop header))))⟩ ∧
      (step last st e es).claims =
        ((groupEnd? (Entry.kinds (rest.drop header))).map (header + 2 + ·)).getD es.length := by
  rw [step] at h ⊢
  split at h
  case h_6 kind _ =>
    rcases readType_cases last st kind e es with ⟨hnone, -⟩ | ⟨name, rest, header, hes, hend, hstep⟩
    · simp [hnone] at h
    · rw [hstep] at h ⊢
      exact ⟨name, rest, header, hes, hend, by simpa [resume] using h, rfl⟩
  case h_4 => exact absurd h not_declaresType_of_mem_readNamespace
  case h_5 => exact absurd h not_declaresType_of_mem_readUse
  case h_7 => exact absurd h not_declaresType_of_mem_readFunction
  all_goals simp [resume] at h

/-- A declared type has its word and its name, one behind the other, among the significant entries,
and its span reaches to the name at least. -/
theorem exists_of_declaresType_mem {t : TokenTable} {site : Site}
    (h : .declaresType site ∈ discover t) :
    ∃ word name rest, word :: name :: rest <:+ Entry.significant (t.startingAt 0) ∧
      site.shortName = name.text ∧ site.keyword = word.index ∧ name.index ≤ site.span.last := by
  obtain ⟨st, word, es, hsuffix, h⟩ := exists_step_of_mem_sweep h
  obtain ⟨name, rest, header, rfl, -, rfl, -⟩ := exists_of_declaresType_mem_step h
  refine ⟨word, name, rest, hsuffix, rfl, rfl, ?_⟩
  have hall : (name :: rest).Sublist (t.startingAt 0) :=
    ((List.suffix_cons word _).trans hsuffix).sublist.trans List.filter_sublist
  have hsorted := (Entry.pairwise_number 0 (t.tokens.drop 0)).sublist hall
  rw [List.pairwise_cons] at hsorted
  have hle : name.index ≤ lastPlace t.lastIndex (rest.drop header)
      (groupEnd? (Entry.kinds (rest.drop header))) := by
    apply le_lastPlace
    · intro e he
      exact Nat.le_of_lt (hsorted.1 e (List.mem_of_mem_drop he))
    · exact (TokenTable.index_le_lastIndex (hall.subset List.mem_cons_self)).1
  exact Nat.le_trans hle (Nat.le_max_right _ _)

end PhpOutline.Event
