import PhpOutline.Discovery.Event
import PhpOutline.Proofs.Sweep

/-!
# Discovery in like files

The discovery reads the kinds and the texts of significant tokens. Their places it only copies into
what it finds. So in two files with the same significant tokens it finds the same, at places that
are related as those of the tokens are.

## Main definitions

* `Entry.Alike`: entries with the same kind and text, at related places.
* `Site.Alike`, `Event.Alike`: the same is found, at related places.
* `Event.Places`: what a relation between places has to satisfy.

## Main statements

* `Event.step_alike`: in front of like entries, a step finds the same.
* `Event.discover_alike`: in like files the same is found.
-/

namespace PhpOutline

/-- Entries with the same kind and text, at places that `P` relates. -/
structure Entry.Alike (P : Nat → Nat → Prop) (e e' : Entry) : Prop where
  kind : e.kind = e'.kind
  text : e.text = e'.text
  index : P e.index e'.index

/-- Declarations of the same name, at places that `P` relates and with ends that `L` relates. -/
structure Site.Alike (P L : Nat → Nat → Prop) (s s' : Site) : Prop where
  shortName : s.shortName = s'.shortName
  keyword : P s.keyword s'.keyword
  first : P s.span.first s'.span.first
  last : L s.span.last s'.span.last

namespace Entry

variable {P : Nat → Nat → Prop} {es es' : List Entry}

theorem kinds_eq_of_alike (h : List.Forall₂ (Alike P) es es') : kinds es = kinds es' := by
  induction h with
  | nil => rfl
  | cons he _ ih =>
    simp only [kinds, List.map_cons] at ih ⊢
    rw [he.kind, ih]

end Entry

namespace Event

/-- The same event, at places that `P` relates and with ends that `L` relates. -/
inductive Alike (P L : Nat → Nat → Prop) : Event → Event → Prop where
  | entersNamespace (name : Option Text) : Alike P L (.entersNamespace name) (.entersNamespace name)
  | imports (i : Import) : Alike P L (.imports i) (.imports i)
  | declaresType {s s' : Site} (h : s.Alike P L s') :
    Alike P L (.declaresType s) (.declaresType s')
  | declaresFunction {s s' : Site} (h : s.Alike P L s') :
    Alike P L (.declaresFunction s) (.declaresFunction s')

/-- States that differ in places only. -/
structure State.Alike (P : Nat → Nat → Prop) (st st' : State) : Prop where
  afterNew : st.afterNew = st'.afterNew
  start : Option.Rel P st.start st'.start

/-- The relation `P` of places and the relation `L` of ends fit two files with the given last
places. -/
structure Places (P L : Nat → Nat → Prop) (last last' : Nat) : Prop where
  ends : ∀ {i i'}, P i i' → L i i'
  bounds : ∀ {i i' j j'}, P i i' → L j j' → L (max i j) (max i' j')
  last : L last last'

variable {P L : Nat → Nat → Prop} {last last' : Nat} {st st' : State} {e e' : Entry}
  {es es' : List Entry}

theorem alike_resume {events events' : List Event} (h : List.Forall₂ (Alike P L) events events')
    (n : Nat) : (resume events n).Alike (State.Alike P) (Alike P L) (resume events' n) :=
  ⟨h, ⟨rfl, .none⟩, rfl⟩

theorem alike_resume_nil (n : Nat) :
    (resume [] n).Alike (State.Alike P) (Alike P L) (resume [] n) :=
  alike_resume .nil n

theorem State.Alike.getD (h : st.Alike P st') {i i' : Nat} (hi : P i i') :
    P (st.start.getD i) (st'.start.getD i') := by
  obtain ⟨-, hstart⟩ := h
  revert hstart
  cases st.start <;> cases st'.start <;> rintro (_ | _) <;> assumption

theorem alike_lastPlace (h : Places P L last last') (hes : List.Forall₂ (Entry.Alike P) es es')
    (n : Option Nat) : L (lastPlace last es n) (lastPlace last' es' n) := by
  cases n with
  | none => exact h.last
  | some n =>
    simp only [lastPlace, Option.bind_some]
    have hlength := hes.length_eq
    by_cases hn : n < es.length
    · have hn' : n < es'.length := hlength ▸ hn
      rw [List.getElem?_eq_getElem hn, List.getElem?_eq_getElem hn']
      exact h.ends (hes.get hn hn').index
    · rw [List.getElem?_eq_none (Nat.le_of_not_lt hn),
        List.getElem?_eq_none (hlength ▸ Nat.le_of_not_lt hn)]
      exact h.last

/-! ## What a step finds -/

theorem readNamespace_alike (hes : List.Forall₂ (Entry.Alike P) es es') :
    (readNamespace es).Alike (State.Alike P) (Alike P L) (readNamespace es') := by
  cases hes with
  | nil => exact alike_resume_nil 0
  | @cons e e' es es' he hes =>
    simp only [readNamespace, he.kind, he.text]
    split
    · exact alike_resume (.cons (.entersNamespace _) .nil) 1
    · exact alike_resume (.cons (.entersNamespace _) .nil) 0
    · exact alike_resume (.cons (.entersNamespace _) .nil) 0
    · exact alike_resume_nil 0

/-- A token as a use statement reads it. -/
theorem readToken_alike {t t' : Token} (hkind : t.kind = t'.kind) (htext : t.text = t'.text)
    (d : Import.Draft) : d.readToken t = d.readToken t' := by
  simp only [Import.Draft.readToken, hkind, htext]

theorem ofStatement_alike (hes : List.Forall₂ (Entry.Alike P) es es') (d : Import.Draft) :
    Import.ofStatement d (es.map Entry.toToken) = Import.ofStatement d (es'.map Entry.toToken) := by
  induction hes generalizing d with
  | nil => rfl
  | @cons e e' es es' he _ ih =>
    simp only [List.map_cons, Import.ofStatement, he.kind]
    rw [ih, ih, readToken_alike he.kind he.text]

theorem statementSize_alike (hes : List.Forall₂ (Entry.Alike P) es es') :
    statementSize es = statementSize es' := by
  rw [statementSize, statementSize, Entry.kinds_eq_of_alike hes, hes.length_eq]

theorem forall₂_imports (is : List Import) :
    List.Forall₂ (Alike P L) (is.map imports) (is.map imports) := by
  induction is with
  | nil => exact .nil
  | cons i is ih => exact .cons (.imports i) ih

theorem readUse_alike (hes : List.Forall₂ (Entry.Alike P) es es') :
    (readUse es).Alike (State.Alike P) (Alike P L) (readUse es') := by
  have htaken := List.forall₂_take (statementSize es) hes
  rw [readUse, readUse, ← Entry.kinds_eq_of_alike hes, ← statementSize_alike hes]
  simp only [← ofStatement_alike htaken]
  split
  · exact alike_resume_nil _
  · exact alike_resume_nil _
  · exact alike_resume_nil _
  · exact alike_resume (forall₂_imports _) _

theorem unnamed_alike (hes : List.Forall₂ (Entry.Alike P) es es') (kind : TypeKind) :
    (readType.unnamed kind es).Alike (State.Alike P) (Alike P L) (readType.unnamed kind es') := by
  rw [readType.unnamed, readType.unnamed, ← Entry.kinds_eq_of_alike hes, ← hes.length_eq]
  split
  · exact alike_resume_nil _
  · exact alike_resume_nil _

theorem readType_alike (h : Places P L last last') (hst : st.Alike P st') (he : e.Alike P e')
    (hes : List.Forall₂ (Entry.Alike P) es es') (kind : TypeKind) :
    (readType last st kind e es).Alike (State.Alike P) (Alike P L)
      (readType last' st' kind e' es') := by
  have hunnamed := @unnamed_alike P L es es' hes kind
  cases hes with
  | nil => exact hunnamed
  | @cons name name' rest rest' hname hrest =>
    simp only [readType]
    rw [← hname.kind, ← hst.afterNew, ← Entry.kinds_eq_of_alike hrest]
    split
    · split
      · exact alike_resume_nil 1
      · rename_i header _
        have hbody := List.forall₂_drop header hrest
        simp only [List.length_cons, ← Entry.kinds_eq_of_alike hbody, ← hrest.length_eq]
        refine alike_resume (.cons (.declaresType ⟨hname.text, he.index, hst.getD he.index, ?_⟩)
          .nil) _
        exact h.bounds (hst.getD he.index) (alike_lastPlace h hbody _)
    · exact hunnamed

theorem ampersands_alike (hes : List.Forall₂ (Entry.Alike P) es es') :
    ampersands es = ampersands es' := by
  cases hes with
  | nil => rfl
  | cons he _ => simp only [ampersands, he.kind]

theorem readFunction_alike (h : Places P L last last') (he : e.Alike P e')
    (hes : List.Forall₂ (Entry.Alike P) es es') :
    (readFunction last e es).Alike (State.Alike P) (Alike P L) (readFunction last' e' es') := by
  have hdrop := List.forall₂_drop (ampersands es) hes
  simp only [readFunction, ← ampersands_alike hes, ← hes.length_eq]
  revert hdrop
  generalize es.drop (ampersands es) = fs
  generalize es'.drop (ampersands es) = fs'
  rintro (_ | @⟨name, name', _, _, hname, _ | @⟨list, list', rest, rest', hlist, hrest⟩⟩)
  · exact alike_resume_nil 0
  · exact alike_resume_nil 0
  · have hbody : List.Forall₂ (Entry.Alike P) (list :: rest) (list' :: rest') := .cons hlist hrest
    simp only [← hname.kind, ← hlist.kind, ← Entry.kinds_eq_of_alike hbody]
    split
    · refine alike_resume (.cons (.declaresFunction ⟨hname.text, he.index, he.index, ?_⟩) .nil) _
      exact h.bounds he.index (alike_lastPlace h hbody _)
    · exact alike_resume_nil 0

/-- In front of like entries, a step finds the same and claims equally many of them. -/
theorem step_alike (h : Places P L last last') (hst : st.Alike P st') (he : e.Alike P e')
    (hes : List.Forall₂ (Entry.Alike P) es es') :
    (step last st e es).Alike (State.Alike P) (Alike P L) (step last' st' e' es') := by
  rw [step, step, ← he.kind]
  split
  case h_4 => exact readNamespace_alike hes
  case h_5 => exact readUse_alike hes
  case h_6 => exact readType_alike h hst he hes _
  case h_7 => exact readFunction_alike h he hes
  case h_8 => exact ⟨.nil, ⟨rfl, .none⟩, rfl⟩
  case h_9 => exact alike_resume_nil 0
  all_goals exact ⟨.nil, ⟨rfl, .some (hst.getD he.index)⟩, rfl⟩

/-- In files with like significant entries the same is found. -/
theorem discover_alike {t u : TokenTable} (h : Places P L t.lastIndex u.lastIndex)
    (hes : List.Forall₂ (Entry.Alike P) (Entry.significant (t.startingAt 0))
      (Entry.significant (u.startingAt 0))) :
    List.Forall₂ (Alike P L) (discover t) (discover u) := by
  have hstart : State.Alike P {} {} := ⟨rfl, .none⟩
  refine sweep_forall₂ ?_ hstart 0 hes
  intro st st' e e' es es' hst he hes
  exact step_alike h hst he hes

end Event

end PhpOutline
