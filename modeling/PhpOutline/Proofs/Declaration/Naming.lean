import PhpOutline.Declaration.Callable
import PhpOutline.Discovery.Event
import PhpOutline.Proofs.TokenTable.Extents

/-!
# Where the name of a function is read

A function or method is read from all the tokens of its span. The first word `function` outside
attributes is sought, and the name stands behind it, past an ampersand.

## Main definitions

* `Entry.Plain`: an entry that does not matter to the search for the word.
* `Callable.Skips`: entries that the search passes over.

## Main statements

* `Callable.name_read`: the name stands behind the word.
* `Callable.naming_window_of_lt`: it is found in every window that reaches behind it.
* `Callable.naming_window`: it is the one that follows among the significant entries.
-/

namespace PhpOutline

/-- At an entry the search for the word `function` neither ends nor passes over what follows. -/
def Entry.Plain (e : Entry) : Prop := e.kind ≠ .keyword .function ∧ e.kind ≠ .attributeOpener

instance (e : Entry) : Decidable e.Plain := inferInstanceAs (Decidable (_ ∧ _))

namespace Callable

/-! ## In front of the word -/

/-- The search for the word `function` passes over some entries, whatever stands behind them. -/
def Skips (front : List Entry) : Prop :=
  ∀ l, ∃ l', ∀ rest, settle leadInStep l 0 (front ++ rest) = settle leadInStep l' 0 rest

theorem Skips.nil : Skips [] := fun l => ⟨l, fun _ => rfl⟩

theorem Skips.append {front part : List Entry} (h : Skips front) (hpart : Skips part) :
    Skips (front ++ part) := by
  intro l
  obtain ⟨m, hm⟩ := h l
  obtain ⟨n, hn⟩ := hpart m
  refine ⟨n, ?_⟩
  intro rest
  rw [List.append_assoc, hm, hn]

theorem Skips.singleton {e : Entry} (h : e.Plain) : Skips [e] := by
  obtain ⟨hword, hattribute⟩ := h
  intro l
  refine ⟨{ l with modifiers := l.modifiers.apply e.kind }, ?_⟩
  intro rest
  have hstep : leadInStep l e rest = ({ l with modifiers := l.modifiers.apply e.kind }, 0) := by
    rw [leadInStep]
    split
    · contradiction
    · contradiction
    · rfl
  rw [List.singleton_append, settle_cons, hstep]

theorem Skips.of_forall {es : List Entry} (h : ∀ e ∈ es, e.Plain) : Skips es := by
  induction es with
  | nil => exact .nil
  | cons e es ih =>
    exact (Skips.singleton (h e List.mem_cons_self)).append
      (ih fun a ha => h a (List.mem_cons_of_mem e ha))

/-- Behind entries that are passed over, the word is found. -/
theorem Skips.rest_leadIn {front rest : List Entry} {word : Entry} (h : Skips front)
    (hword : word.kind = .keyword .function) : (leadIn (front ++ word :: rest)).rest = rest := by
  obtain ⟨l, hl⟩ := h {}
  rw [leadIn, hl, settle_cons]
  simp only [leadInStep, hword]
  rw [settle_eq_drop, List.drop_length, settle_nil]

/-- The name stands behind the first word `function` of a declaration. -/
theorem name_read {t : TokenTable} {context : NameContext} {scope : Option ClassScope}
    {inInterface : Bool} {span : Span} {front rest behind : List Entry} {word name : Entry}
    (hwithin : t.within span = front ++ word :: rest) (hfront : Skips front)
    (hword : word.kind = .keyword .function) (hname : (naming rest).2 = name :: behind) :
    (read t context scope inInterface span).name = name.text := by
  simp only [read, hwithin, hfront.rest_leadIn hword, hname, List.head?_cons, Option.map_some,
    Option.getD_some]

/-! ## Behind the word -/

section

variable {t : TokenTable} {i j k : Nat} {word name : Entry} {es rest : List Entry}

/-- The name is the same one in every window that reaches behind it. -/
theorem naming_window_of_lt (h : (naming (t.window i j)).2 = name :: rest) (hk : name.index < k) :
    (naming (t.window i k)).2 = name :: t.window (name.index + 1) k := by
  rw [naming] at h
  split at h
  case h_2 => simp at h
  case h_1 e behind hskip =>
    split at h
    case isTrue he =>
      have hsuffix : e :: behind <:+ t.window i j := hskip ▸ Entry.skipTrivia_suffix _
      change Entry.skipTrivia behind = name :: rest at h
      rw [TokenTable.eq_window_of_suffix hsuffix] at h
      have hlt : e.index < name.index := by
        have hmem : name ∈ t.window (e.index + 1) j :=
          (Entry.skipTrivia_suffix _).subset (h ▸ List.mem_cons_self)
        exact (TokenTable.bounds_of_mem_window hmem).1
      have hskip' := TokenTable.skipTrivia_window_of_lt hskip (Nat.lt_trans hlt hk)
      have hname := TokenTable.skipTrivia_window_of_lt h hk
      simp only [naming, hskip', he, if_true, hname]
    case isFalse he =>
      obtain ⟨rfl, rfl⟩ := List.cons.inj h
      have hskip' := TokenTable.skipTrivia_window_of_lt hskip hk
      simp only [naming, hskip', he, if_false]

/-- Behind a word, the name that follows among the significant entries is read. -/
theorem naming_window (h : word :: es <:+ Entry.significant (t.startingAt 0))
    (hes : es.drop (Event.ampersands es) = name :: rest) (hname : name.kind = .name)
    (hj : name.index < j) :
    (naming (t.window (word.index + 1) j)).2 = name :: t.window (name.index + 1) j := by
  cases es with
  | nil => simp at hes
  | cons e es =>
    rw [Event.ampersands] at hes
    by_cases he : e.kind = .ampersand
    · rw [if_pos he, List.drop_one, List.tail_cons] at hes
      rw [hes] at h
      have hbehind := (List.suffix_cons word _).trans h
      have hlt : e.index < name.index := by
        have hsorted : (e :: name :: rest).Pairwise fun a b => a.index < b.index :=
          ((Entry.pairwise_number _ _).filter _).sublist hbehind.sublist
        exact (List.pairwise_cons.1 hsorted).1 name List.mem_cons_self
      have hskip := TokenTable.skipTrivia_window h (Nat.lt_trans hlt hj)
      have hskip' := TokenTable.skipTrivia_window hbehind hj
      simp only [naming, hskip, he, if_true, hskip']
    · rw [if_neg he, List.drop_zero, List.cons.injEq] at hes
      obtain ⟨rfl, rfl⟩ := hes
      have hskip := TokenTable.skipTrivia_window h hj
      simp only [naming, hskip, he, if_false]

end

end Callable

end PhpOutline
