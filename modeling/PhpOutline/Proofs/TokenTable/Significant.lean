import PhpOutline.Proofs.Lookahead

/-!
# Searches among significant entries

What is looked for in a table is often looked for among its significant entries only. A search for
something significant, such as a bracket or what closes it, comes to the same entry either way.

## Main definitions

* `Entry.closer?`: the entry that closes the bracket at the head of some entries.

## Main statements

* `Entry.find?_significant`: the first significant entry with a property is the first one of all.
* `Entry.closer?_significant`: a bracket is closed by the same entry when only significant ones are
  counted.
* `TokenTable.matchingClose?_eq`: the place of the entry that closes a bracket of a table.
-/

namespace PhpOutline

namespace Entry

theorem significant_skipTrivia (es : List Entry) :
    significant (skipTrivia es) = significant es := by
  induction es with
  | nil => rfl
  | cons e es ih =>
    by_cases he : e.kind.isInsignificant = true
    · have hskip : skipTrivia (e :: es) = skipTrivia es := List.dropWhile_cons_of_pos he
      rw [hskip, ih, significant_cons_of_insignificant he]
    · have hskip : skipTrivia (e :: es) = e :: es := List.dropWhile_cons_of_neg he
      rw [hskip]

/-- What is significant is found first among all entries or among the significant ones. -/
theorem find?_significant {p : Entry → Bool} (hp : ∀ e, p e = true → e.isSignificant = true)
    (es : List Entry) : (significant es).find? p = es.find? p := by
  rw [significant, List.find?_filter]
  congr 1
  funext e
  by_cases h : p e = true
  · simp [h, hp e h]
  · simp [h]

/-- Brackets are all closed at the same entry when only significant entries are counted. -/
theorem closeOffset?_significant (b : Bracket) (depth : Nat) (es : List Entry) :
    (closeOffset? b depth (kinds (significant es))).bind (fun n => (significant es)[n]?) =
      (closeOffset? b depth (kinds es)).bind fun n => es[n]? := by
  have hbehind : ∀ (d : Nat) (e : Entry) (es : List Entry),
      ((closeOffset? b d (kinds es)).map (· + 1)).bind (fun n => (e :: es)[n]?) =
        (closeOffset? b d (kinds es)).bind fun n => es[n]? := by
    intro d e es
    rw [Option.bind_map]
    rfl
  induction es generalizing depth with
  | nil => rfl
  | cons e es ih =>
    have hkinds : ∀ es, kinds (e :: es) = e.kind :: kinds es := fun _ => rfl
    by_cases he : e.kind.isInsignificant = true
    · obtain ⟨hopens, hcloses⟩ := Kind.no_bracket_of_isInsignificant he
      rw [significant_cons_of_insignificant he, ih, hkinds, closeOffset?, if_neg (by simp [hopens]),
        if_neg (by simp [hcloses]), hbehind]
    · rw [significant_cons_of_significant (by simpa using he), hkinds, hkinds, closeOffset?,
        closeOffset?]
      split
      · rw [hbehind, hbehind, ih]
      · split
        · split
          · rfl
          · rw [hbehind, hbehind, ih]
        · rw [hbehind, hbehind, ih]

/-- The entry that closes the bracket at the head of some entries. -/
def closer? (es : List Entry) : Option Entry := (groupEnd? (kinds es)).bind fun n => es[n]?

/-- A bracket is closed by the same entry when only significant ones are counted. -/
theorem closer?_significant {e : Entry} (he : e.kind.isInsignificant = false) (es : List Entry) :
    closer? (e :: significant es) = closer? (e :: es) := by
  have hclose : ∀ es, closer? (e :: es) = e.kind.opens.bind fun b =>
      (closeOffset? b 0 (kinds (e :: es))).bind fun n => (e :: es)[n]? := by
    intro es
    rw [closer?, kinds, List.map_cons, groupEnd?, Option.bind_assoc]
  rw [hclose, hclose]
  congr 1
  funext b
  have hall := closeOffset?_significant b 0 (e :: es)
  rwa [significant_cons_of_significant he] at hall

end Entry

namespace TokenTable

variable {t : TokenTable}

/-- The place that closes a bracket of a table is that of the entry that closes it. -/
theorem matchingClose?_eq (t : TokenTable) (i : Nat) :
    t.matchingClose? i = (Entry.closer? (t.startingAt i)).map Entry.index := by
  rw [matchingClose?, Entry.closer?]
  cases hend : groupEnd? (Entry.kinds (t.startingAt i)) with
  | none => rfl
  | some n =>
    have hn : n < (t.startingAt i).length := by
      have := groupEnd?_lt hend
      rwa [Entry.kinds, List.length_map] at this
    have hsplit : t.startingAt i =
        (t.startingAt i).take n ++ (t.startingAt i)[n] :: (t.startingAt i).drop (n + 1) := by
      rw [← List.drop_eq_getElem_cons hn, List.take_append_drop]
    have hindex : (t.startingAt i)[n].index = i + ((t.startingAt i).take n).length :=
      Entry.index_eq_of_number_eq hsplit
    rw [List.length_take, Nat.min_eq_left (Nat.le_of_lt hn)] at hindex
    simp [List.getElem?_eq_getElem hn, hindex]

theorem matchingCloseOrLast_eq (t : TokenTable) (i : Nat) :
    t.matchingCloseOrLast i =
      ((Entry.closer? (t.startingAt i)).map Entry.index).getD t.lastIndex := by
  rw [matchingCloseOrLast, matchingClose?_eq]

theorem le_matchingCloseOrLast {e : Entry} (h : e ∈ t.startingAt 0) :
    e.index ≤ t.matchingCloseOrLast e.index := by
  rw [matchingCloseOrLast, matchingClose?]
  cases groupEnd? (Entry.kinds (t.startingAt e.index)) with
  | none => exact (index_le_lastIndex h).1
  | some n => exact Nat.le_add_right _ _

theorem startingAt_index {e : Entry} (h : e ∈ t.startingAt 0) :
    t.startingAt e.index = e :: t.startingAt (e.index + 1) := by
  rw [startingAt_eq_drop, startingAt_eq_drop t (e.index + 1)]
  obtain ⟨hlt, hget⟩ := List.getElem?_eq_some_iff.1 (getElem?_index h)
  rw [List.drop_eq_getElem_cons hlt, hget]

end TokenTable

end PhpOutline
