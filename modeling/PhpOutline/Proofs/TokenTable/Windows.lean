import Mathlib.Data.List.Nodup
import PhpOutline.TokenTable.Basic

/-!
# Windows of a token table

Entries are numbered without gaps, so every window of a table is a part of the list of all entries,
and an entry is found again from its place.

## Main statements

* `Entry.index_eq_of_number_eq`: an entry's place is the number of entries before it.
* `TokenTable.startingAt_length`, `TokenTable.window_length`: when the tokens of a table come in
  parts, a window between two of the seams holds the part between them.
* `TokenTable.significant_startingAt`: the significant entries behind an entry.
-/

namespace PhpOutline

namespace Entry

/-! ## Numbering -/

theorem kinds_append (es fs : List Entry) : kinds (es ++ fs) = kinds es ++ kinds fs :=
  List.map_append

theorem drop_number (n i : Nat) (ts : List Token) :
    (number i ts).drop n = number (i + n) (ts.drop n) := by
  induction n generalizing i ts with
  | zero => simp
  | succ n ih =>
    cases ts with
    | nil => simp
    | cons t ts => simp [ih, Nat.add_assoc, Nat.add_comm 1 n]

theorem take_number (n i : Nat) (ts : List Token) :
    (number i ts).take n = number i (ts.take n) := by
  induction n generalizing i ts with
  | zero => simp
  | succ n ih =>
    cases ts with
    | nil => simp
    | cons t ts => simp [ih]

theorem map_toToken_number (i : Nat) (ts : List Token) :
    (number i ts).map Entry.toToken = ts := by
  induction ts generalizing i with
  | nil => rfl
  | cons t ts ih => rw [number_cons, List.map_cons, ih]

/-- An entry's place is the number of entries before it. -/
theorem index_eq_of_number_eq {i : Nat} {ts : List Token} {before after : List Entry} {e : Entry}
    (h : number i ts = before ++ e :: after) : e.index = i + before.length := by
  have hd := congrArg (List.drop before.length) h
  rw [drop_number, List.drop_left] at hd
  cases hts : ts.drop before.length with
  | nil => simp [hts] at hd
  | cons t ts =>
    rw [hts, number_cons, List.cons.injEq] at hd
    rw [← hd.1]

theorem index_lt_of_mem_number {i : Nat} {ts : List Token} {e : Entry} (h : e ∈ number i ts) :
    e.index < i + ts.length := by
  obtain ⟨before, after, h⟩ := List.append_of_mem h
  have hindex := index_eq_of_number_eq h
  have hlen := congrArg List.length h
  simp only [length_number, List.length_append, List.length_cons] at hlen
  omega

theorem toToken_mem_of_mem_number {i : Nat} {ts : List Token} {e : Entry} (h : e ∈ number i ts) :
    e.toToken ∈ ts := by
  induction ts generalizing i with
  | nil => simp at h
  | cons t ts ih =>
    rw [number_cons, List.mem_cons] at h
    rcases h with rfl | h
    · exact List.mem_cons_self
    · exact List.mem_cons_of_mem t (ih h)

/-- The entries in front of the first one whose kind fails a test. -/
theorem takeWhile_number {p : Kind → Bool} {ts : List Token} {x : Token}
    (hts : ∀ y ∈ ts, p y.kind = true) (hx : p x.kind = false) (i : Nat) (rest : List Token) :
    (number i (ts ++ x :: rest)).takeWhile (fun e => p e.kind) = number i ts := by
  have hall : ∀ e ∈ number i ts, p e.kind = true := fun e he =>
    hts _ (toToken_mem_of_mem_number he)
  rw [number_append, List.takeWhile_append_of_pos hall, number_cons,
    List.takeWhile_cons_of_neg (by simp [hx]), List.append_nil]

/-- The entries from the first one on whose kind fails a test. -/
theorem dropWhile_number {p : Kind → Bool} {ts : List Token} {x : Token}
    (hts : ∀ y ∈ ts, p y.kind = true) (hx : p x.kind = false) (i : Nat) (rest : List Token) :
    (number i (ts ++ x :: rest)).dropWhile (fun e => p e.kind) =
      number (i + ts.length) (x :: rest) := by
  have hall : ∀ e ∈ number i ts, p e.kind = true := fun e he =>
    hts _ (toToken_mem_of_mem_number he)
  rw [number_append, List.dropWhile_append_of_pos hall, number_cons,
    List.dropWhile_cons_of_neg (by simp [hx])]

/-- Places increase along a sequence of entries. -/
theorem pairwise_number (i : Nat) (ts : List Token) :
    (number i ts).Pairwise fun a b => a.index < b.index := by
  induction ts generalizing i with
  | nil => simp
  | cons t ts ih =>
    rw [number_cons, List.pairwise_cons]
    refine ⟨?_, ih (i + 1)⟩
    intro e he
    obtain ⟨before, after, h⟩ := List.append_of_mem he
    have := index_eq_of_number_eq h
    show i < e.index
    omega

/-! ## Significant entries -/

theorem isSignificant_eq (e : Entry) : e.isSignificant = !e.kind.isInsignificant := rfl

@[simp] theorem significant_nil : significant [] = [] := rfl

@[simp] theorem significant_append (es fs : List Entry) :
    significant (es ++ fs) = significant es ++ significant fs := by
  simp [significant]

theorem significant_cons_of_significant {e : Entry} (h : e.kind.isInsignificant = false)
    (es : List Entry) : significant (e :: es) = e :: significant es := by
  simp [significant, isSignificant_eq, h]

theorem kinds_significant (es : List Entry) :
    kinds (significant es) = (kinds es).filter fun k => !k.isInsignificant := by
  rw [kinds, kinds, significant, List.filter_map]
  rfl

theorem significant_cons_of_insignificant {e : Entry} (h : e.kind.isInsignificant = true)
    (es : List Entry) : significant (e :: es) = significant es := by
  simp [significant, isSignificant_eq, h]

/-- Entries in order of place with the same place are the same. -/
theorem eq_of_index_eq {es : List Entry} (hes : es.Pairwise fun a b => a.index < b.index)
    {a b : Entry} (ha : a ∈ es) (hb : b ∈ es) (h : a.index = b.index) : a = b := by
  have hnodup : (es.map Entry.index).Nodup := by
    rw [List.Nodup, List.pairwise_map]
    exact hes.imp Nat.ne_of_lt
  exact List.inj_on_of_nodup_map hnodup ha hb h

/-- Where the significant entries begin with `e`, only insignificant ones stand before it. -/
theorem significant_eq_cons {es rest : List Entry} {e : Entry} (h : significant es = e :: rest) :
    ∃ gap after, es = gap ++ e :: after ∧ (∀ x ∈ gap, x.kind.isInsignificant = true) ∧
      e.kind.isInsignificant = false ∧ significant after = rest := by
  obtain ⟨gap, after, hes, hgap, he, hrest⟩ := List.filter_eq_cons_iff.1 h
  refine ⟨gap, after, hes, ?_, by simpa [isSignificant_eq] using he, hrest⟩
  intro x hx
  simpa [isSignificant_eq] using hgap x hx

theorem skipTrivia_suffix (es : List Entry) : skipTrivia es <:+ es := List.dropWhile_suffix _

/-- Insignificant entries are skipped up to the first significant one. -/
theorem skipTrivia_append {gap es : List Entry} {e : Entry}
    (hgap : ∀ x ∈ gap, x.kind.isInsignificant = true) (he : e.kind.isInsignificant = false) :
    skipTrivia (gap ++ e :: es) = e :: es := by
  induction gap with
  | nil => simp [skipTrivia, he]
  | cons x gap ih =>
    have hx := hgap x (by simp)
    have := ih fun y hy => hgap y (by simp [hy])
    simpa [skipTrivia, hx] using this

end Entry

namespace TokenTable

/-! ## Windows as parts of the table -/

theorem window_eq_take_drop (t : TokenTable) (i j : Nat) :
    t.window i j = ((t.startingAt 0).drop i).take (j - i) := by
  simp [window, startingAt, Entry.drop_number, Entry.take_number]

theorem startingAt_eq_drop (t : TokenTable) (i : Nat) :
    t.startingAt i = (t.startingAt 0).drop i := by
  simp [startingAt, Entry.drop_number]

theorem startingAt_length {t : TokenTable} {before after : List Token}
    (h : t.tokens = before ++ after) :
    t.startingAt before.length = Entry.number before.length after := by
  simp [startingAt, h]

theorem window_length {t : TokenTable} {before part after : List Token}
    (h : t.tokens = before ++ part ++ after) :
    t.window before.length (before.length + part.length) = Entry.number before.length part := by
  simp [window, h]

theorem index_le_lastIndex {t : TokenTable} {e : Entry} (h : e ∈ t.startingAt 0) :
    e.index ≤ t.lastIndex ∧ t.lastIndex < t.size := by
  have hlt := Entry.index_lt_of_mem_number h
  simp only [List.drop_zero] at hlt
  simp only [lastIndex, size]
  omega

/-! ## Entries behind an entry -/

/-- The significant entries behind an entry. -/
theorem significant_startingAt {t : TokenTable} {e : Entry} {rest : List Entry}
    (h : e :: rest <:+ Entry.significant (t.startingAt 0)) :
    Entry.significant (t.startingAt (e.index + 1)) = rest := by
  obtain ⟨front, hfront⟩ := h
  obtain ⟨before, tail, hall, -, htail⟩ := List.filter_eq_append_iff.1 hfront.symm
  obtain ⟨gap, after, rfl, -, -, hafter⟩ := Entry.significant_eq_cons htail
  have hsplit : t.startingAt 0 = (before ++ gap) ++ e :: after := by
    rw [hall, List.append_assoc]
  have hindex : e.index = (before ++ gap).length := by
    have := @Entry.index_eq_of_number_eq 0 (t.tokens.drop 0) _ _ _ hsplit
    omega
  rw [startingAt_eq_drop, hsplit, hindex, List.drop_length_add_append, List.drop_one,
    List.tail_cons, hafter]

end TokenTable

end PhpOutline
