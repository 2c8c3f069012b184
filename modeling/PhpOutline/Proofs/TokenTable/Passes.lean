import PhpOutline.Proofs.Lookahead
import PhpOutline.Proofs.TokenTable.Separators

/-!
# Passes over windows

A pass over a window goes from token to token. What stands behind an entry is the window from the
next place on, and behind what a step claims it is the window from there on. A bracket group that is
not closed in the window takes all that is left of it.

## Main statements

* `TokenTable.window_of_get?`: the entry at the beginning of a window.
* `TokenTable.groupEnd?_window`: a bracket is closed in a window where it is closed in the table.
* `TokenTable.filter_nextSignificant?`: so is the next significant place found.
* `TokenTable.settle_window`, `TokenTable.sweep_window`: one step of a pass.
* `TokenTable.window_group`: what stands behind a bracket group.
-/

namespace PhpOutline

variable {t : TokenTable} {i j stop : Nat} {x : Token}

namespace TokenTable

/-! ## Token by token -/

theorem exists_token (h : i < t.size) : ∃ x, t.get? i = some x := ⟨_, List.getElem?_eq_getElem h⟩

theorem window_of_get? (hx : t.get? i = some x) (hi : i < stop) :
    t.window i stop = ⟨x, i⟩ :: t.window (i + 1) stop :=
  window_index (mem_startingAt_of_get? hx) hi

theorem window_of_le (h : stop ≤ i) : t.window i stop = [] := by
  rw [window, Nat.sub_eq_zero_of_le h, List.take_zero]
  rfl

theorem window_of_get?_eq_none (h : t.get? i = none) (stop : Nat) : t.window i stop = [] := by
  rw [window, List.drop_eq_nil_of_le (List.getElem?_eq_none_iff.1 h), List.take_nil]
  rfl

theorem startingAt_of_le (h : t.size ≤ i) : t.startingAt i = [] := by
  rw [startingAt, List.drop_eq_nil_of_le h]
  rfl

theorem drop_startingAt (t : TokenTable) (i k : Nat) :
    (t.startingAt i).drop k = t.startingAt (i + k) := by
  rw [startingAt, startingAt, Entry.drop_number, List.drop_drop]

/-- A window that reaches to the end of the table or behind it. -/
theorem window_of_size_le (h : t.size ≤ stop) (i : Nat) : t.window i stop = t.startingAt i := by
  have hsplit := window_append_drop t i stop
  rwa [drop_startingAt, startingAt_of_le (by omega), List.append_nil] at hsplit

theorem window_min_size (t : TokenTable) (i stop : Nat) :
    t.window i (min stop t.size) = t.window i stop := by
  rcases Nat.le_total stop t.size with h | h
  · rw [Nat.min_eq_left h]
  · rw [Nat.min_eq_right h, window_of_size_le (Nat.le_refl _), window_of_size_le h]

theorem window_succ (hx : t.get? i = some x) (hj : j ≤ i) :
    t.window j (i + 1) = t.window j i ++ [⟨x, i⟩] := by
  rw [← window_append t hj (Nat.le_succ i), window_of_get? hx (Nat.lt_succ_self i),
    window_of_le (Nat.le_refl (i + 1))]

theorem take_window (h : j ≤ stop) : (t.window i stop).take (j - i) = t.window i j := by
  rw [window_eq_take_drop, window_eq_take_drop, List.take_take, Nat.min_eq_left (by omega)]

/-- What a window is dropped to begins at one of its entries. -/
theorem dropWhile_window (p : Entry → Bool) (i stop : Nat) :
    (t.window i stop).dropWhile p =
      (((t.window i stop).find? fun e => !p e).map fun e => t.window e.index stop).getD [] := by
  rw [List.find?_not_eq_head?_dropWhile]
  cases hdrop : (t.window i stop).dropWhile p with
  | nil => rfl
  | cons e es => exact (window_eq_of_suffix (hdrop ▸ List.dropWhile_suffix p)).symm

/-- In front of the first token of a kind nothing is left of a window. -/
theorem dropWhile_findKind? (t : TokenTable) (i last : Nat) (k : Kind) :
    (t.window i (last + 1)).dropWhile (fun e => e.kind != k) =
      ((t.findKind? i last k).map fun j => t.window j (last + 1)).getD [] := by
  rw [dropWhile_window, findKind?, Option.map_map]
  simp only [bne, Bool.not_not, Function.comp_def]

/-- A bracket is closed in a window where it is closed in the table, when that is before the end of
the window. -/
theorem groupEnd?_window (hi : i < stop) :
    groupEnd? (Entry.kinds (t.window i stop)) =
      ((t.matchingClose? i).filter (· < stop)).map (· - i) := by
  have hsplit := congrArg Entry.kinds (window_append_drop t i stop)
  rw [Entry.kinds_append] at hsplit
  cases hgroup : groupEnd? (Entry.kinds (t.window i stop)) with
  | some n =>
    have hn := groupEnd?_lt hgroup
    have hlength := length_window_le t i stop
    have halone : groupEnd? (Entry.kinds (t.window i stop) ++ []) = some n := by
      rwa [List.append_nil]
    have hwhole := groupEnd?_append_of_lt halone hn
      (Entry.kinds ((t.startingAt i).drop (stop - i)))
    rw [Entry.kinds, List.length_map] at hn
    rw [matchingClose?, ← hsplit, hwhole, Option.map_some, Option.filter_some,
      if_pos (by simp; omega), Option.map_some, Nat.add_sub_cancel_left]
  | none =>
    cases hclose : t.matchingClose? i with
    | none => rfl
    | some c =>
      rw [Option.filter_some, if_neg, Option.map_none]
      intro hc
      rw [matchingClose?, ← hsplit] at hclose
      obtain ⟨n, hn, rfl⟩ := Option.map_eq_some_iff.1 hclose
      have hlt := groupEnd?_lt hn
      have hlength : n < (Entry.kinds (t.window i stop)).length := by
        rw [hsplit, Entry.kinds, List.length_map, startingAt, Entry.length_number,
          List.length_drop] at hlt
        rw [Entry.kinds, List.length_map, window, Entry.length_number, List.length_take,
          List.length_drop]
        simp only [decide_eq_true_eq] at hc
        omega
      have hwindow := groupEnd?_append_of_lt hn hlength []
      rw [List.append_nil, hgroup] at hwindow
      cases hwindow

theorem le_of_mem_startingAt {e : Entry} (h : e ∈ t.startingAt i) : i ≤ e.index := by
  obtain ⟨front, after, hfront⟩ := List.append_of_mem h
  have hindex : e.index = i + front.length := Entry.index_eq_of_number_eq hfront
  omega

/-- The significant place that follows, where it stands in a window. -/
theorem filter_nextSignificant? (t : TokenTable) (i stop : Nat) :
    (t.nextSignificant? i).filter (· < stop) =
      (Entry.skipTrivia (t.window i stop)).head?.map Entry.index := by
  simp only [nextSignificant?, Entry.skipTrivia, ← List.find?_not_eq_head?_dropWhile]
  cases hfind : (t.startingAt i).find? fun e => !e.kind.isInsignificant with
  | none =>
    rw [← window_append_drop t i stop, List.find?_append, Option.or_eq_none_iff] at hfind
    rw [hfind.1]
    rfl
  | some e =>
    rw [Option.map_some, Option.filter_some]
    by_cases he : e.index < stop
    · rw [if_pos (decide_eq_true he), find?_window hfind he]
      rfl
    · rw [if_neg (by simpa using he)]
      cases hwindow : (t.window i stop).find? fun e => !e.kind.isInsignificant with
      | none => rfl
      | some a =>
        have hlt := (bounds_of_mem_window (List.mem_of_find?_eq_some hwindow)).2
        rw [← window_append_drop t i stop, List.find?_append, hwindow] at hfind
        cases hfind
        exact absurd hlt he

/-- The significant place before another one, where it stands in a window. -/
theorem filter_prevSignificant? (t : TokenTable) (first i : Nat) :
    (t.prevSignificant? i).filter (first ≤ ·) =
      (Entry.significant (t.window first i)).getLast?.map Entry.index := by
  rcases Nat.le_total first i with h | h
  · rw [prevSignificant?, ← window_append t (Nat.zero_le first) h, Entry.significant_append,
      List.getLast?_append]
    cases hlast : (Entry.significant (t.window first i)).getLast? with
    | some b =>
      have hmem := (List.mem_filter.1 (List.mem_of_getLast? hlast)).1
      rw [Option.some_or, Option.map_some, Option.filter_some,
        if_pos (decide_eq_true (bounds_of_mem_window hmem).1)]
    | none =>
      rw [Option.none_or, Option.map_none, Option.filter_eq_none_iff]
      intro j hj
      obtain ⟨b, hb, rfl⟩ := Option.map_eq_some_iff.1 hj
      have hmem := (List.mem_filter.1 (List.mem_of_getLast? hb)).1
      simpa using (bounds_of_mem_window hmem).2
  · rw [window_of_le h, Option.filter_eq_none_iff.2]
    · rfl
    · intro j hj
      obtain ⟨b, hb, rfl⟩ := Option.map_eq_some_iff.1 hj
      have hmem := (List.mem_filter.1 (List.mem_of_getLast? hb)).1
      have hlt := (bounds_of_mem_window hmem).2
      simp only [decide_eq_true_eq]
      omega

/-! ## One step -/

theorem window_length_add (t : TokenTable) (i stop : Nat) :
    t.window (i + (t.window i stop).length) stop = [] := by
  rw [← drop_window, List.drop_length]

/-- A step of a pass leaves the window behind what it claims. -/
theorem settle_window {σ : Type} {step : σ → Entry → List Entry → σ × Nat} {s s' : σ} {n : Nat}
    (hx : t.get? i = some x) (hi : i < stop)
    (hstep : step s ⟨x, i⟩ (t.window (i + 1) stop) = (s', n)) :
    settle step s 0 (t.window i stop) = settle step s' 0 (t.window (i + 1 + n) stop) := by
  rw [window_of_get? hx hi, settle_cons, hstep, settle_eq_drop, drop_window]

theorem sweep_window {σ β : Type} {step : σ → Entry → List Entry → Stride σ β} {s s' : σ}
    {emitted : List β} {n : Nat} (hx : t.get? i = some x) (hi : i < stop)
    (hstep : step s ⟨x, i⟩ (t.window (i + 1) stop) = ⟨emitted, s', n⟩) :
    sweep step s 0 (t.window i stop) = emitted ++ sweep step s' 0 (t.window (i + 1 + n) stop) := by
  rw [window_of_get? hx hi, sweep_cons, hstep, sweep_eq_drop, drop_window]

theorem lt_of_matchingClose? {c : Nat} (h : t.matchingClose? i = some c) : i < c := by
  obtain ⟨b, henc⟩ := matchingClose?_iff_encloses.1 h
  exact henc.behind

/-- Behind a bracket group stands what follows its closer. Without one, nothing is left of the
window. -/
theorem window_group (hi : i < stop) {d : Nat} (hd : stop ≤ d + 1) :
    t.window (i + 1 +
        (groupEnd? (Entry.kinds (t.window i stop))).getD (t.window (i + 1) stop).length) stop =
      t.window ((t.matchingClose? i).getD d + 1) stop := by
  rw [groupEnd?_window hi]
  cases hclose : t.matchingClose? i with
  | none => exact (window_length_add t (i + 1) stop).trans (window_of_le hd).symm
  | some c =>
    have hlt := lt_of_matchingClose? hclose
    rw [Option.filter_some]
    by_cases hc : c < stop
    · rw [if_pos (decide_eq_true hc), Option.map_some, Option.getD_some, Option.getD_some]
      congr 1
      omega
    · rw [if_neg (by simpa using hc), Option.map_none, Option.getD_none, Option.getD_some,
        window_length_add, window_of_le (by omega)]

/-- A bracket group reaches to its closer, or to the end of the window. -/
theorem groupEnd?_window_cases {last : Nat} (hi : i < last + 1) :
    (∃ n, groupEnd? (Entry.kinds (t.window i (last + 1))) = some n ∧
      min ((t.matchingClose? i).getD last) last = i + n) ∨
    groupEnd? (Entry.kinds (t.window i (last + 1))) = none ∧
      min ((t.matchingClose? i).getD last) last = last := by
  rw [groupEnd?_window hi]
  cases hclose : t.matchingClose? i with
  | none => exact .inr ⟨rfl, Nat.min_self last⟩
  | some c =>
    have hlt := lt_of_matchingClose? hclose
    rw [Option.filter_some, Option.getD_some]
    by_cases hc : c < last + 1
    · rw [if_pos (decide_eq_true hc)]
      exact .inl ⟨c - i, rfl, by omega⟩
    · rw [if_neg (by simpa using hc)]
      exact .inr ⟨rfl, by omega⟩

end TokenTable

end PhpOutline
