import PhpOutline.Proofs.Balance

/-!
# Counting to the matching bracket

The partner of a bracket is found by counting: one bracket more for every one that opens, one less
for every one that closes, until none is left. Going backwards from a closing bracket, the two swap
roles. Here the counter is one that is checked, so that the walk has no answer at all where the
counter would fall below zero.

## Main definitions

* `zeroOffset?`: the place at which a checked counter comes to zero.
* `FirstZero`: what this place is, by counting.

## Main statements

* `zeroOffset?_eq_some_iff`: a counter above zero stays there up to the place that is found.
* `exists_firstZero`: a counter that has to fall comes to zero.
* `zeroOffset?_eq_closeOffset?`, `zeroOffset?_eq_attributeOffset?`: the walks to the partner of a
  bracket, forwards and backwards.
* `closeOffset?_eq_some_iff`: where the walk to a closing bracket ends.
-/

namespace PhpOutline

variable {up down : Kind → Bool} {level n : Nat} {k : Kind} {ks : List Kind}

/-- The place at which a counter comes to zero that starts at `level`, goes up at the kinds `up` and
down at the kinds `down`. There is no answer at all where it would fall below zero. -/
def zeroOffset? (up down : Kind → Bool) : (level : Nat) → List Kind → Option (Option Nat)
  | _, [] => some none
  | level, k :: ks =>
    if up k then (zeroOffset? up down (level + 1) ks).map (Option.map (· + 1))
    else if down k then
      if level = 0 then none
      else if level = 1 then some (some 0)
      else (zeroOffset? up down (level - 1) ks).map (Option.map (· + 1))
    else (zeroOffset? up down level ks).map (Option.map (· + 1))

theorem zeroOffset?_cons_of_up (hk : up k = true) :
    zeroOffset? up down level (k :: ks) =
      (zeroOffset? up down (level + 1) ks).map (Option.map (· + 1)) := by
  rw [zeroOffset?, if_pos hk]

theorem countP_take_succ_cons (p : Kind → Bool) (k : Kind) (ks : List Kind) (m : Nat) :
    ((k :: ks).take (m + 1)).countP p = (ks.take m).countP p + [k].countP p := by
  rw [List.take_succ_cons, List.countP_cons, List.countP_singleton]

/-- Place `n` is the first one through which the counter has come from `level` to zero. -/
structure FirstZero (up down : Kind → Bool) (level : Nat) (ks : List Kind) (n : Nat) : Prop where
  lt : n < ks.length
  zero : (ks.take (n + 1)).countP down = (ks.take (n + 1)).countP up + level
  above : ∀ m ≤ n, (ks.take m).countP down < (ks.take m).countP up + level

namespace FirstZero

/-- The counter comes to zero at the head of a sequence. -/
theorem zero_iff : FirstZero up down level (k :: ks) 0 ↔
    0 < level ∧ [k].countP down = [k].countP up + level := by
  constructor
  · intro h
    have hlevel := h.above 0 (Nat.le_refl 0)
    exact ⟨by simpa using hlevel, by simpa using h.zero⟩
  · rintro ⟨hlevel, hzero⟩
    refine ⟨by simp, by simpa using hzero, ?_⟩
    intro m hm
    obtain rfl : m = 0 := Nat.le_zero.1 hm
    simpa using hlevel

/-- The counter comes to zero behind the head of a sequence, when it counts on from `level'`
there. -/
theorem succ_iff {level' : Nat}
    (hlevel' : level' + [k].countP down = level + [k].countP up) :
    FirstZero up down level (k :: ks) (n + 1) ↔ 0 < level ∧ FirstZero up down level' ks n := by
  constructor
  · intro h
    refine ⟨by simpa using h.above 0 (Nat.zero_le _), ⟨Nat.lt_of_succ_lt_succ h.lt, ?_, ?_⟩⟩
    · have hzero := h.zero
      rw [countP_take_succ_cons, countP_take_succ_cons] at hzero
      omega
    · intro m hm
      have habove := h.above (m + 1) (Nat.succ_le_succ hm)
      rw [countP_take_succ_cons, countP_take_succ_cons] at habove
      omega
  · rintro ⟨hlevel, h⟩
    refine ⟨Nat.succ_lt_succ h.lt, ?_, ?_⟩
    · have hzero := h.zero
      rw [countP_take_succ_cons, countP_take_succ_cons]
      omega
    · intro m hm
      cases m with
      | zero => simpa using hlevel
      | succ m =>
        have habove := h.above m (Nat.le_of_succ_le_succ hm)
        rw [countP_take_succ_cons, countP_take_succ_cons]
        omega

end FirstZero

/-- A counter above zero never falls below it. -/
theorem exists_zeroOffset? (hlevel : 0 < level) : ∃ r, zeroOffset? up down level ks = some r := by
  induction ks generalizing level with
  | nil => exact ⟨none, rfl⟩
  | cons k ks ih =>
    have hbehind : ∀ {level}, 0 < level →
        ∃ r, (zeroOffset? up down level ks).map (Option.map (· + 1)) = some r := by
      intro level hlevel
      obtain ⟨r, hr⟩ := ih hlevel
      exact ⟨r.map (· + 1), by rw [hr]; rfl⟩
    rw [zeroOffset?]
    split
    · exact hbehind (Nat.succ_pos level)
    · split
      · rw [if_neg (Nat.ne_of_gt hlevel)]
        split
        · exact ⟨some 0, rfl⟩
        · exact hbehind (by omega)
      · exact hbehind hlevel

/-- A counter above zero comes to zero at the first place through which it has been counted down as
often as up and `level` times more. -/
theorem zeroOffset?_eq_some_iff (hdisjoint : ∀ k, up k = true → down k = false)
    (hlevel : 0 < level) :
    zeroOffset? up down level ks = some (some n) ↔ FirstZero up down level ks n := by
  induction ks generalizing level n with
  | nil =>
    constructor
    · intro h
      cases Option.some.inj h
    · intro h
      exact absurd h.lt (Nat.not_lt_zero n)
  | cons k ks ih =>
    -- from the head on, the counter goes on from a level above zero
    have hbehind : ∀ {level'}, 0 < level' →
        level' + [k].countP down = level + [k].countP up →
        ([k].countP down ≠ [k].countP up + level) →
        ((zeroOffset? up down level' ks).map (Option.map (· + 1)) = some (some n) ↔
          FirstZero up down level (k :: ks) n) := by
      intro level' hpos hlevel' hne
      obtain ⟨r, hr⟩ := @exists_zeroOffset? up down level' ks hpos
      have hsome : ∀ m, r = some m ↔ FirstZero up down level' ks m := by
        intro m
        rw [← ih hpos, hr, Option.some.injEq]
      rw [hr, Option.map_some, Option.some.injEq, Option.map_eq_some_iff]
      cases n with
      | zero =>
        rw [FirstZero.zero_iff]
        simp only [hne, and_false, iff_false]
        rintro ⟨m, -, hm⟩
        cases hm
      | succ n =>
        rw [FirstZero.succ_iff hlevel', ← hsome]
        simp [hlevel]
    rw [zeroOffset?]
    by_cases hup : up k = true
    · have hdown := hdisjoint k hup
      rw [if_pos hup]
      apply hbehind (Nat.succ_pos level)
      · simp [hup, hdown]
      · simp [hup, hdown]
        omega
    · rw [if_neg hup]
      by_cases hdown : down k = true
      · rw [if_pos hdown]
        rw [if_neg (Nat.ne_of_gt hlevel)]
        by_cases hone : level = 1
        · -- here the counter comes to zero
          rw [if_pos hone, Option.some.injEq, Option.some.injEq]
          cases n with
          | zero =>
            rw [FirstZero.zero_iff]
            simp [hup, hdown, hone]
          | succ n =>
            have hzero : 0 + [k].countP down = level + [k].countP up := by
              simp [hup, hdown, hone]
            rw [FirstZero.succ_iff hzero]
            constructor
            · intro h
              cases h
            · intro h
              have habove := h.2.above 0 (Nat.zero_le n)
              simp at habove
        · rw [if_neg hone]
          apply hbehind
          · omega
          · simp [hup, hdown]
            omega
          · simp [hup, hdown]
            omega
      · rw [if_neg hdown]
        apply hbehind hlevel
        · simp [hup, hdown]
        · simp [hup, hdown]
          omega

/-- A counter that has to fall by its level in a part of a sequence comes to zero there. -/
theorem exists_firstZero {m : Nat} (hlevel : 0 < level)
    (h : (ks.take m).countP up + level ≤ (ks.take m).countP down) :
    ∃ n < m, FirstZero up down level ks n := by
  induction ks generalizing level m with
  | nil =>
    simp at h
    omega
  | cons k ks ih =>
    cases m with
    | zero =>
      simp at h
      omega
    | succ m =>
      by_cases hzero : [k].countP down = [k].countP up + level
      · exact ⟨0, Nat.succ_pos m, FirstZero.zero_iff.2 ⟨hlevel, hzero⟩⟩
      · have hone : [k].countP down ≤ 1 := List.countP_le_length
        obtain ⟨level', hlevel'⟩ : ∃ l, l + [k].countP down = level + [k].countP up :=
          ⟨level + [k].countP up - [k].countP down, by omega⟩
        rw [countP_take_succ_cons, countP_take_succ_cons] at h
        obtain ⟨n, hn, hfirst⟩ := @ih level' m (by omega) (by omega)
        exact ⟨n + 1, Nat.succ_lt_succ hn, (FirstZero.succ_iff hlevel').2 ⟨hlevel, hfirst⟩⟩

/-! ## The walks to the partner of a bracket -/

/-- Going forwards, the counter goes up at openers and down at closers. -/
theorem zeroOffset?_eq_closeOffset? (b : Bracket) (hlevel : 0 < level) :
    zeroOffset? (fun k => k.opens == some b) (fun k => k.closes == some b) level ks =
      some (closeOffset? b level ks) := by
  induction ks generalizing level with
  | nil => rfl
  | cons k ks ih =>
    rw [zeroOffset?, closeOffset?]
    by_cases ho : k.opens = some b
    · rw [if_pos (beq_iff_eq.2 ho), if_pos ho, ih (Nat.succ_pos level)]
      rfl
    · rw [if_neg (by simpa using ho), if_neg ho]
      by_cases hc : k.closes = some b
      · rw [if_pos (beq_iff_eq.2 hc), if_pos hc, if_neg (Nat.ne_of_gt hlevel)]
        by_cases hone : level = 1
        · rw [if_pos hone, if_pos (by omega)]
        · rw [if_neg hone, if_neg (by omega), ih (by omega)]
          rfl
      · rw [if_neg (by simpa using hc), if_neg hc, ih hlevel]
        rfl

/-- The walk to a closing bracket ends at the first place through which as many brackets are closed
as are opened, counting those that are open before it. -/
theorem closeOffset?_eq_some_iff (b : Bracket) (hlevel : 0 < level) :
    closeOffset? b level ks = some n ↔
      FirstZero (fun k => k.opens == some b) (fun k => k.closes == some b) level ks n := by
  have hdisjoint : ∀ k : Kind, (k.opens == some b) = true → (k.closes == some b) = false := by
    intro k ho
    by_contra hc
    rw [Bool.not_eq_false, beq_iff_eq] at hc
    simp [Kind.opens_eq_none_of_closes hc] at ho
  rw [← zeroOffset?_eq_some_iff hdisjoint hlevel, zeroOffset?_eq_closeOffset? b hlevel,
    Option.some.injEq]

/-- What is found in a sequence is found one place further on behind one more token. -/
theorem map_filter_attributeOpener (k : Kind) (ks : List Kind) (r : Option Nat) :
    (r.filter fun n => ks[n]? == some .attributeOpener).map (· + 1) =
      (r.map (· + 1)).filter fun n => (k :: ks)[n]? == some .attributeOpener := by
  rw [Option.filter_map]
  rfl

/-- Going backwards, it goes up at closing square brackets and down at what opens one. What is found
counts when it is an attribute opener. -/
theorem zeroOffset?_eq_attributeOffset? (hlevel : 0 < level) :
    ∃ r, zeroOffset? (fun k => k.closes == some .square) (fun k => k.opens == some .square) level
        ks = some r ∧
      attributeOffset? level ks = r.filter fun n => ks[n]? == some .attributeOpener := by
  induction ks generalizing level with
  | nil => exact ⟨none, rfl, rfl⟩
  | cons k ks ih =>
    rw [zeroOffset?, attributeOffset?]
    by_cases hc : k.closes = some .square
    · obtain ⟨r, hr, hoffset⟩ := ih (Nat.succ_pos level)
      rw [if_pos (beq_iff_eq.2 hc), if_pos hc, hr, hoffset, map_filter_attributeOpener k]
      exact ⟨_, rfl, rfl⟩
    · rw [if_neg (by simpa using hc), if_neg hc]
      by_cases ho : k.opens = some .square
      · rw [if_pos (beq_iff_eq.2 ho), if_pos ho, if_neg (Nat.ne_of_gt hlevel)]
        by_cases hone : level = 1
        · rw [if_pos hone, if_pos (by omega)]
          refine ⟨some 0, rfl, ?_⟩
          by_cases hk : k = .attributeOpener
          · simp [hk, Option.filter_some]
          · simp [hk, Option.filter_some]
        · obtain ⟨r, hr, hoffset⟩ := ih (show 0 < level - 1 by omega)
          rw [if_neg hone, if_neg (by omega), hr, hoffset, map_filter_attributeOpener k]
          exact ⟨_, rfl, rfl⟩
      · obtain ⟨r, hr, hoffset⟩ := ih hlevel
        rw [if_neg (by simpa using ho), if_neg ho, hr, hoffset, map_filter_attributeOpener k]
        exact ⟨_, rfl, rfl⟩

/-- The walk back begins at a closing bracket, where the counter is at zero. -/
theorem zeroOffset?_eq_attributeOffset?_closer (ks : List Kind) :
    ∃ r, zeroOffset? (fun k => k.closes == some .square) (fun k => k.opens == some .square) 1 ks =
        some r ∧
      zeroOffset? (fun k => k.closes == some .square) (fun k => k.opens == some .square) 0
          (.closer .square :: ks) = some (r.map (· + 1)) ∧
      attributeOffset? 0 (.closer .square :: ks) =
        (r.map (· + 1)).filter fun n =>
          (Kind.closer .square :: ks)[n]? == some .attributeOpener := by
  obtain ⟨r, hr, hoffset⟩ := @zeroOffset?_eq_attributeOffset? 1 ks Nat.one_pos
  refine ⟨r, hr, ?_, ?_⟩
  · rw [zeroOffset?_cons_of_up rfl, hr]
    rfl
  · rw [← map_filter_attributeOpener, ← hoffset]
    simp [attributeOffset?, Kind.closes]

end PhpOutline
