import PhpOutline.Proofs.Matching
import PhpOutline.Proofs.TokenTable.Extents

/-!
# Matching brackets of a table

A bracket is closed at the first place through which as many brackets of its pair are closed as are
opened, counted from the bracket on. So brackets of one pair are nested in each other or stand side
by side, whatever other brackets stand between them, and however few of them have a partner.

## Main definitions

* `TokenTable.opener?`: the bracket that the token at a place opens.
* `TokenTable.kindsThrough`: the kinds between two places.
* `TokenTable.ClosesAt`: the partner of a bracket, by counting.
* `TokenTable.matchingCloseChecked?`: the search for it with a counter that is checked.
* `TokenTable.MatchesBrackets`: what it means that brackets are matched.

## Main statements

* `TokenTable.matchingClose?_eq_some_iff`: the search finds the partner.
* `TokenTable.Encloses.exists_of_lt`, `TokenTable.Encloses.apart`: how brackets of one pair lie to
  each other.
* `TokenTable.matchesBrackets`: the brackets of every table are matched.
-/

namespace PhpOutline

/-- The search for the end of the group at the head of a sequence, with a counter that is checked:
there is no answer at all where it would fall below zero. -/
def groupEndChecked? : List Kind → Option (Option Nat)
  | [] => some none
  | k :: ks =>
    match k.opens with
    | none => some none
    | some b =>
      zeroOffset? (fun k => k.opens == some b) (fun k => k.closes == some b) 0 (k :: ks)

/-- The counter never falls below zero. -/
theorem groupEndChecked?_eq (ks : List Kind) : groupEndChecked? ks = some (groupEnd? ks) := by
  cases ks with
  | nil => rfl
  | cons k ks =>
    cases ho : k.opens with
    | none => simp [groupEndChecked?, groupEnd?, ho]
    | some b =>
      have hchecked := @zeroOffset?_eq_closeOffset? 1 ks b Nat.one_pos
      simp only [groupEndChecked?, groupEnd?, ho, Option.bind_some]
      rw [zeroOffset?, closeOffset?, if_pos (beq_iff_eq.2 ho), if_pos ho, Nat.zero_add, hchecked]
      rfl

/-- A bracket at the head of a sequence is closed at the first place through which as many of its
pair are closed as are opened behind it, and it itself. -/
theorem groupEnd?_cons_eq_some_iff {k : Kind} {b : Bracket} (ho : k.opens = some b)
    {ks : List Kind} {n : Nat} :
    groupEnd? (k :: ks) = some n ↔
      ∃ m, n = m + 1 ∧
        FirstZero (fun k => k.opens == some b) (fun k => k.closes == some b) 1 ks m := by
  rw [groupEnd?, ho, Option.bind_some, closeOffset?, if_pos ho, Nat.zero_add,
    Option.map_eq_some_iff]
  constructor
  · rintro ⟨m, hm, rfl⟩
    exact ⟨m, rfl, (closeOffset?_eq_some_iff b Nat.one_pos).1 hm⟩
  · rintro ⟨m, rfl, hm⟩
    exact ⟨m, (closeOffset?_eq_some_iff b Nat.one_pos).2 hm, rfl⟩

theorem Kind.eq_closer_of_closes {k : Kind} {b : Bracket} (h : k.closes = some b) :
    k = .closer b := by
  cases k <;> simp_all [closes]

namespace TokenTable

/-- The bracket that the token at a place opens. -/
def opener? (t : TokenTable) (i : Nat) : Option Bracket := (t.kind? i).bind Kind.opens

/-- The kinds of the tokens from place `i` through place `j`. -/
def kindsThrough (t : TokenTable) (i j : Nat) : List Kind := Entry.kinds (t.window i (j + 1))

/-- The bracket of pair `b` at place `o` has its partner at place `c`: the first place behind `o`
for which brackets of the pair are opened and closed equally often from `o` through it. -/
structure ClosesAt (t : TokenTable) (b : Bracket) (o c : Nat) : Prop where
  opens : t.opener? o = some b
  behind : o < c
  inside : c < t.size
  even : b.openings (t.kindsThrough o c) = b.closings (t.kindsThrough o c)
  first : ∀ j, o < j → j < c →
    b.openings (t.kindsThrough o j) ≠ b.closings (t.kindsThrough o j)

variable {t : TokenTable} {b : Bracket} {o c i j : Nat}

/-! ## Counting between two places -/

theorem kindsThrough_eq (t : TokenTable) (i j : Nat) :
    t.kindsThrough i j = ((t.tokens.drop i).map Token.kind).take (j + 1 - i) := by
  rw [kindsThrough, window, Entry.kinds_number, List.map_take]

theorem kinds_startingAt (t : TokenTable) (i : Nat) :
    Entry.kinds (t.startingAt i) = (t.tokens.drop i).map Token.kind :=
  Entry.kinds_number _ _

theorem kindsThrough_append (t : TokenTable) {k : Nat} (hij : i ≤ j) (hjk : j < k) :
    t.kindsThrough i k = t.kindsThrough i j ++ t.kindsThrough (j + 1) k := by
  rw [kindsThrough, kindsThrough, kindsThrough, ← Entry.kinds_append,
    window_append t (by omega) (by omega)]

theorem lt_size_of_kind? {k : Kind} (h : t.kind? i = some k) : i < t.size := by
  rw [kind?, Option.map_eq_some_iff] at h
  obtain ⟨x, hx, -⟩ := h
  exact (List.getElem?_eq_some_iff.1 hx).1

theorem kindsThrough_self {k : Kind} (h : t.kind? i = some k) : t.kindsThrough i i = [k] := by
  rw [kind?, get?, ← List.getElem?_map, List.getElem?_eq_some_iff] at h
  obtain ⟨hi, hk⟩ := h
  rw [kindsThrough_eq, List.map_drop, List.drop_eq_getElem_cons hi, hk, Nat.add_sub_cancel_left]
  rfl

/-! ## The search finds the partner -/

/-- What the counter of the search is on its way: above zero in front of place `c`, zero there. -/
structure Encloses (t : TokenTable) (b : Bracket) (o c : Nat) : Prop where
  opens : t.opener? o = some b
  behind : o < c
  inside : c < t.size
  even : b.openings (t.kindsThrough o c) = b.closings (t.kindsThrough o c)
  within : ∀ j, o ≤ j → j < c → b.closings (t.kindsThrough o j) < b.openings (t.kindsThrough o j)

theorem exists_drop_of_opener? (h : t.opener? o = some b) :
    ∃ k ks, k.opens = some b ∧ (t.tokens.drop o).map Token.kind = k :: ks ∧
      o + (ks.length + 1) = t.size := by
  obtain ⟨k, hk, ho⟩ := Option.bind_eq_some_iff.1 h
  have hlt := lt_size_of_kind? hk
  rw [kind?, get?, ← List.getElem?_map, List.getElem?_eq_some_iff] at hk
  obtain ⟨hi, hk⟩ := hk
  refine ⟨k, (t.tokens.map Token.kind).drop (o + 1), ho, ?_, ?_⟩
  · rw [List.map_drop, List.drop_eq_getElem_cons hi, hk]
  · rw [List.length_drop, List.length_map]
    simp only [size] at hlt ⊢
    omega

theorem kindsThrough_add {k : Kind} {ks : List Kind}
    (hdrop : (t.tokens.drop o).map Token.kind = k :: ks) (m : Nat) :
    t.kindsThrough o (o + m) = k :: ks.take m := by
  rw [kindsThrough_eq, hdrop, Nat.add_assoc, Nat.add_sub_cancel_left, List.take_succ_cons]

/-- A bracket encloses what stands between it and a place exactly when the counter behind it comes
to zero there. -/
theorem encloses_iff_firstZero {k : Kind} {ks : List Kind} (ho : k.opens = some b)
    (hdrop : (t.tokens.drop o).map Token.kind = k :: ks) (hsize : o + (ks.length + 1) = t.size)
    (m : Nat) :
    t.Encloses b o (o + (m + 1)) ↔
      FirstZero (fun k => k.opens == some b) (fun k => k.closes == some b) 1 ks m := by
  have hopener : t.opener? o = some b := by
    have hhead := congrArg List.head? hdrop
    rw [List.head?_map, List.head?_drop] at hhead
    rw [opener?, kind?, get?, hhead]
    exact ho
  have hopenings : ∀ m, b.openings (t.kindsThrough o (o + m)) = b.openings (ks.take m) + 1 := by
    intro m
    rw [kindsThrough_add hdrop, Bracket.openings_cons_of_opens ho]
  have hclosings : ∀ m, b.closings (t.kindsThrough o (o + m)) = b.closings (ks.take m) := by
    intro m
    rw [kindsThrough_add hdrop, Bracket.closings_cons_of_opens ho]
  constructor
  · intro h
    refine ⟨?_, ?_, ?_⟩
    · have hinside := h.inside
      omega
    · have heven := h.even
      rw [hopenings, hclosings] at heven
      exact heven.symm
    · intro m' hm'
      have hwithin := h.within (o + m') (Nat.le_add_right o m') (by omega)
      rw [hopenings, hclosings] at hwithin
      exact hwithin
  · intro h
    refine ⟨hopener, by omega, ?_, ?_, ?_⟩
    · have hlt := h.lt
      omega
    · rw [hopenings, hclosings]
      exact h.zero.symm
    · intro j hj hlt
      obtain ⟨m', rfl⟩ := Nat.exists_eq_add_of_le hj
      rw [hopenings, hclosings]
      exact h.above m' (by omega)

theorem matchingClose?_iff_encloses : t.matchingClose? o = some c ↔ ∃ b, t.Encloses b o c := by
  rw [matchingClose?, kinds_startingAt, Option.map_eq_some_iff]
  constructor
  · rintro ⟨n, hn, rfl⟩
    obtain ⟨b, hb⟩ : ∃ b, t.opener? o = some b := by
      cases hdrop : (t.tokens.drop o).map Token.kind with
      | nil => simp [hdrop, groupEnd?] at hn
      | cons k ks =>
        have hhead := congrArg List.head? hdrop
        rw [List.head?_map, List.head?_drop] at hhead
        rw [opener?, kind?, get?, hhead]
        rw [hdrop, groupEnd?, Option.bind_eq_some_iff] at hn
        exact ⟨hn.choose, hn.choose_spec.1⟩
    obtain ⟨k, ks, ho, hdrop, hsize⟩ := exists_drop_of_opener? hb
    rw [hdrop, groupEnd?_cons_eq_some_iff ho] at hn
    obtain ⟨m, rfl, hm⟩ := hn
    exact ⟨b, (encloses_iff_firstZero ho hdrop hsize m).2 hm⟩
  · rintro ⟨b, h⟩
    obtain ⟨k, ks, ho, hdrop, hsize⟩ := exists_drop_of_opener? h.opens
    obtain ⟨m, rfl⟩ := Nat.exists_eq_add_of_lt h.behind
    rw [hdrop]
    refine ⟨m + 1, (groupEnd?_cons_eq_some_iff ho).2 ⟨m, rfl, ?_⟩, by omega⟩
    exact (encloses_iff_firstZero ho hdrop hsize m).1 h

/-- The counter cannot pass zero on its way below it, as a token closes at most one bracket. -/
theorem ClosesAt.encloses (h : t.ClosesAt b o c) : t.Encloses b o c where
  opens := h.opens
  behind := h.behind
  inside := h.inside
  even := h.even
  within := by
    intro j hj
    induction j, hj using Nat.le_induction with
    | base =>
      intro _
      obtain ⟨k, hk, ho⟩ := Option.bind_eq_some_iff.1 h.opens
      rw [kindsThrough_self hk, Bracket.openings_cons_of_opens ho,
        Bracket.closings_cons_of_opens ho]
      exact Nat.one_pos
    | succ j hj ih =>
      intro hlt
      have hbelow := ih (by omega)
      have hne := h.first (j + 1) (by omega) hlt
      have hone : b.closings (t.kindsThrough (j + 1) (j + 1)) ≤ 1 := by
        refine List.countP_le_length.trans ?_
        rw [kindsThrough_eq, List.length_take]
        omega
      rw [kindsThrough_append t hj (Nat.lt_add_one j), Bracket.openings_append,
        Bracket.closings_append] at hne ⊢
      omega

theorem encloses_iff_closesAt : t.Encloses b o c ↔ t.ClosesAt b o c := by
  constructor
  · intro h
    refine ⟨h.opens, h.behind, h.inside, h.even, ?_⟩
    intro j hj hlt
    exact Nat.ne_of_gt (h.within j (Nat.le_of_lt hj) hlt)
  · exact ClosesAt.encloses

/-- The search finds the partner of a bracket. -/
theorem matchingClose?_eq_some_iff : t.matchingClose? o = some c ↔ ∃ b, t.ClosesAt b o c := by
  rw [matchingClose?_iff_encloses]
  exact exists_congr fun b => encloses_iff_closesAt

/-! ## Brackets of one pair -/

/-- Counted from inside a group on, more brackets are closed than opened where the group ends. -/
theorem Encloses.lt_closings (h : t.Encloses b o c) (hi : o < i) (hc : i ≤ c) :
    b.openings (t.kindsThrough i c) < b.closings (t.kindsThrough i c) := by
  obtain ⟨i, rfl⟩ := Nat.exists_eq_succ_of_ne_zero (Nat.ne_zero_of_lt hi)
  have heven := h.even
  have hwithin := h.within i (Nat.le_of_lt_succ hi) hc
  rw [kindsThrough_append t (Nat.le_of_lt_succ hi) hc, Bracket.openings_append,
    Bracket.closings_append] at heven
  simp only [Nat.succ_eq_add_one]
  omega

/-- So a group is told from its end as well: going backwards, more brackets are closed than opened
up to its beginning. -/
theorem encloses_of_lt_closings (ho : t.opener? o = some b) (hoc : o < c) (hc : c < t.size)
    (heven : b.openings (t.kindsThrough o c) = b.closings (t.kindsThrough o c))
    (hlt : ∀ i, o < i → i ≤ c →
      b.openings (t.kindsThrough i c) < b.closings (t.kindsThrough i c)) :
    t.Encloses b o c where
  opens := ho
  behind := hoc
  inside := hc
  even := heven
  within := by
    intro j hj hjc
    have hbehind := hlt (j + 1) (by omega) hjc
    rw [kindsThrough_append t hj hjc, Bracket.openings_append, Bracket.closings_append] at heven
    omega

/-- The partner of a bracket closes it. -/
theorem Encloses.closes (h : t.Encloses b o c) : t.kind? c = some (.closer b) := by
  have hlt := h.lt_closings h.behind (Nat.le_refl c)
  obtain ⟨k, hk⟩ : ∃ k, t.kind? c = some k := by
    rw [kind?, get?, List.getElem?_eq_getElem h.inside]
    exact ⟨_, rfl⟩
  rw [hk, Option.some.injEq]
  apply Kind.eq_closer_of_closes
  by_contra hc
  rw [kindsThrough_self hk, Bracket.closings_cons, if_neg hc] at hlt
  exact Nat.not_lt_zero _ hlt

/-- A bracket inside a group of its pair is closed inside it. -/
theorem Encloses.exists_of_lt (h : t.Encloses b o c) (hi : t.opener? i = some b) (hoi : o < i)
    (hic : i < c) : ∃ d, t.Encloses b i d ∧ d < c := by
  have hlt := h.lt_closings hoi (Nat.le_of_lt hic)
  obtain ⟨k, ks, ho, hdrop, hsize⟩ := exists_drop_of_opener? hi
  obtain ⟨m, rfl⟩ := Nat.exists_eq_add_of_lt hic
  rw [Nat.add_assoc, kindsThrough_add hdrop, Bracket.openings_cons_of_opens ho,
    Bracket.closings_cons_of_opens ho] at hlt
  obtain ⟨n, hn, hzero⟩ := exists_firstZero Nat.one_pos (Nat.le_of_lt hlt)
  have hinner := (encloses_iff_firstZero ho hdrop hsize n).2 hzero
  refine ⟨_, hinner, ?_⟩
  -- the place at which the group itself ends is none at which the inner one can end
  have hne : n ≠ m := by
    rintro rfl
    have heven := hinner.even
    rw [kindsThrough_add hdrop, Bracket.openings_cons_of_opens ho,
      Bracket.closings_cons_of_opens ho] at heven
    omega
  omega

/-- Groups of one pair stand side by side or are nested. -/
theorem Encloses.apart {o' c' : Nat} (h : t.Encloses b o c) (h' : t.Encloses b o' c')
    (hlt : o < o') : c < o' ∨ c' < c := by
  rcases Nat.lt_or_ge c o' with hc | hc
  · exact .inl hc
  · have hne : o' ≠ c := by
      rintro rfl
      obtain ⟨k, hk, hopens⟩ := Option.bind_eq_some_iff.1 h'.opens
      obtain rfl : k = .closer b := Option.some.inj (hk.symm.trans h.closes)
      cases hopens
    obtain ⟨d, hd, hdc⟩ := h.exists_of_lt h'.opens hlt (Nat.lt_of_le_of_ne hc hne)
    obtain rfl : d = c' := by
      have hsome := matchingClose?_iff_encloses.2 ⟨b, hd⟩
      exact Option.some.inj (hsome.symm.trans (matchingClose?_iff_encloses.2 ⟨b, h'⟩))
    exact .inr hdc

/-- A group ends with the bracket that it begins with. -/
theorem Encloses.eq_bracket {b' : Bracket} (h : t.Encloses b o c) (h' : t.Encloses b' i c) :
    b = b' := by
  have hkind := h.closes.symm.trans h'.closes
  exact Kind.closer.inj (Option.some.inj hkind)

/-- No two brackets have the same partner. -/
theorem Encloses.eq_opener (h : t.Encloses b o c) (h' : t.Encloses b i c) : o = i := by
  rcases Nat.lt_trichotomy o i with hlt | rfl | hlt
  · rcases h.apart h' hlt with hc | hc
    · exact absurd hc (Nat.not_lt.2 (Nat.le_of_lt h'.behind))
    · exact absurd hc (Nat.lt_irrefl c)
  · rfl
  · rcases h'.apart h hlt with hc | hc
    · exact absurd hc (Nat.not_lt.2 (Nat.le_of_lt h.behind))
    · exact absurd hc (Nat.lt_irrefl c)

/-! ## Every table -/

/-- The search for the partner of a bracket, with a counter that is checked. -/
def matchingCloseChecked? (t : TokenTable) (i : Nat) : Option (Option Nat) :=
  (groupEndChecked? (Entry.kinds (t.startingAt i))).map (Option.map (i + ·))

/-- The brackets of a table are matched. -/
structure MatchesBrackets (t : TokenTable) : Prop where
  /-- What is found is the partner of a bracket, and it is found when there is one. -/
  found : ∀ o c, t.matchingClose? o = some c ↔ ∃ b, t.ClosesAt b o c
  /-- The counter never falls below zero. -/
  counted : ∀ o, t.matchingCloseChecked? o = some (t.matchingClose? o)
  /-- A bracket inside a group of its pair is closed inside it. -/
  inner : ∀ b o c i, t.matchingClose? o = some c → t.opener? o = some b → t.opener? i = some b →
    o < i → i < c → ∃ d, t.matchingClose? i = some d ∧ d < c
  /-- No two brackets have the same partner. -/
  unshared : ∀ o i c, t.matchingClose? o = some c → t.matchingClose? i = some c → o = i
  /-- Groups of one pair stand side by side or are nested. -/
  apart : ∀ b o c i d, t.opener? o = some b → t.opener? i = some b → t.matchingClose? o = some c →
    t.matchingClose? i = some d → o < i → c < i ∨ d < c

theorem encloses_of_matchingClose? (h : t.matchingClose? o = some c) (hb : t.opener? o = some b) :
    t.Encloses b o c := by
  obtain ⟨b', henc⟩ := matchingClose?_iff_encloses.1 h
  obtain rfl : b = b' := Option.some.inj (hb.symm.trans henc.opens)
  exact henc

/-- The brackets of every table are matched. -/
theorem matchesBrackets (t : TokenTable) : t.MatchesBrackets where
  found := fun _ _ => matchingClose?_eq_some_iff
  counted := by
    intro o
    rw [matchingCloseChecked?, groupEndChecked?_eq]
    rfl
  inner := by
    intro b o c i h ho hi hoi hic
    obtain ⟨d, hd, hlt⟩ := (encloses_of_matchingClose? h ho).exists_of_lt hi hoi hic
    exact ⟨d, matchingClose?_iff_encloses.2 ⟨b, hd⟩, hlt⟩
  unshared := by
    intro o i c ho hi
    obtain ⟨b, hb⟩ := matchingClose?_iff_encloses.1 ho
    obtain ⟨b', hb'⟩ := matchingClose?_iff_encloses.1 hi
    obtain rfl := hb.eq_bracket hb'
    exact hb.eq_opener hb'
  apart := by
    intro b o c i d ho hi hc hd hlt
    exact (encloses_of_matchingClose? hc ho).apart (encloses_of_matchingClose? hd hi) hlt

end TokenTable

end PhpOutline
