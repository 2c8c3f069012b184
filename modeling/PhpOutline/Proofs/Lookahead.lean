import PhpOutline.Proofs.TokenTable.Extents

/-!
# How far searches look ahead

A search looks no further than the place that it finds. When it ends within the first part of a
sequence, the rest of the sequence may be replaced by anything.

## Main definitions

* `bodyOffset?`: the place of the brace that opens the body of a function.
* `Kind.isHeader`: the words of the header of a type.

## Main statements

* `closeOffset?_append_of_lt`, `groupEnd?_append_of_lt`, `declarationEnd?_append_of_lt`: what is
  found in the first part is found whatever follows it.
* `headerEnd?_append_of_mem`: a header ends at the first word that belongs to none.
* `declarationEnd?_of_bodyOffset?`: a function with a body ends where its brace is closed.
* `closeOffset?_filter`: tokens that are no brackets may be left out.
* `closes_of_closeOffset?`: what closes a group.
-/

namespace PhpOutline

variable {α : Type}

/-! ## Closing brackets -/

section Brackets

variable {b : Bracket} {depth n : Nat} {ks x : List Kind}

theorem closeOffset?_append_of_lt (h : closeOffset? b depth (ks ++ x) = some n)
    (hn : n < ks.length) (y : List Kind) : closeOffset? b depth (ks ++ y) = some n := by
  induction ks generalizing depth n with
  | nil => simp at hn
  | cons k ks ih =>
    -- one token further, the search is the same one with another depth
    have hbehind : ∀ {depth}, (closeOffset? b depth (ks ++ x)).map (· + 1) = some n →
        (closeOffset? b depth (ks ++ y)).map (· + 1) = some n := by
      intro depth hmap
      obtain ⟨m, hm, rfl⟩ := Option.map_eq_some_iff.1 hmap
      rw [ih hm (Nat.lt_of_succ_lt_succ hn)]
      rfl
    rw [List.cons_append, closeOffset?] at h ⊢
    by_cases ho : k.opens = some b
    · rw [if_pos ho] at h ⊢
      exact hbehind h
    · rw [if_neg ho] at h ⊢
      by_cases hc : k.closes = some b
      · rw [if_pos hc] at h ⊢
        by_cases hd : depth ≤ 1
        · rwa [if_pos hd] at h ⊢
        · rw [if_neg hd] at h ⊢
          exact hbehind h
      · rw [if_neg hc] at h ⊢
        exact hbehind h

/-- The bracket at the head of a sequence closes where it does, whatever follows. -/
theorem groupEnd?_append_of_lt (h : groupEnd? (ks ++ x) = some n) (hn : n < ks.length)
    (y : List Kind) : groupEnd? (ks ++ y) = some n := by
  cases ks with
  | nil => simp at hn
  | cons k ks =>
    rw [List.cons_append, groupEnd?] at h ⊢
    obtain ⟨b, hb, hclose⟩ := Option.bind_eq_some_iff.1 h
    rw [hb]
    exact @closeOffset?_append_of_lt b 0 n (k :: ks) x hclose hn y

/-- What is neither opener nor closer may be left out in front of the closing bracket. -/
theorem closeOffset?_filter {p : Kind → Bool}
    (hp : ∀ k, p k = false → k.opens = none ∧ k.closes = none) {c : Kind}
    (h : closeOffset? b depth (ks ++ c :: x) = some ks.length) (y : List Kind) :
    closeOffset? b depth (ks.filter p ++ c :: y) = some (ks.filter p).length := by
  induction ks generalizing depth with
  | nil =>
    have hfirst := @closeOffset?_append_of_lt b depth 0 [c] x h (by simp) y
    simpa using hfirst
  | cons k ks ih =>
    have hbehind : ∀ {depth}, (closeOffset? b depth (ks ++ c :: x)).map (· + 1) =
        some (ks.length + 1) → closeOffset? b depth (ks ++ c :: x) = some ks.length := by
      intro depth hmap
      obtain ⟨m, hm, hlen⟩ := Option.map_eq_some_iff.1 hmap
      rwa [← Nat.succ.inj hlen]
    rw [List.cons_append, closeOffset?, List.length_cons] at h
    by_cases hpk : p k = true
    · rw [List.filter_cons_of_pos hpk, List.cons_append, closeOffset?, List.length_cons]
      by_cases ho : k.opens = some b
      · rw [if_pos ho] at h ⊢
        rw [ih (hbehind h)]
        rfl
      · rw [if_neg ho] at h ⊢
        by_cases hc : k.closes = some b
        · rw [if_pos hc] at h ⊢
          by_cases hd : depth ≤ 1
          · rw [if_pos hd] at h
            simp at h
          · rw [if_neg hd] at h ⊢
            rw [ih (hbehind h)]
            rfl
        · rw [if_neg hc] at h ⊢
          rw [ih (hbehind h)]
          rfl
    · obtain ⟨ho, hc⟩ := hp k (by simpa using hpk)
      rw [if_neg (by simp [ho]), if_neg (by simp [hc])] at h
      rw [List.filter_cons_of_neg hpk]
      exact ih (hbehind h)

/-- What closes a group is a closing bracket of its pair. -/
theorem closes_of_closeOffset? {c : Kind}
    (h : closeOffset? b depth (ks ++ c :: x) = some ks.length) :
    c.closes = some b := by
  induction ks generalizing depth with
  | nil =>
    rw [List.nil_append, closeOffset?] at h
    split at h
    · simp at h
    · split at h
      case isTrue hc => exact hc
      case isFalse => simp at h
  | cons k ks ih =>
    have hbehind : ∀ {depth}, (closeOffset? b depth (ks ++ c :: x)).map (· + 1) =
        some (ks.length + 1) → c.closes = some b := by
      intro depth hmap
      obtain ⟨m, hm, hlen⟩ := Option.map_eq_some_iff.1 hmap
      exact ih (by rwa [← Nat.succ.inj hlen])
    rw [List.cons_append, closeOffset?, List.length_cons] at h
    split at h
    · exact hbehind h
    · split at h
      · split at h
        · simp at h
        · exact hbehind h
      · exact hbehind h

end Brackets

/-! ## Searches -/

/-- A search that starts behind `k` claimed items finds nothing before them. -/
theorem le_of_seek {look : α → List α → Look} {k n : Nat} {s : List α}
    (h : seek look k s = some n) : k ≤ n := by
  rw [seek_eq_drop] at h
  obtain ⟨m, -, rfl⟩ := Option.map_eq_some_iff.1 h
  exact Nat.le_add_left k m

/-- A search whose looks depend on what they find only finds the same, whatever follows. -/
theorem seek_append_of_lt {look : α → List α → Look} {x y : List α}
    (hends : ∀ a s m, look a (s ++ x) = .ends m → m ≤ s.length → look a (s ++ y) = .ends m)
    (hpasses : ∀ a s m, look a (s ++ x) = .passes m → m ≤ s.length →
      look a (s ++ y) = .passes m)
    {k n : Nat} {s : List α} (h : seek look k (s ++ x) = some n) (hn : n < s.length) :
    seek look k (s ++ y) = some n := by
  induction s generalizing k n with
  | nil => simp at hn
  | cons a s ih =>
    have hbehind : ∀ {k}, (seek look k (s ++ x)).map (· + 1) = some n →
        k ≤ s.length ∧ (seek look k (s ++ y)).map (· + 1) = some n := by
      intro k hmap
      obtain ⟨m, hm, rfl⟩ := Option.map_eq_some_iff.1 hmap
      have hlt := Nat.lt_of_succ_lt_succ hn
      rw [ih hm hlt]
      exact ⟨Nat.le_of_lt (Nat.lt_of_le_of_lt (le_of_seek hm) hlt), rfl⟩
    rw [List.cons_append] at h ⊢
    cases k with
    | succ k => exact (hbehind h).2
    | zero =>
      rw [seek] at h ⊢
      cases hlook : look a (s ++ x) with
      | ends m =>
        rw [hlook] at h
        obtain rfl : m = n := Option.some.inj h
        rw [hends a s m hlook (Nat.le_of_lt_succ hn)]
      | passes m =>
        rw [hlook] at h
        obtain ⟨hm, hy⟩ := hbehind h
        rw [hpasses a s m hlook hm]
        exact hy
      | fails =>
        rw [hlook] at h
        cases h

/-- Where a search that ends at nothing but single items ends at `a`, another search that passes
over the same items comes to `a`, too. -/
theorem seek_of_passes {look look' : α → List α → Look} {a : α} {x y : List α}
    (hends : ∀ b s m, look b s = .ends m → m = 0)
    (hpasses : ∀ b s m, look b (s ++ a :: x) = .passes m → m ≤ s.length →
      look' b (s ++ a :: y) = .passes m)
    {k : Nat} {s : List α} (h : seek look k (s ++ a :: x) = some s.length) :
    seek look' k (s ++ a :: y) = (seek look' 0 (a :: y)).map (· + s.length) := by
  induction s generalizing k with
  | nil =>
    obtain rfl : k = 0 := Nat.le_zero.1 (le_of_seek h)
    simp
  | cons b s ih =>
    have hbehind : ∀ {k}, (seek look k (s ++ a :: x)).map (· + 1) = some (s.length + 1) →
        k ≤ s.length ∧ (seek look' k (s ++ a :: y)).map (· + 1) =
          (seek look' 0 (a :: y)).map (· + (s.length + 1)) := by
      intro k hmap
      obtain ⟨m, hm, hlen⟩ := Option.map_eq_some_iff.1 hmap
      obtain rfl : m = s.length := Nat.succ.inj hlen
      rw [ih hm, Option.map_map]
      exact ⟨le_of_seek hm, rfl⟩
    rw [List.cons_append, List.length_cons] at h ⊢
    cases k with
    | succ k => exact (hbehind h).2
    | zero =>
      rw [seek] at h ⊢
      cases hlook : look b (s ++ a :: x) with
      | ends m =>
        rw [hlook, hends b _ m hlook] at h
        simp at h
      | passes m =>
        rw [hlook] at h
        obtain ⟨hm, hy⟩ := hbehind h
        rw [hpasses b s m hlook hm]
        exact hy
      | fails =>
        rw [hlook] at h
        cases h

section Groups

variable {k : Kind} {ks x : List Kind} {m : Nat}

theorem passGroup_append_of_le (h : passGroup k (ks ++ x) = .passes m) (hm : m ≤ ks.length)
    (y : List Kind) : passGroup k (ks ++ y) = .passes m := by
  have hend : groupEnd? (k :: ks ++ x) = some m := passGroup_eq_passes_iff.1 h
  exact passGroup_eq_passes_iff.2 (groupEnd?_append_of_lt hend (Nat.lt_succ_of_le hm) y)

theorem endWithGroup_append_of_le (h : endWithGroup k (ks ++ x) = .ends m) (hm : m ≤ ks.length)
    (y : List Kind) : endWithGroup k (ks ++ y) = .ends m := by
  have hend : groupEnd? (k :: ks ++ x) = some m := endWithGroup_eq_ends_iff.1 h
  exact endWithGroup_eq_ends_iff.2 (groupEnd?_append_of_lt hend (Nat.lt_succ_of_le hm) y)

end Groups

/-- A function that ends in the first part of a sequence ends there whatever follows. -/
theorem declarationEnd?_append_of_lt {ks x : List Kind} {n : Nat}
    (h : declarationEnd? (ks ++ x) = some n) (hn : n < ks.length) (y : List Kind) :
    declarationEnd? (ks ++ y) = some n := by
  refine seek_append_of_lt ?_ ?_ h hn
  · intro k ks m hlook hm
    split at hlook
    · exact hlook
    · exact endWithGroup_append_of_le hlook hm y
    · exact absurd hlook (passGroup_ne_ends _ _ m)
    · cases hlook
  · intro k ks m hlook hm
    split at hlook
    · cases hlook
    · exact absurd hlook (endWithGroup_ne_passes _ _ m)
    · exact passGroup_append_of_le hlook hm y
    · exact hlook

/-! ## Headers -/

/-- The words of the header of a type, with what separates them. -/
def Kind.isHeader : Kind → Bool
  | .name | .keyword .extendsWord | .keyword .implementsWord | .comma | .colon => true
  | _ => false

theorem headerEnd?_cons (k : Kind) (ks : List Kind) :
    headerEnd? (k :: ks) = if k = .opener .brace then some 0
      else if k.isHeader then (headerEnd? ks).map (· + 1) else none := by
  rw [headerEnd?, seek]
  split
  case h_1 n hlook =>
    split at hlook
    · simpa using hlook.symm
    all_goals cases hlook
  case h_2 n hlook =>
    split at hlook
    case h_1 => cases hlook
    case h_7 => cases hlook
    all_goals
      cases hlook
      rfl
  case h_3 hlook =>
    split at hlook
    case h_7 hbrace hname hextends himplements hcomma hcolon =>
      rw [if_neg hbrace, if_neg]
      unfold Kind.isHeader
      split <;> simp_all
    all_goals cases hlook

/-- A header ends in front of the first word that belongs to none, so nothing behind that word
counts. -/
theorem headerEnd?_append_of_mem {k : Kind} {ks : List Kind} (hk : k ∈ ks)
    (hheader : k.isHeader = false) (x y : List Kind) :
    headerEnd? (ks ++ x) = headerEnd? (ks ++ y) := by
  induction ks with
  | nil => simp at hk
  | cons l ks ih =>
    rw [List.cons_append, List.cons_append, headerEnd?_cons, headerEnd?_cons]
    rcases List.mem_cons.1 hk with rfl | hk
    · simp [hheader]
    · rw [ih hk]

/-- A header that ends in the first part of a sequence ends there whatever follows. -/
theorem headerEnd?_append_of_lt {ks x : List Kind} {n : Nat} (h : headerEnd? (ks ++ x) = some n)
    (hn : n < ks.length) (y : List Kind) : headerEnd? (ks ++ y) = some n := by
  refine @seek_append_of_lt Kind _ x y ?_ ?_ 0 n ks h hn
  · intro k ks m hlook _
    exact hlook
  · intro k ks m hlook _
    exact hlook

/-! ## Bodies of functions -/

/-- The place of the brace that opens the body of a function. There is none when a semicolon stands
in front of it. Groups in parentheses are passed over. -/
def bodyOffset? : List Kind → Option Nat :=
  seek (fun k ks =>
    match k with
    | .semicolon => .fails
    | .opener .brace => .ends 0
    | .opener .paren => passGroup k ks
    | _ => .passes 0) 0

/-- The body of a function begins with a brace. -/
theorem getElem?_of_bodyOffset? {n : Nat} {ks : List Kind} (h : bodyOffset? ks = some n) :
    ks[n]? = some (.opener .brace) := by
  obtain ⟨before, k, rest, m, rfl, hlook, rfl⟩ := exists_ends_of_seek h
  split at hlook
  · cases hlook
  · cases hlook
    simp
  · exact absurd hlook (passGroup_ne_ends _ _ _)
  · cases hlook

/-- A function with a body ends where the brace of the body is closed. -/
theorem declarationEnd?_of_bodyOffset? {ks x : List Kind}
    (h : bodyOffset? (ks ++ .opener .brace :: x) = some ks.length) (y : List Kind) :
    declarationEnd? (ks ++ .opener .brace :: y) =
      (groupEnd? (.opener .brace :: y)).map (· + ks.length) := by
  have hbrace : declarationEnd? (.opener .brace :: y) = groupEnd? (.opener .brace :: y) := by
    rw [declarationEnd?, seek]
    simp only [endWithGroup]
    cases groupEnd? (.opener .brace :: y) <;> rfl
  rw [← hbrace]
  refine seek_of_passes ?_ ?_ h
  · intro k ks m hlook
    split at hlook
    · cases hlook
    · exact (Look.ends.inj hlook).symm
    · exact absurd hlook (passGroup_ne_ends _ _ m)
    · cases hlook
  · intro k ks m hlook hm
    cases k with
    | semicolon => cases hlook
    | opener b =>
      cases b with
      | brace => cases hlook
      | paren => exact passGroup_append_of_le hlook hm _
      | square => exact hlook
    | _ => exact hlook

end PhpOutline
