import PhpOutline.TokenTable.Basic

/-!
# Properly nested brackets

Every walk over brackets counts some of them and is blind to the others. On properly nested brackets
all walks agree: each one passes over a bracket and what it holds as a whole.

## Main definitions

* `Nested`: kinds of tokens whose brackets are properly nested, with a condition on those outside
  all brackets.
* `Nested.check`: the check with a stack of open brackets that decides it.

## Main statements

* `Nested.closeOffset?_append`, `groupEnd?_group`: a bracket is closed by its own partner.
* `Nested.seek_append`: a search that passes over bracket groups passes over nested brackets.
* `Nested.splitCommas_append`: nested brackets stay in one part of a comma-separated list.
-/

namespace PhpOutline

/-- Kinds of tokens whose brackets are properly nested. The condition holds of every kind outside
all brackets, the outermost opening brackets included. -/
inductive Nested : (Kind → Prop) → List Kind → Prop where
  | nil {P : Kind → Prop} : Nested P []
  | plain {P : Kind → Prop} {k : Kind} {ks : List Kind} (hk : P k) (ho : k.opens = none)
    (hc : k.closes = none) (hks : Nested P ks) : Nested P (k :: ks)
  | group {P : Kind → Prop} {o c : Kind} {b : Bracket} {inner ks : List Kind} (hk : P o)
    (ho : o.opens = some b) (hinner : Nested (fun _ => True) inner) (hc : c.closes = some b)
    (hks : Nested P ks) : Nested P (o :: (inner ++ c :: ks))

namespace Nested

variable {P Q : Kind → Prop} {ks : List Kind}

theorem mono (h : Nested P ks) (hPQ : ∀ k, P k → Q k) : Nested Q ks := by
  induction h with
  | nil => exact .nil
  | plain hk ho hc _ ih => exact .plain (hPQ _ hk) ho hc (ih hPQ)
  | group hk ho hinner hc _ _ ih => exact .group (hPQ _ hk) ho hinner hc (ih hPQ)

theorem append (h : Nested P ks) {ls : List Kind} (hl : Nested P ls) : Nested P (ks ++ ls) := by
  induction h with
  | nil => exact hl
  | plain hk ho hc _ ih => exact .plain hk ho hc (ih hl)
  | group hk ho hinner hc _ _ ih =>
    rw [List.cons_append, List.append_assoc, List.cons_append]
    exact .group hk ho hinner hc (ih hl)

/-- What is neither opener nor closer may be left out. -/
theorem filter (h : Nested P ks) {p : Kind → Bool}
    (hp : ∀ k, p k = false → k.opens = none ∧ k.closes = none) : Nested P (ks.filter p) := by
  have keeps : ∀ k b, k.opens = some b ∨ k.closes = some b → p k = true := by
    intro k b hk
    cases hpk : p k with
    | true => rfl
    | false =>
      have := hp k hpk
      rcases hk with hk | hk <;> simp [hk] at this
  induction h with
  | nil => exact .nil
  | @plain P k ks hk ho hc _ ih =>
    rw [List.filter_cons]
    split
    · exact .plain hk ho hc ih
    · exact ih
  | group hk ho _ hc _ ihinner ih =>
    rw [List.filter_cons_of_pos (keeps _ _ (.inl ho)), List.filter_append,
      List.filter_cons_of_pos (keeps _ _ (.inr hc))]
    exact .group hk ho ihinner hc ih

/-- Insignificant tokens may be left out. -/
theorem filter_significant (h : Nested P ks) :
    Nested P (ks.filter fun k => !k.isInsignificant) := by
  refine h.filter ?_
  intro k hk
  exact Kind.no_bracket_of_isInsignificant (by simpa using hk)

/-! ## Deciding whether brackets are nested -/

/-- Whether brackets are properly nested when some are open before them, the innermost first. -/
def check (P : Kind → Prop) [DecidablePred P] : List Bracket → List Kind → Bool
  | stack, [] => stack.isEmpty
  | stack, k :: ks =>
    match k.opens, k.closes, stack with
    | some b, _, _ => (!stack.isEmpty || P k) && check P (b :: stack) ks
    | none, some b, c :: stack => b == c && check P stack ks
    | none, some _, [] => false
    | none, none, _ => (!stack.isEmpty || P k) && check P stack ks

section

variable [DecidablePred P] {k : Kind} {b : Bracket} {stack : List Bracket}

theorem check_cons_of_opens (h : k.opens = some b) :
    check P stack (k :: ks) = ((!stack.isEmpty || P k) && check P (b :: stack) ks) := by
  simp only [check, h]

theorem check_cons_of_closes (h : k.closes = some b) :
    check P (b :: stack) (k :: ks) = check P stack ks := by
  simp [check, h]

theorem check_cons_of_plain (ho : k.opens = none) (hc : k.closes = none) :
    check P stack (k :: ks) = ((!stack.isEmpty || P k) && check P stack ks) := by
  simp only [check, ho, hc]

/-- The check passes over what is nested. -/
theorem check_append (h : Nested Q ks) (hQ : stack = [] → ∀ k, Q k → P k) (rest : List Kind) :
    check P stack (ks ++ rest) = check P stack rest := by
  have hhead : ∀ {R : Kind → Prop} {k : Kind} {stack : List Bracket}, R k →
      (stack = [] → ∀ k, R k → P k) → (!stack.isEmpty || decide (P k)) = true := by
    intro R k stack hk hR
    cases stack with
    | nil => simpa using hR rfl k hk
    | cons b stack => simp
  induction h generalizing stack rest with
  | nil => rfl
  | plain hk ho hc _ ih =>
    rw [List.cons_append, check_cons_of_plain ho hc, hhead hk hQ, Bool.true_and, ih hQ]
  | group hk ho _ hc _ ihinner ih =>
    rw [List.cons_append, List.append_assoc, List.cons_append, check_cons_of_opens ho,
      hhead hk hQ, Bool.true_and, ihinner (by simp), check_cons_of_closes hc, ih hQ]

/-- With a bracket open, the check finds its partner behind nested brackets. -/
theorem exists_of_check (h : check P (b :: stack) ks = true) :
    ∃ inner c rest, ks = inner ++ c :: rest ∧ Nested (fun _ => True) inner ∧
      c.closes = some b ∧ check P stack rest = true := by
  induction hn : ks.length using Nat.strongRecOn generalizing ks b stack with
  | ind n ih =>
    cases ks with
    | nil => simp [check] at h
    | cons k ks =>
      rw [List.length_cons] at hn
      cases ho : k.opens with
      | some b' =>
        rw [check_cons_of_opens ho, Bool.and_eq_true] at h
        obtain ⟨inner, c, rest, rfl, hinner, hc, hrest⟩ := ih _ (by omega) h.2 rfl
        have hlt : rest.length < n := by
          simp only [List.length_append, List.length_cons] at hn
          omega
        obtain ⟨inner', c', rest', rfl, hinner', hc', hrest'⟩ := ih _ hlt hrest rfl
        exact ⟨k :: (inner ++ c :: inner'), c', rest', by simp, .group trivial ho hinner hc hinner',
          hc', hrest'⟩
      | none =>
        cases hc : k.closes with
        | some b' =>
          simp only [check, ho, hc, Bool.and_eq_true, beq_iff_eq] at h
          exact ⟨[], k, ks, rfl, .nil, by rw [hc, h.1], h.2⟩
        | none =>
          rw [check_cons_of_plain ho hc, Bool.and_eq_true] at h
          obtain ⟨inner, c, rest, rfl, hinner, hclose, hrest⟩ := ih _ (by omega) h.2 rfl
          exact ⟨k :: inner, c, rest, rfl, .plain trivial ho hc hinner, hclose, hrest⟩

theorem of_check (h : check P [] ks = true) : Nested P ks := by
  induction hn : ks.length using Nat.strongRecOn generalizing ks with
  | ind n ih =>
    cases ks with
    | nil => exact .nil
    | cons k ks =>
      rw [List.length_cons] at hn
      cases ho : k.opens with
      | some b =>
        rw [check_cons_of_opens ho, Bool.and_eq_true] at h
        obtain ⟨inner, c, rest, rfl, hinner, hc, hrest⟩ := exists_of_check h.2
        have hlt : rest.length < n := by
          simp only [List.length_append, List.length_cons] at hn
          omega
        exact .group (by simpa using h.1) ho hinner hc (ih _ hlt hrest rfl)
      | none =>
        cases hc : k.closes with
        | some b =>
          simp [check, hc] at h
        | none =>
          rw [check_cons_of_plain ho hc, Bool.and_eq_true] at h
          exact .plain (by simpa using h.1) ho hc (ih _ (by omega) h.2 rfl)

theorem check_eq_true (h : Nested P ks) : check P [] ks = true := by
  have hpass : check P [] (ks ++ []) = check P [] [] := h.check_append (fun _ _ hk => hk) []
  rw [List.append_nil] at hpass
  rw [hpass]
  rfl

instance : Decidable (Nested P ks) :=
  decidable_of_iff (check P [] ks = true) ⟨of_check, check_eq_true⟩

end

/-! ## Closing brackets -/

/-- The walk to a closing bracket passes over nested brackets. -/
theorem closeOffset?_append (h : Nested P ks) (b : Bracket) {depth : Nat} (hd : 0 < depth)
    (rest : List Kind) :
    closeOffset? b depth (ks ++ rest) = (closeOffset? b depth rest).map (· + ks.length) := by
  induction h generalizing depth rest with
  | nil => simp
  | plain _ ho hc _ ih =>
    rw [List.cons_append, closeOffset?, if_neg (by simp [ho]), if_neg (by simp [hc]), ih hd,
      Option.map_map]
    rfl
  | @group P o c b' inner ks _ ho _ hc _ ihinner ih =>
    have hco : c.opens = none := Kind.opens_eq_none_of_closes hc
    have hoc : o.closes = none := by
      cases o <;> simp_all [Kind.opens, Kind.closes]
    have hlen : ∀ n, n + ks.length + 1 + inner.length + 1 =
        n + (o :: (inner ++ c :: ks)).length := by
      intro n
      simp only [List.length_cons, List.length_append]
      omega
    rw [List.cons_append, List.append_assoc, List.cons_append, closeOffset?]
    by_cases hb : b' = b
    · -- a bracket of the pair that is counted: one more is open inside, and closed again behind
      subst hb
      rw [if_pos ho, ihinner (Nat.succ_pos depth), closeOffset?, if_neg (by simp [hco]), if_pos hc,
        if_neg (by omega), Nat.succ_sub_one, ih hd]
      simp only [Option.map_map]
      congr 1
      funext n
      exact hlen n
    · have hb' : ¬ some b' = some b := by simpa using hb
      rw [if_neg (by rw [ho]; exact hb'), if_neg (by simp [hoc]), ihinner hd, closeOffset?,
        if_neg (by simp [hco]), if_neg (by rw [hc]; exact hb'), ih hd]
      simp only [Option.map_map]
      congr 1
      funext n
      exact hlen n

end Nested

/-- A bracket around nested brackets is closed by its own partner. -/
theorem groupEnd?_group {o c : Kind} {b : Bracket} {P : Kind → Prop} {inner : List Kind}
    (ho : o.opens = some b) (hinner : Nested P inner) (hc : c.closes = some b)
    (rest : List Kind) : groupEnd? (o :: (inner ++ c :: rest)) = some (inner.length + 1) := by
  have hco : c.opens = none := Kind.opens_eq_none_of_closes hc
  rw [groupEnd?, ho, Option.bind_some, closeOffset?, if_pos ho, Nat.zero_add,
    hinner.closeOffset?_append b Nat.one_pos, closeOffset?, if_neg (by simp [hco]), if_pos hc,
    if_pos (Nat.le_refl 1)]
  simp

/-! ## Searches that pass over groups -/

namespace Nested

variable {α : Type} {P : Kind → Prop}

/-- A search that goes from item to item, and passes over a bracket group as a whole, passes over
nested brackets. -/
theorem seek_append {look : α → List α → Look} {kindOf : α → Kind}
    (hplain : ∀ a s, P (kindOf a) → (kindOf a).opens = none → look a s = .passes 0)
    (hgroup : ∀ a s, P (kindOf a) → (kindOf a).opens ≠ none →
      look a s = passGroup (kindOf a) (s.map kindOf))
    {items : List α} (h : Nested P (items.map kindOf)) (rest : List α) :
    seek look 0 (items ++ rest) = (seek look 0 rest).map (· + items.length) := by
  generalize hks : items.map kindOf = ks at h
  induction h generalizing items with
  | nil =>
    rw [List.map_eq_nil_iff] at hks
    simp [hks]
  | plain hk ho hc _ ih =>
    obtain ⟨a, items, rfl, rfl, hrest⟩ := List.map_eq_cons_iff.1 hks
    rw [List.cons_append, seek, hplain a _ hk ho]
    simp only
    rw [ih hplain hgroup hrest, Option.map_map]
    rfl
  | @group P o c b inner ks hk ho hinner hc _ _ ih =>
    obtain ⟨a, tail, rfl, rfl, htail⟩ := List.map_eq_cons_iff.1 hks
    obtain ⟨inside, behind, rfl, rfl, hbehind⟩ := List.map_eq_append_iff.1 htail
    obtain ⟨z, items, rfl, rfl, hrest⟩ := List.map_eq_cons_iff.1 hbehind
    have hend := groupEnd?_group ho hinner hc ((items ++ rest).map kindOf)
    have hlook : look a (inside ++ z :: (items ++ rest)) = .passes (inside.length + 1) := by
      rw [hgroup a _ hk (by simp [ho]), passGroup]
      simp only [List.map_append, List.map_cons, List.length_map] at hend ⊢
      rw [hend]
    rw [List.cons_append, List.append_assoc, List.cons_append, seek, hlook]
    simp only
    rw [seek_eq_drop, List.drop_append]
    simp only [Nat.add_sub_cancel_left, List.drop_succ_cons, List.drop_zero,
      List.drop_eq_nil_of_le (Nat.le_succ inside.length), List.nil_append]
    rw [ih hplain hgroup hrest]
    simp only [Option.map_map]
    congr 1
    funext n
    simp only [Function.comp_apply, List.length_cons, List.length_append]
    omega

/-- A statement goes on over nested brackets without a semicolon or brace outside them. -/
theorem statementEnd?_append {ks : List Kind}
    (h : Nested (fun k => k ≠ .semicolon ∧ k ≠ .opener .brace) ks) (rest : List Kind) :
    statementEnd? (ks ++ rest) = (statementEnd? rest).map (· + ks.length) := by
  rw [statementEnd?]
  rw [← List.map_id ks] at h
  refine h.seek_append ?_ ?_ rest
  · rintro k ks ⟨hsemi, hbrace⟩ ho
    cases k <;> simp_all [Kind.opens]
  · rintro k ks ⟨hsemi, hbrace⟩ ho
    rcases k with _ | _ | _ | _ | _ | _ | _ | _ | _ | _ | _ | ⟨_ | _ | _⟩ | _ <;>
      simp_all [Kind.opens]

end Nested

namespace Entry

/-! ## Comma-separated lists -/

/-- Nested brackets stay in one part of a list when a bracket is open around them, or when no comma
stands outside them. -/
theorem splitCommas_append {P : Kind → Prop} {es : List Entry} (h : Nested P (kinds es))
    {depth : Nat} (hcomma : ∀ k, P k → k = .comma → 0 < depth) {rest : List Entry}
    {g : List Entry} {gs : List (List Entry)} (hrest : splitCommas depth rest = g :: gs) :
    splitCommas depth (es ++ rest) = (es ++ g) :: gs := by
  generalize hks : kinds es = ks at h
  induction h generalizing es depth rest g with
  | nil =>
    have : es = [] := List.map_eq_nil_iff.1 hks
    simpa [this] using hrest
  | plain hk ho hc _ ih =>
    obtain ⟨e, es, rfl, rfl, htail⟩ := List.map_eq_cons_iff.1 hks
    have hnot : ¬ (e.kind = .comma ∧ depth = 0) := by
      rintro ⟨hcom, rfl⟩
      exact absurd (hcomma _ hk hcom) (by simp)
    have hdepth : depthAfter depth e.kind = depth := by
      simp [depthAfter, ho, hc]
    rw [List.cons_append, splitCommas, if_neg hnot, hdepth, ih hcomma hrest htail]
    rfl
  | @group P o c b inner ks hk ho hinner hc _ ihinner ih =>
    obtain ⟨e, tail, rfl, rfl, htail⟩ := List.map_eq_cons_iff.1 hks
    obtain ⟨inside, behind, rfl, rfl, hbehind⟩ := List.map_eq_append_iff.1 htail
    obtain ⟨z, es, rfl, rfl, hrest'⟩ := List.map_eq_cons_iff.1 hbehind
    have hco : z.kind.opens = none := Kind.opens_eq_none_of_closes hc
    have hopen : depthAfter depth e.kind = depth + 1 := by
      simp [depthAfter, ho]
    have hclose : depthAfter (depth + 1) z.kind = depth := by
      simp [depthAfter, hc]
    have hnot : ¬ (e.kind = .comma ∧ depth = 0) := by
      rintro ⟨hcom, -⟩
      simp [hcom, Kind.opens] at ho
    have hz : splitCommas (depth + 1) (z :: (es ++ rest)) = (z :: (es ++ g)) :: gs := by
      rw [splitCommas, if_neg (by simp), hclose, ih hcomma hrest hrest']
    have hin := ihinner (fun _ _ _ => Nat.succ_pos depth) hz rfl
    rw [List.cons_append, List.append_assoc, List.cons_append, splitCommas, if_neg hnot, hopen,
      hin]
    simp

end Entry

end PhpOutline
