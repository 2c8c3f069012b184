import PhpOutline.Proofs.TokenTable.Matching
import PhpOutline.TokenTable.Slices

/-!
# Doc comments of declarations

Going backwards from a declaration, the search for its doc comment passes over white space, comments
and attribute groups. A group is met at its closing bracket, and the way back to its opener counts
brackets as the way forward does, so that both lead from one to the other.

## Main definitions

* `TokenTable.Skips`: what may stand between a doc comment and its declaration.
* `TokenTable.Documents`: a doc comment belongs to a place.
* `TokenTable.attributeStart?`: the opener of the attribute group that a place closes.
* `TokenTable.FindsDocComments`: what it means that doc comments are found.

## Main statements

* `TokenTable.attributeStart?_eq_some_iff`: the ways back and forward lead to each other.
* `TokenTable.docComment?_succ`: one step of the search.
* `TokenTable.Skips.or`: there is only one way back.
* `TokenTable.findsDocComments`: the doc comments of every table are found.
-/

namespace PhpOutline.TokenTable

variable {t : TokenTable} {i j o c : Nat}

/-! ## The way back to an attribute opener -/

/-- The kinds of the tokens from place `i` backwards. -/
def kindsBack (t : TokenTable) (i : Nat) : List Kind :=
  (t.tokens.take (i + 1)).reverse.map Token.kind

/-- The place of the opener of the attribute group that the bracket at place `c` closes. -/
def attributeStart? (t : TokenTable) (c : Nat) : Option Nat :=
  (attributeOffset? 0 (t.kindsBack c)).map (c - ·)

/-- The same with a counter that is checked: there is no answer at all where it would fall below
zero. -/
def attributeStartChecked? (t : TokenTable) (c : Nat) : Option (Option Nat) :=
  (zeroOffset? (fun k => k.closes == some .square) (fun k => k.opens == some .square) 0
    (t.kindsBack c)).map fun r =>
      (r.filter fun n => (t.kindsBack c)[n]? == some .attributeOpener).map (c - ·)

theorem length_take_tokens (hi : i ≤ t.size) : (t.tokens.take i).length = i := by
  rw [List.length_take]
  exact Nat.min_eq_left hi

theorem length_kindsBack (hc : c < t.size) : (t.kindsBack c).length = c + 1 := by
  rw [kindsBack, List.length_map, List.length_reverse, length_take_tokens (Nat.succ_le_of_lt hc)]

theorem getElem?_kindsBack {m : Nat} (hc : c < t.size) (hm : m ≤ c) :
    (t.kindsBack c)[m]? = t.kind? (c - m) := by
  have hlen : (t.tokens.take (c + 1)).length = c + 1 := length_take_tokens hc
  rw [kindsBack, List.getElem?_map, List.getElem?_reverse (by omega), hlen,
    List.getElem?_take_of_lt (by omega), kind?, get?]
  congr 2

/-- The last `m + 1` tokens through a place, backwards. -/
theorem take_kindsBack {m : Nat} (hc : c < t.size) (hm : m ≤ c) :
    (t.kindsBack c).take (m + 1) = (t.kindsThrough (c - m) c).reverse := by
  have hlen : (t.tokens.take (c + 1)).length = c + 1 := length_take_tokens hc
  rw [kindsBack, kindsThrough_eq, ← List.map_take, ← List.map_take, ← List.map_reverse,
    List.take_reverse, hlen, List.drop_take]
  congr 4 <;> omega

/-- Going back from a closing bracket, the counter behind it begins at one. -/
theorem exists_kindsBack_eq (hc : t.kind? c = some (.closer .square)) :
    ∃ ks, t.kindsBack c = .closer .square :: ks ∧ ks.length = c := by
  have hlt := lt_size_of_kind? hc
  have hhead := getElem?_kindsBack hlt (Nat.zero_le c)
  have hlen := length_kindsBack hlt
  rw [Nat.sub_zero, hc] at hhead
  cases hks : t.kindsBack c with
  | nil => simp [hks] at hhead
  | cons k ks =>
    rw [hks] at hhead hlen
    obtain rfl : k = .closer .square := Option.some.inj hhead
    exact ⟨ks, rfl, by simpa using hlen⟩

/-- The counter never falls below zero on the way back from a closing bracket. -/
theorem attributeStartChecked?_eq (hc : t.kind? c = some (.closer .square)) :
    t.attributeStartChecked? c = some (t.attributeStart? c) := by
  obtain ⟨ks, hks, -⟩ := exists_kindsBack_eq hc
  obtain ⟨r, -, hr, hoffset⟩ := zeroOffset?_eq_attributeOffset?_closer ks
  rw [attributeStartChecked?, attributeStart?, hks, hr, hoffset]
  rfl

/-- Going back from a closing bracket, the counter comes to zero at the opener that it closes. -/
theorem firstZero_iff_encloses {ks : List Kind} {m : Nat}
    (hks : t.kindsBack c = .closer .square :: ks) (hc : c < t.size) (hm : m < c)
    (ho : t.opener? (c - (m + 1)) = some .square) :
    FirstZero (fun k => k.closes == some .square) (fun k => k.opens == some .square) 1 ks m ↔
      t.Encloses .square (c - (m + 1)) c := by
  have hlen := length_kindsBack hc
  rw [hks, List.length_cons, Nat.add_right_cancel_iff] at hlen
  have hback : ∀ {n}, n ≤ c →
      (t.kindsThrough (c - n) c).reverse = .closer .square :: ks.take n := by
    intro n hn
    rw [← take_kindsBack hc hn, hks, List.take_succ_cons]
  have hopenings : ∀ {n}, n ≤ c → Bracket.square.openings (t.kindsThrough (c - n) c) =
      Bracket.square.openings (ks.take n) := by
    intro n hn
    rw [← Bracket.openings_reverse, hback hn, Bracket.openings_cons]
    rfl
  have hclosings : ∀ {n}, n ≤ c → Bracket.square.closings (t.kindsThrough (c - n) c) =
      Bracket.square.closings (ks.take n) + 1 := by
    intro n hn
    rw [← Bracket.closings_reverse, hback hn, Bracket.closings_cons]
    rfl
  constructor
  · intro h
    refine encloses_of_lt_closings ho (by omega) hc ?_ ?_
    · rw [hopenings hm, hclosings hm]
      exact h.zero
    · intro i hi hic
      obtain ⟨n, hn, rfl⟩ : ∃ n ≤ m, i = c - n := ⟨c - i, by omega, by omega⟩
      rw [hopenings (by omega), hclosings (by omega)]
      exact h.above n hn
  · intro h
    refine ⟨by omega, ?_, ?_⟩
    · have heven := h.even
      rw [hopenings hm, hclosings hm] at heven
      exact heven
    · intro n hn
      have hlt := h.lt_closings (i := c - n) (by omega) (by omega)
      rw [hopenings (by omega), hclosings (by omega)] at hlt
      exact hlt

/-- The ways back and forward lead from one end of an attribute group to the other. -/
theorem attributeStart?_eq_some_iff (hc : t.kind? c = some (.closer .square)) :
    t.attributeStart? c = some o ↔
      t.kind? o = some .attributeOpener ∧ t.matchingClose? o = some c := by
  have hlt := lt_size_of_kind? hc
  obtain ⟨ks, hks, hlen⟩ := exists_kindsBack_eq hc
  obtain ⟨r, hr, -, hoffset⟩ := zeroOffset?_eq_attributeOffset?_closer ks
  have hdisjoint : ∀ k : Kind, (k.closes == some .square) = true →
      (k.opens == some .square) = false := by
    intro k hk
    rw [Kind.opens_eq_none_of_closes (beq_iff_eq.1 hk)]
    rfl
  have hfirst : ∀ {m}, r = some m ↔
      FirstZero (fun k => k.closes == some .square) (fun k => k.opens == some .square) 1 ks m := by
    intro m
    rw [← zeroOffset?_eq_some_iff hdisjoint Nat.one_pos, hr, Option.some.injEq]
  have hopener : ∀ {o}, t.kind? o = some .attributeOpener → t.opener? o = some .square := by
    intro o ho
    rw [opener?, ho]
    rfl
  rw [attributeStart?, hks, hoffset, ← hks, Option.map_eq_some_iff]
  constructor
  · rintro ⟨n, hn, rfl⟩
    obtain ⟨hsome, hkind⟩ := Option.filter_eq_some_iff.1 hn
    obtain ⟨m, hm, rfl⟩ := Option.map_eq_some_iff.1 hsome
    have hzero := hfirst.1 hm
    have hmc : m < c := hlen ▸ hzero.lt
    rw [getElem?_kindsBack hlt hmc, beq_iff_eq] at hkind
    refine ⟨hkind, matchingClose?_iff_encloses.2 ⟨.square, ?_⟩⟩
    exact (firstZero_iff_encloses hks hlt hmc (hopener hkind)).1 hzero
  · rintro ⟨ho, hclose⟩
    have henc := encloses_of_matchingClose? hclose (hopener ho)
    obtain ⟨m, hm⟩ : ∃ m, m + 1 = c - o := ⟨c - o - 1, by have := henc.behind; omega⟩
    have hmc : m < c := by omega
    have hback : c - (m + 1) = o := by
      have := henc.behind
      omega
    rw [← hback] at ho henc
    refine ⟨m + 1, Option.filter_eq_some_iff.2 ⟨?_, ?_⟩, hback⟩
    · rw [hfirst.2 ((firstZero_iff_encloses hks hlt hmc henc.opens).2 henc)]
      rfl
    · rw [getElem?_kindsBack hlt hmc, ho]
      rfl

/-! ## The search -/

/-- What is passed over may be dropped. -/
theorem docCommentBack?_eq_drop (n : Nat) (ts : List Token) :
    docCommentBack? n ts = docCommentBack? 0 (ts.drop n) := by
  induction ts generalizing n with
  | nil => cases n <;> rfl
  | cons x ts ih =>
    cases n with
    | zero => rfl
    | succ n => exact ih n

theorem docCommentBack?_drop_reverse (t : TokenTable) (hi : i ≤ t.size) (n : Nat) :
    docCommentBack? n (t.tokens.take i).reverse = t.docComment? (i - n) := by
  rw [docCommentBack?_eq_drop, docComment?, List.drop_reverse, length_take_tokens hi,
    List.take_take, Nat.min_eq_left (Nat.sub_le i n)]

theorem reverse_take_succ {x : Token} (hx : t.get? i = some x) :
    (t.tokens.take (i + 1)).reverse = x :: (t.tokens.take i).reverse := by
  obtain ⟨hi, rfl⟩ := List.getElem?_eq_some_iff.1 hx
  rw [List.take_succ_eq_append_getElem hi, List.reverse_append]
  rfl

/-- One step of the search. From the end of an attribute group it goes on in front of its
opener. -/
theorem docComment?_succ {x : Token} (hx : t.get? i = some x) :
    t.docComment? (i + 1) =
      match x.kind with
      | .docComment => some x.text
      | .whitespace | .comment => t.docComment? i
      | .closer .square => (t.attributeStart? i).bind t.docComment?
      | _ => none := by
  have hi : i < t.size := (List.getElem?_eq_some_iff.1 hx).1
  have hkinds : (x :: (t.tokens.take i).reverse).map Token.kind = t.kindsBack i := by
    rw [kindsBack, reverse_take_succ hx]
  rw [docComment?, reverse_take_succ hx, docCommentBack?, hkinds, attributeStart?]
  generalize x.kind = k
  cases k with
  | docComment => rfl
  | whitespace | comment => exact docCommentBack?_drop_reverse t hi.le 0
  | closer b =>
    cases b with
    | square =>
      cases attributeOffset? 0 (t.kindsBack i) with
      | none => rfl
      | some n => exact docCommentBack?_drop_reverse t hi.le n
    | brace | paren => rfl
  | _ => rfl

/-- White space, comments and complete attribute groups, and nothing else, stand from place `j` up
to place `i`. -/
inductive Skips (t : TokenTable) (j : Nat) : (i : Nat) → Prop
  | nil : Skips t j j
  | trivia {i : Nat} : Skips t j i → t.kind? i = some .whitespace ∨ t.kind? i = some .comment →
      Skips t j (i + 1)
  | group {o c : Nat} : Skips t j o → t.kind? o = some .attributeOpener →
      t.matchingClose? o = some c → Skips t j (c + 1)

theorem get?_of_kind? {k : Kind} (h : t.kind? i = some k) : ∃ x, t.get? i = some x ∧ x.kind = k :=
  Option.map_eq_some_iff.1 h

theorem kind?_of_get? {x : Token} (h : t.get? i = some x) : t.kind? i = some x.kind := by
  rw [kind?, h]
  rfl

theorem kind?_of_matchingClose?_attribute (ho : t.kind? o = some .attributeOpener)
    (h : t.matchingClose? o = some c) : o < c ∧ t.kind? c = some (.closer .square) := by
  have hopens : t.opener? o = some .square := by
    rw [opener?, ho]
    rfl
  have henc := encloses_of_matchingClose? h hopens
  exact ⟨henc.behind, henc.closes⟩

/-- The search finds a doc comment behind which only that stands which may stand there. -/
theorem docComment?_eq_some_iff (hi : i ≤ t.size) {s : Text} :
    t.docComment? i = some s ↔
      ∃ j, t.kind? j = some .docComment ∧ t.Skips (j + 1) i ∧ t.text j = s := by
  constructor
  · intro h
    induction i using Nat.strong_induction_on with
    | _ i ih =>
      cases i with
      | zero => cases h
      | succ i =>
        obtain ⟨x, hx⟩ : ∃ x, t.get? i = some x := ⟨_, List.getElem?_eq_getElem hi⟩
        have hkind := kind?_of_get? hx
        rw [docComment?_succ hx] at h
        split at h
        · rename_i hdoc
          refine ⟨i, hkind.trans (congrArg some hdoc), .nil, ?_⟩
          rw [text, hx]
          exact Option.some.inj h
        · rename_i hspace
          obtain ⟨j, hj, hskips, hs⟩ := ih i (Nat.lt_add_one i) (Nat.le_of_succ_le hi) h
          exact ⟨j, hj, hskips.trivia (.inl (hkind.trans (congrArg some hspace))), hs⟩
        · rename_i hcomment
          obtain ⟨j, hj, hskips, hs⟩ := ih i (Nat.lt_add_one i) (Nat.le_of_succ_le hi) h
          exact ⟨j, hj, hskips.trivia (.inr (hkind.trans (congrArg some hcomment))), hs⟩
        · rename_i hcloser
          obtain ⟨o, ho, hdoc⟩ := Option.bind_eq_some_iff.1 h
          rw [attributeStart?_eq_some_iff (hkind.trans (congrArg some hcloser))] at ho
          have hlt := (kind?_of_matchingClose?_attribute ho.1 ho.2).1
          obtain ⟨j, hj, hskips, hs⟩ := ih o (by omega) (by omega) hdoc
          exact ⟨j, hj, hskips.group ho.1 ho.2, hs⟩
        · cases h
  · rintro ⟨j, hj, hskips, hs⟩
    induction hskips with
    | nil =>
      obtain ⟨x, hx, hdoc⟩ := get?_of_kind? hj
      rw [docComment?_succ hx, hdoc, ← hs, text, hx]
      rfl
    | trivia _ hk ih =>
      have hrest := ih (Nat.le_of_succ_le hi)
      rcases hk with hk | hk
      · obtain ⟨x, hx, hspace⟩ := get?_of_kind? hk
        rw [docComment?_succ hx, hspace]
        exact hrest
      · obtain ⟨x, hx, hcomment⟩ := get?_of_kind? hk
        rw [docComment?_succ hx, hcomment]
        exact hrest
    | group _ ho hclose ih =>
      obtain ⟨hlt, hcloser⟩ := kind?_of_matchingClose?_attribute ho hclose
      obtain ⟨x, hx, hk⟩ := get?_of_kind? hcloser
      have hback := (attributeStart?_eq_some_iff hcloser).2 ⟨ho, hclose⟩
      rw [docComment?_succ hx, hk]
      simp only [hback, Option.bind_some]
      exact ih (by omega)

/-! ## The way back is the only one -/

theorem Skips.le (h : t.Skips j i) : j ≤ i := by
  induction h with
  | nil => exact Nat.le_refl j
  | trivia _ _ ih => exact Nat.le_succ_of_le ih
  | group _ ho hclose ih =>
    have hlt := (kind?_of_matchingClose?_attribute ho hclose).1
    omega

/-- Of two ways back from a place, one leads on from the other. -/
theorem Skips.or {k : Nat} (h : t.Skips i k) (h' : t.Skips j k) : t.Skips i j ∨ t.Skips j i := by
  induction h with
  | nil => exact .inr h'
  | @trivia k h hk ih =>
    cases h' with
    | nil => exact .inl (h.trivia hk)
    | trivia h' _ => exact ih h'
    | group _ ho hclose =>
      have hcloser := (kind?_of_matchingClose?_attribute ho hclose).2
      simp [hcloser] at hk
  | group h ho hclose ih =>
    have hcloser := (kind?_of_matchingClose?_attribute ho hclose).2
    cases h' with
    | nil => exact .inl (h.group ho hclose)
    | trivia _ hk => simp [hcloser] at hk
    | group h' ho' hclose' =>
      have hback := (attributeStart?_eq_some_iff hcloser).2 ⟨ho, hclose⟩
      have hback' := (attributeStart?_eq_some_iff hcloser).2 ⟨ho', hclose'⟩
      obtain rfl := Option.some.inj (hback.symm.trans hback')
      exact ih h'

/-- A doc comment is never passed over as a whole. -/
theorem Skips.not_docComment (h : t.Skips i (j + 1)) (hj : t.kind? j = some .docComment) :
    i = j + 1 := by
  generalize hk : j + 1 = k at h
  cases h with
  | nil => rfl
  | trivia _ htrivia =>
    obtain rfl := Nat.succ.inj hk
    simp [hj] at htrivia
  | group _ ho hclose =>
    obtain rfl := Nat.succ.inj hk
    have hcloser := (kind?_of_matchingClose?_attribute ho hclose).2
    simp [hj] at hcloser

/-! ## Every table -/

/-- Place `j` holds the last doc comment before place `i` behind which only that stands which may
stand between a doc comment and its declaration. -/
structure Documents (t : TokenTable) (j i : Nat) : Prop where
  kind : t.kind? j = some .docComment
  before : j < i
  skips : t.Skips (j + 1) i
  last : ∀ j', t.kind? j' = some .docComment → j' < i → t.Skips (j' + 1) i → j' ≤ j

theorem documents_iff :
    t.Documents j i ↔ t.kind? j = some .docComment ∧ t.Skips (j + 1) i := by
  constructor
  · intro h
    exact ⟨h.kind, h.skips⟩
  · rintro ⟨hj, hskips⟩
    refine ⟨hj, hskips.le, hskips, ?_⟩
    intro j' hj' _ hskips'
    rcases hskips.or hskips' with h | h
    · exact (Nat.succ.inj (h.not_docComment hj')).ge
    · exact (Nat.succ.inj (h.not_docComment hj)).le

/-- The doc comments of a table are found. -/
structure FindsDocComments (t : TokenTable) : Prop where
  /-- What is found is the text of the doc comment that belongs to a place, if there is one. -/
  found : ∀ i ≤ t.size, ∀ s, t.docComment? i = some s ↔ ∃ j, t.Documents j i ∧ t.text j = s
  /-- Nothing is found where no doc comment belongs to a place. -/
  missing : ∀ i ≤ t.size, t.docComment? i = none ↔ ∀ j, ¬t.Documents j i
  /-- The ways back and forward lead from one end of an attribute group to the other. -/
  back : ∀ c, t.kind? c = some (.closer .square) → ∀ o,
    t.attributeStart? c = some o ↔
      t.kind? o = some .attributeOpener ∧ t.matchingClose? o = some c
  /-- The counter never falls below zero on the way back. -/
  counted : ∀ c, t.kind? c = some (.closer .square) →
    t.attributeStartChecked? c = some (t.attributeStart? c)

/-- The doc comments of every table are found. -/
theorem findsDocComments (t : TokenTable) : t.FindsDocComments where
  found := by
    intro i hi s
    rw [docComment?_eq_some_iff hi]
    simp only [documents_iff, and_assoc]
  missing := by
    intro i hi
    rw [Option.eq_none_iff_forall_ne_some]
    simp only [ne_eq, docComment?_eq_some_iff hi, documents_iff]
    constructor
    · intro h j hj
      exact h _ ⟨j, hj.1, hj.2, rfl⟩
    · rintro h s ⟨j, hj, hskips, -⟩
      exact h j ⟨hj, hskips⟩
  back := fun _ hc _ => attributeStart?_eq_some_iff hc
  counted := fun _ hc => attributeStartChecked?_eq hc

end PhpOutline.TokenTable
