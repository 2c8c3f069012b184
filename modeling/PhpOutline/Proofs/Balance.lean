import Mathlib.Data.List.Infix
import PhpOutline.Nesting

/-!
# Balanced brackets

The walk to a closing bracket counts the brackets of one pair and nothing else. Where these are
balanced, whatever else stands between them, the walk passes over them.

## Main definitions

* `Bracket.openings`, `Bracket.closings`: how often a bracket of a pair is opened and closed.
* `Bracket.Balanced`: no bracket is closed before it is opened, and all are closed in the end.

## Main statements

* `closeOffset?_of_closings`: the walk ends where the counts meet.
* `Bracket.Balanced.of_filter`: what is no bracket may stand anywhere between balanced ones.
* `Bracket.Balanced.groupEnd?_eq`: a bracket is closed behind balanced ones.
-/

namespace PhpOutline

namespace Bracket

/-- How often a bracket of a pair is opened. -/
def openings (b : Bracket) (ks : List Kind) : Nat := ks.countP fun k => k.opens == some b

/-- How often a bracket of a pair is closed. -/
def closings (b : Bracket) (ks : List Kind) : Nat := ks.countP fun k => k.closes == some b

/-- No more brackets of a pair are closed than have been opened, and in the end as many. -/
structure Balanced (b : Bracket) (ks : List Kind) : Prop where
  within : ∀ front ∈ ks.inits, b.closings front ≤ b.openings front
  total : b.closings ks = b.openings ks

variable {b : Bracket} {k : Kind} {ks : List Kind}

@[simp] theorem openings_nil : b.openings [] = 0 := rfl

@[simp] theorem closings_nil : b.closings [] = 0 := rfl

theorem openings_cons :
    b.openings (k :: ks) = b.openings ks + if k.opens = some b then 1 else 0 := by
  simp [openings, List.countP_cons]

theorem closings_cons :
    b.closings (k :: ks) = b.closings ks + if k.closes = some b then 1 else 0 := by
  simp [closings, List.countP_cons]

theorem openings_cons_of_opens (h : k.opens = some b) :
    b.openings (k :: ks) = b.openings ks + 1 := by
  rw [openings_cons, if_pos h]

theorem closings_cons_of_opens (h : k.opens = some b) : b.closings (k :: ks) = b.closings ks := by
  have hcloses : k.closes ≠ some b := by
    intro hc
    simp [Kind.opens_eq_none_of_closes hc] at h
  rw [closings_cons, if_neg hcloses, Nat.add_zero]

theorem openings_append (ks ls : List Kind) :
    b.openings (ks ++ ls) = b.openings ks + b.openings ls :=
  List.countP_append

theorem closings_append (ks ls : List Kind) :
    b.closings (ks ++ ls) = b.closings ks + b.closings ls :=
  List.countP_append

@[simp] theorem openings_reverse (ks : List Kind) : b.openings ks.reverse = b.openings ks :=
  List.countP_reverse

@[simp] theorem closings_reverse (ks : List Kind) : b.closings ks.reverse = b.closings ks :=
  List.countP_reverse

end Bracket

/-- With `d` brackets of a pair open around them, brackets of which at most `d` are closed too
often, and `d` in the end, are passed over up to the next closing one. -/
theorem closeOffset?_of_closings {b : Bracket} {d : Nat} {ks : List Kind}
    (hwithin : ∀ front ∈ ks.inits, b.closings front ≤ b.openings front + d)
    (htotal : b.closings ks = b.openings ks + d) {c : Kind} (hc : c.closes = some b)
    (x : List Kind) : closeOffset? b (d + 1) (ks ++ c :: x) = some ks.length := by
  have hopens : c.opens = none := Kind.opens_eq_none_of_closes hc
  induction ks generalizing d with
  | nil =>
    obtain rfl : d = 0 := by simpa using htotal.symm
    rw [List.nil_append, closeOffset?, if_neg (by simp [hopens]), if_pos hc,
      if_pos (Nat.le_refl 1)]
    rfl
  | cons k ks ih =>
    have hfront : ∀ front ∈ ks.inits, b.closings (k :: front) ≤ b.openings (k :: front) + d := by
      intro front hmem
      apply hwithin
      rw [List.mem_inits] at hmem ⊢
      exact List.cons_prefix_cons.2 ⟨rfl, hmem⟩
    simp only [Bracket.openings_cons, Bracket.closings_cons] at hfront htotal
    rw [List.cons_append, closeOffset?, List.length_cons]
    by_cases ho : k.opens = some b
    · have hclose : k.closes ≠ some b := by
        intro hclose
        simp [Kind.opens_eq_none_of_closes hclose] at ho
      simp only [if_pos ho, if_neg hclose] at hfront htotal ⊢
      rw [ih]
      · rfl
      · intro front hmem
        have := hfront front hmem
        omega
      · omega
    · by_cases hclose : k.closes = some b
      · simp only [if_neg ho, if_pos hclose] at hfront htotal ⊢
        have hpos : 0 < d := by
          have := hfront [] (by simp)
          simp at this
          omega
        obtain ⟨d, rfl⟩ := Nat.exists_eq_succ_of_ne_zero (Nat.ne_of_gt hpos)
        rw [if_neg (by omega), Nat.add_sub_cancel, ih]
        · rfl
        · intro front hmem
          have := hfront front hmem
          omega
        · omega
      · simp only [if_neg ho, if_neg hclose, Nat.add_zero] at hfront htotal ⊢
        rw [ih hfront htotal]
        rfl

namespace Bracket.Balanced

variable {b : Bracket} {ks : List Kind}

/-- What is neither opener nor closer may stand between balanced brackets. -/
theorem of_filter {p : Kind → Bool} (hp : ∀ k, p k = false → k.opens = none ∧ k.closes = none)
    (h : b.Balanced (ks.filter p)) : b.Balanced ks := by
  have hcount : ∀ {q : Kind → Bool}, (∀ k, p k = false → q k = false) →
      ∀ ks : List Kind, (ks.filter p).countP q = ks.countP q := by
    intro q hq ks
    rw [List.countP_filter]
    refine List.countP_congr fun k _ => ?_
    cases hk : p k with
    | true => simp
    | false => simp [hq k hk]
  have hopen : ∀ ks, b.openings (ks.filter p) = b.openings ks :=
    hcount fun k hk => by simp [(hp k hk).1]
  have hclose : ∀ ks, b.closings (ks.filter p) = b.closings ks :=
    hcount fun k hk => by simp [(hp k hk).2]
  constructor
  · intro front hfront
    rw [← hopen, ← hclose]
    exact h.within _ ((List.mem_inits _ _).2 (((List.mem_inits _ _).1 hfront).filter p))
  · rw [← hopen, ← hclose]
    exact h.total

/-- A bracket is closed behind balanced ones. -/
theorem closeOffset?_eq (h : b.Balanced ks) {c : Kind} (hc : c.closes = some b) (x : List Kind) :
    closeOffset? b 1 (ks ++ c :: x) = some ks.length :=
  closeOffset?_of_closings h.within h.total hc x

theorem groupEnd?_eq (h : b.Balanced ks) {o c : Kind} (ho : o.opens = some b)
    (hc : c.closes = some b) (x : List Kind) :
    groupEnd? (o :: (ks ++ c :: x)) = some (ks.length + 1) := by
  rw [groupEnd?, ho, Option.bind_some, closeOffset?, if_pos ho, h.closeOffset?_eq hc]
  rfl

end Bracket.Balanced

end PhpOutline
