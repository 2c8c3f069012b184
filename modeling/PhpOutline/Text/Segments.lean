import PhpOutline.Text.Basic

/-!
# Segments of a text

Cutting a text at the first and behind the last occurrence of a separating character.

## Main statements

* `Text.splitFirst_eq_some`: the two parts and the separator make up the text again.
* `Text.lastSegment_append_cons`: the last segment does not depend on what stands in front of it.
-/

namespace PhpOutline.Text

/-- The parts before and after the first `sep`, when there is one. -/
def splitFirst (sep : Char) : Text → Option (Text × Text)
  | [] => none
  | c :: s => if c = sep then some ([], s) else (splitFirst sep s).map fun p => (c :: p.1, p.2)

/-- The part of a text after its last `sep`, or all of it. -/
def lastSegment (sep : Char) (s : Text) : Text := (s.splitOn sep).getLast?.getD s

theorem splitFirst_eq_some {sep : Char} {s a b : Text} (h : splitFirst sep s = some (a, b)) :
    s = a ++ sep :: b ∧ sep ∉ a := by
  induction s generalizing a with
  | nil => simp [splitFirst] at h
  | cons c s ih =>
    by_cases hc : c = sep
    · simp [splitFirst, hc] at h
      obtain ⟨rfl, rfl⟩ := h
      simp [hc]
    · simp only [splitFirst, if_neg hc, Option.map_eq_some_iff] at h
      obtain ⟨⟨a', b'⟩, h, heq⟩ := h
      simp only [Prod.mk.injEq] at heq
      obtain ⟨rfl, rfl⟩ := heq
      obtain ⟨rfl, hm⟩ := ih h
      exact ⟨rfl, by simp [hm, Ne.symm hc]⟩

theorem splitFirst_eq_none {sep : Char} {s : Text} : splitFirst sep s = none ↔ sep ∉ s := by
  induction s with
  | nil => simp [splitFirst]
  | cons c s ih =>
    by_cases hc : c = sep
    · simp [splitFirst, hc]
    · simp [splitFirst, hc, ih, Ne.symm hc]

theorem lastSegment_of_notMem {sep : Char} {s : Text} (h : sep ∉ s) : lastSegment sep s = s := by
  rw [lastSegment, List.splitOn_eq_singleton h]
  rfl

/-- The last segment does not depend on what stands before a separator. -/
theorem lastSegment_append_cons (sep : Char) (a b : Text) :
    lastSegment sep (a ++ sep :: b) = lastSegment sep b := by
  obtain ⟨g, hg⟩ := Option.ne_none_iff_exists'.1
    (mt List.getLast?_eq_none_iff.1 (List.splitOn_ne_nil sep b))
  rw [lastSegment, lastSegment, List.splitOn_append_cons_self, List.getLast?_append, hg]
  rfl

end PhpOutline.Text
