import PhpOutline.Modifiers

/-!
# What the modifiers of a declaration say

The modifiers of a declaration are gathered one word after the other; seen as a whole, each flag
says that its word is among them, and the visibility is the one of the last word that gives one.

## Main definitions

* `Modifier.visibility?`, `Modifier.givenVisibility`: the visibility that a word or some words give.
* `Modifiers.Reflect`: modifiers that say what a list of words says.

## Main statements

* `Modifiers.reflect_ofKinds`: the modifiers among some tokens say what their words say.
-/

namespace PhpOutline

/-- The visibility that a word gives. -/
def Modifier.visibility? : Modifier → Option Visibility
  | access v => some v
  | var => some .publicAccess
  | _ => none

/-- The visibility that some words give: what is not marked is public. -/
def Modifier.givenVisibility (words : List Modifier) : Visibility :=
  (words.filterMap Modifier.visibility?).getLast?.getD .publicAccess

namespace Modifiers

/-- The modifiers say what some words say. -/
structure Reflect (words : List Modifier) (m : Modifiers) : Prop where
  explicit : m.explicit = (words.filterMap Modifier.visibility?).getLast?
  isStatic : m.isStatic = words.contains .static
  isAbstract : m.isAbstract = words.contains .abstract
  isFinal : m.isFinal = words.contains .final
  isReadonly : m.isReadonly = words.contains .readonly

theorem Reflect.visibility_eq {words : List Modifier} {m : Modifiers} (h : m.Reflect words) :
    m.visibility = Modifier.givenVisibility words := by
  rw [visibility, h.explicit, Modifier.givenVisibility]

/-- One more word. -/
theorem Reflect.add {words : List Modifier} {m : Modifiers} (h : m.Reflect words) (w : Modifier) :
    (m.add w).Reflect (words ++ [w]) := by
  obtain ⟨h₁, h₂, h₃, h₄, h₅⟩ := h
  cases w <;> constructor <;>
    simp_all [Modifiers.add, Modifier.visibility?, List.filterMap_append]

theorem Reflect.foldl_apply {words : List Modifier} {m : Modifiers} (h : m.Reflect words)
    (ks : List Kind) : (ks.foldl apply m).Reflect (words ++ ks.filterMap Kind.modifier?) := by
  induction ks generalizing words m with
  | nil => simpa using h
  | cons k ks ih =>
    rw [List.foldl_cons]
    cases hk : k.modifier? with
    | none => simpa [apply, hk] using ih h
    | some w => simpa [apply, hk] using ih (h.add w)

/-- The modifiers among some tokens say what their words say. -/
theorem reflect_ofKinds (ks : List Kind) :
    (ofKinds ks).Reflect (ks.filterMap Kind.modifier?) := by
  have hnone : ({} : Modifiers).Reflect [] := by
    constructor <;> rfl
  exact hnone.foldl_apply ks

end Modifiers

end PhpOutline
