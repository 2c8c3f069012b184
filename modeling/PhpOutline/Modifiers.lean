import PhpOutline.Token.Kind

/-!
# Modifiers of a declaration

The modifier words in front of a declaration, gathered from left to right. Of several words on
visibility the last one counts.

## Main definitions

* `Modifiers`, `Modifiers.apply`, `Modifiers.ofKinds`.
-/

namespace PhpOutline

/-- The modifier words in front of a declaration. -/
structure Modifiers where
  /-- The visibility that is written. -/
  explicit : Option Visibility := none
  isStatic : Bool := false
  isAbstract : Bool := false
  isFinal : Bool := false
  isReadonly : Bool := false
deriving DecidableEq, Repr

namespace Modifiers

/-- Adds one modifier. -/
def add (m : Modifiers) : Modifier → Modifiers
  | .access v => { m with explicit := some v }
  | .var => { m with explicit := some .publicAccess }
  | .abstract => { m with isAbstract := true }
  | .final => { m with isFinal := true }
  | .static => { m with isStatic := true }
  | .readonly => { m with isReadonly := true }

/-- Adds the modifier that a token is, if it is one. -/
def apply (m : Modifiers) (k : Kind) : Modifiers :=
  match k.modifier? with
  | some word => m.add word
  | none => m

/-- The modifiers among some tokens. -/
def ofKinds (ks : List Kind) : Modifiers := ks.foldl apply {}

/-- The visibility in effect: what is not marked is public. -/
def visibility (m : Modifiers) : Visibility := m.explicit.getD .publicAccess

@[simp] theorem apply_of_modifier?_eq_none {k : Kind} (h : k.modifier? = none) (m : Modifiers) :
    m.apply k = m := by
  simp [apply, h]

end Modifiers

end PhpOutline
