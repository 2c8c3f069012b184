import PhpOutline.Text.Basic

/-!
# Bindings of aliases

The aliases that imports introduce, each with the name that it stands for, in the order of the
aliases by code point. Binding an alias again replaces its name.

## Main definitions

* `Bindings`, `Bindings.bind`, `Bindings.get?`.
* `Bindings.lookup?`: an alias as it is spelled, or else in any ASCII case.

## Main statements

* `Bindings.get?_bind`: the last binding of an alias counts, and other aliases keep theirs.
-/

namespace PhpOutline

/-- Aliases and the names that they stand for. -/
abbrev Bindings := List (Text × Text)

namespace Bindings

/-- Binds an alias, in its place among the others. -/
def bind (key name : Text) : Bindings → Bindings
  | [] => [(key, name)]
  | p :: bs =>
    if key = p.1 then (key, name) :: bs
    else if key < p.1 then (key, name) :: p :: bs
    else p :: bind key name bs

/-- The name that an alias stands for, by exact spelling. -/
def get? (key : Text) (bs : Bindings) : Option Text :=
  (bs.find? fun p => p.1 == key).map Prod.snd

/-- The name that an alias stands for: by exact spelling, or else that of the first alias that
differs in ASCII case only. -/
def lookup? (key : Text) (bs : Bindings) : Option Text :=
  (get? key bs).or ((bs.find? fun p => Text.sameWord p.1 key).map Prod.snd)

/-- Binds a list of aliases, one after the other. -/
def ofList (ps : List (Text × Text)) : Bindings := ps.foldl (fun bs p => bind p.1 p.2 bs) []

@[simp] theorem get?_nil (key : Text) : get? key [] = none := rfl

/-- The last binding of an alias counts, and other aliases keep theirs. -/
theorem get?_bind (key name query : Text) (bs : Bindings) :
    get? query (bind key name bs) = if key = query then some name else get? query bs := by
  induction bs with
  | nil => by_cases h : key = query <;> simp [bind, get?, h]
  | cons p bs ih =>
    simp only [get?] at ih
    rw [bind]
    split
    case isTrue hp =>
      subst hp
      by_cases h : p.1 = query <;> simp [get?, h]
    case isFalse hp =>
      split
      · by_cases h : key = query <;> simp [get?, h]
      · by_cases hq : p.1 = query
        · have : key ≠ query := fun h => hp (h.trans hq.symm)
          simp [get?, hq, this]
        · simp [get?, hq, ih]

end Bindings

end PhpOutline
