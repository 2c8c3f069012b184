import PhpOutline.Declaration.ClassLike

/-!
# Looking up an item by its name

An item is found by its name when no item before it has that name.

## Main statements

* `firstNamed?_append_cons`, `firstNamedAnyCase?_append_cons`: the item that is found.
* `ClassLike.constant_eq`, `ClassLike.property_eq`, `ClassLike.method_eq`, `Callable.parameter_eq`:
  members of a type and parameters by name.
-/

namespace PhpOutline

variable {α : Type} {nameOf : α → Text} {before after : List α} {a : α}

theorem firstNamed?_append_cons (h : ∀ b ∈ before, nameOf b ≠ nameOf a) :
    firstNamed? nameOf (nameOf a) (before ++ a :: after) = some a := by
  have hnone : before.find? (fun b => nameOf b == nameOf a) = none := by
    rw [List.find?_eq_none]
    intro b hb
    simpa using h b hb
  rw [firstNamed?, List.find?_append, hnone]
  simp

theorem firstNamedAnyCase?_append_cons (h : ∀ b ∈ before, nameOf b ≠ nameOf a) :
    firstNamedAnyCase? nameOf (nameOf a) (before ++ a :: after) = some a := by
  rw [firstNamedAnyCase?, firstNamed?_append_cons h]
  rfl

namespace ClassLike

variable {c : ClassLike}

theorem constant_eq {l : Listed Constant} {before after : List (Listed Constant)}
    (hlist : c.constants = before ++ l :: after) (h : ∀ b ∈ before, b.name ≠ l.name) :
    c.constant l.name = .ok l.record := by
  have := @firstNamed?_append_cons _ (fun l : Listed Constant => l.name) before after l h
  simp only [constant, hlist, this]
  rfl

theorem property_eq {l : Listed Property} {before after : List (Listed Property)}
    (hlist : c.properties = before ++ l :: after) (h : ∀ b ∈ before, b.name ≠ l.name)
    (hdollar : withoutDollar l.name = l.name) : c.property l.name = .ok l.record := by
  have := @firstNamed?_append_cons _ (fun l : Listed Property => l.name) before after l h
  simp only [property, hdollar, hlist, this]
  rfl

theorem method_eq {l : Listed Callable} {before after : List (Listed Callable)}
    (hlist : c.methods = before ++ l :: after) (h : ∀ b ∈ before, b.name ≠ l.name) :
    c.method l.name = .ok l.record := by
  have := @firstNamedAnyCase?_append_cons _ (fun l : Listed Callable => l.name) before after l h
  simp only [method, hlist, this]
  rfl

end ClassLike

theorem Callable.parameter_eq {c : Callable} {p : Parameter} {before after : List Parameter}
    (hlist : c.parameters = before ++ p :: after) (h : ∀ b ∈ before, b.name ≠ p.name)
    (hdollar : ClassLike.withoutDollar p.name = p.name) :
    c.parameter (.name p.name) = .ok p := by
  simp only [parameter, hdollar, hlist, firstNamed?_append_cons h]
  rfl

end PhpOutline
