import PhpOutline.Declaration.Parameter
import PhpOutline.Proofs.Declaration.Binding

/-!
# Parameters read from their tokens

A parameter that is a variable, or a variable bound to a default value, is read from the span of its
tokens as what it is.

## Main statements

* `Parameter.name_read_single`, `Parameter.name_read_binding`: the name of the parameter.
* `Parameter.defaultValue_read_binding`: its default value, as it is written.
-/

namespace PhpOutline.Parameter

variable {t : TokenTable} {context : NameContext} {scope : Option ClassScope}
  {before after : List Token} {P : Kind → Prop}

/-- The first variable gives its name to the parameter. -/
theorem step_variable {x : Token} (hx : x.kind = .variableName) (last i : Nat) (es : List Entry) :
    step t last {} ⟨x, i⟩ es = ({ name := some (x.text.drop 1) }, 0) := by
  simp [step, readFront, hx, Kind.isInsignificant, Kind.isTrivia, Kind.modifier?]

/-- The walk over a variable bound to a value gives the name and the text behind the equals sign. -/
theorem settle_binding (b : Binding P) (hname : b.name.kind = .variableName) (last i : Nat) :
    settle (step t last) {} 0 (Entry.number i b.tokens) =
      { name := some (b.name.text.drop 1)
        defaultValue := some (t.sourceOf (.ofBounds (i + 4) last)) } := by
  obtain ⟨x, hx⟩ := b.head?_number_value (i + 4)
  have hvalue := b.skipTrivia_gap (i + 3)
  rw [Binding.tokens, Entry.number_cons, settle_cons, step_variable hname, Entry.number_cons,
    settle_cons]
  simp only [step, b.gap₁_kind, Kind.isInsignificant, Kind.isTrivia, if_true]
  rw [Entry.number_cons, settle_cons, Entry.number_cons]
  simp only [step, b.equals_kind, Kind.isInsignificant, Kind.isTrivia]
  rw [hvalue, hx]
  simp only [reduceCtorEq, Bool.false_eq_true, if_false, if_true, Option.isNone_some,
    Option.map_some]
  rw [settle_eq_drop, List.drop_length, settle_nil]

theorem name_read_single {x : Token} (hx : x.kind = .variableName)
    (h : t.tokens = before ++ x :: after) {i j : Nat} (hi : i = before.length) (hj : j = i)
    (position : Nat) :
    (read t context scope (.ofBounds i j) position).name = x.text.drop 1 := by
  have hsplit : t.tokens = before ++ ([x] ++ after) := h
  rw [hj, read]
  simp only
  rw [TokenTable.within_part hsplit hi (by rw [hi]; rfl) (Nat.le_refl i), Entry.number_cons,
    settle_cons, step_variable hx]
  rfl

theorem name_read_binding (b : Binding P) (hname : b.name.kind = .variableName)
    (h : t.tokens = before ++ (b.tokens ++ after)) {i j : Nat} (hi : i = before.length)
    (hj : j + 1 = before.length + b.tokens.length) (position : Nat) :
    (read t context scope (.ofBounds i j) position).name = b.name.text.drop 1 := by
  have hlen := b.length_tokens
  rw [read]
  simp only
  rw [TokenTable.within_part h hi hj (by omega), settle_binding b hname]
  rfl

/-- The default value is the text of the value. -/
theorem defaultValue_read_binding (ht : t.IsGapless) (b : Binding P)
    (hname : b.name.kind = .variableName) (h : t.tokens = before ++ (b.tokens ++ after)) {i j : Nat}
    (hi : i = before.length) (hj : j + 1 = before.length + b.tokens.length) (position : Nat) :
    (read t context scope (.ofBounds i j) position).defaultValue =
      some (textOf (b.value.map Token.piece)) := by
  have hlen := b.length_tokens
  have hpos := b.delimited.length_pos
  have hsplit : t.tokens = (before ++ [b.name, b.gap₁, b.equals, b.gap₂]) ++
      (b.value ++ after) := by
    simp [h, Binding.tokens]
  have hij : max i j = j := by omega
  rw [read]
  simp only
  rw [TokenTable.within_part h hi hj (by omega), settle_binding b hname, Span.last_ofBounds, hij,
    TokenTable.sourceOf_part ht hsplit (by simp [hi]) (by simp; omega) (by omega)]

end PhpOutline.Parameter
