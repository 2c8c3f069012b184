import PhpOutline.Declaration.Parameter
import PhpOutline.Proofs.Cursor.Searches

/-!
# Parameters, place by place

A parameter can be read by a loop over the places of its span. It passes over attributes, and behind
the variable an equals sign ends it. In every table and for every span this gives the parameter that
a pass over the entries gives.

## Main definitions

* `Cursor.parameterTurn` and `Cursor.readParameter`.

## Main statements

* `Cursor.follows_parameterTurn`: one turn does what one step of the pass does.
* `Cursor.readParameter_eq`: what the whole loop reads.
-/

namespace PhpOutline.Cursor

open TokenTable

variable {t : TokenTable} {i last : Nat}

/-- Whether an ampersand at place `i` marks a reference. -/
def marksReference (t : TokenTable) (i : Nat) : Guarded Bool := do
  let next ← nextSignificant t (i + 1)
  return (next.bind t.kind?).any fun k => k == .variableName || k == .ellipsis

theorem marksReference_eq (t : TokenTable) (i : Nat) :
    marksReference t i = .ok (Parameter.marksReference t i) := by
  rw [marksReference, nextSignificant_eq, ok_bind, nextSignificant?, Parameter.marksReference]
  cases hskip : Entry.skipTrivia (t.startingAt (i + 1)) with
  | nil => rfl
  | cons e rest =>
    have hmem : e ∈ t.startingAt (i + 1) :=
      (Entry.skipTrivia_suffix _).subset (hskip ▸ List.mem_cons_self)
    have hkind := kind?_index (List.mem_of_mem_drop (startingAt_eq_drop t (i + 1) ▸ hmem))
    rw [List.head?_cons, Option.map_some, Option.bind_some, hkind]
    rfl

/-- A token in front of the variable. -/
def readFront (t : TokenTable) (d : Parameter.Draft) (x : Token) (i : Nat) :
    Guarded Parameter.Draft := do
  if d.typeSpan.isNone && x.kind.modifier?.isSome then
    return { d with modifiers := d.modifiers.apply x.kind }
  else
    match x.kind with
    | .ampersand =>
      if ← marksReference t i then return { d with byReference := true } else return d.extendType i
    | .ellipsis => return { d with variadic := true }
    | .variableName => return { d with name := some (x.text.drop 1) }
    | _ => return d.extendType i

theorem readFront_eq (t : TokenTable) (d : Parameter.Draft) (x : Token) (i : Nat) :
    readFront t d x i = .ok (Parameter.readFront t d ⟨x, i⟩) := by
  rw [readFront, Parameter.readFront]
  split
  · rfl
  · generalize x.kind = k
    cases k with
    | ampersand =>
      simp only
      rw [marksReference_eq, ok_bind]
      split <;> rfl
    | _ => rfl

/-- One turn over a parameter that ends at place `last`. -/
def parameterTurn (t : TokenTable) (last : Nat) (d : Parameter.Draft) (i : Nat) :
    Guarded (Turn Parameter.Draft Parameter.Draft) := do
  match t.get? i with
  | none => return .done d
  | some x =>
    if x.kind.isInsignificant then return .goOn d (i + 1)
    else if x.kind = .attributeOpener then return .goOn d ((t.matchingClose? i).getD last + 1)
    else if d.name.isNone then return .goOn (← readFront t d x i) (i + 1)
    else if x.kind = .equals then
      let value ← nextBefore t (i + 1) (last + 1)
      return .done { d with defaultValue := value.map fun v => t.sourceOf (.ofBounds v last) }
    else return .goOn d (i + 1)

theorem follows_parameterTurn (d : Parameter.Draft) (hi : i < last + 1) :
    Follows (Parameter.step t last) t (last + 1) d i (parameterTurn t last d i) := by
  rw [parameterTurn]
  cases hx : t.get? i with
  | none => exact follows_behind hx
  | some x =>
    simp only
    split_ifs with hspace hattribute hname hequals
    · exact follows_succ hx hi (by rw [Parameter.step, if_pos hspace])
    · exact follows_group hx hi (Nat.le_refl _)
        (by rw [Parameter.step, if_neg hspace, if_pos hattribute])
    · rw [readFront_eq, ok_bind]
      exact follows_succ hx hi
        (by rw [Parameter.step, if_neg hspace, if_neg hattribute, if_pos hname])
    · rw [nextBefore_eq, ok_bind, Option.map_map]
      exact follows_done hx hi (by
        rw [Parameter.step, if_neg hspace, if_neg hattribute, if_neg hname, if_pos hequals]
        rfl)
    · exact follows_succ hx hi (by
        rw [Parameter.step, if_neg hspace, if_neg hattribute, if_neg hname, if_neg hequals])

/-- The parameter in a span. -/
def readParameter (t : TokenTable) (context : NameContext) (scope : Option ClassScope) (span : Span)
    (position : Nat) : Guarded Parameter := do
  let d ← loop (span.last + 1) (parameterTurn t span.last) (fun d _ => .ok d) {} span.first
  let typeHint := d.typeSpan.map t.sourceOf
  return {
    span
    line := t.line span.first
    position
    name := d.name.getD []
    typeHint
    className := typeHint.bind fun hint => context.resolveType? hint scope
    defaultValue := d.defaultValue
    byReference := d.byReference
    variadic := d.variadic
    promoted :=
      d.modifiers.explicit.or (if d.modifiers.isReadonly then some .publicAccess else none) }

theorem readParameter_eq (t : TokenTable) (context : NameContext) (scope : Option ClassScope)
    (span : Span) (position : Nat) :
    readParameter t context scope span position =
      .ok (Parameter.read t context scope span position) := by
  rw [readParameter, loop_eq_passFrom fun d _ hi => follows_parameterTurn d hi]
  rfl

end PhpOutline.Cursor
