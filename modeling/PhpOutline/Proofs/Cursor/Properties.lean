import PhpOutline.Declaration.Property
import PhpOutline.Proofs.Cursor.Searches

/-!
# Properties and constants, place by place

The name of a property or constant, the equals sign and the value are found by searches from place
to place, and the end of a default value by a loop. They stay in the table when the spans of the
declaration and of its item do.

## Main definitions

* `Cursor.valueTurn`, `Cursor.valueSpan`: the default value of a property.
* `Cursor.readProperty`, `Cursor.constantName`, `Cursor.readConstant`.

## Main statements

* `Cursor.follows_valueTurn`: one turn over a default value.
* `Cursor.readProperty_eq`, `Cursor.readConstant_eq`: what is read as a whole.
-/

namespace PhpOutline.Cursor

open TokenTable

variable {t : TokenTable} {i first last : Nat}

/-! ## Properties -/

/-- One turn over a default value that begins at `first` in an item that ends at `last`. -/
def valueTurn (t : TokenTable) (first last state i : Nat) : Guarded (Turn Nat Nat) :=
  match t.kind? i with
  | some (.opener .brace) =>
    if first < i then .ok (.done state) else .ok (.goOn i (i + 1))
  | some (.opener .paren) | some (.opener .square) =>
    let close := min ((t.matchingClose? i).getD last) last
    .ok (.goOn close (close + 1))
  | some k => if k.isInsignificant then .ok (.goOn state (i + 1)) else .ok (.goOn i (i + 1))
  | none => .ok (.goOn state (i + 1))

/-- The last place of a default value. -/
def valueEnd (t : TokenTable) (first last : Nat) : Guarded Nat :=
  loop (last + 1) (valueTurn t first last) (fun state _ => .ok state) first first

/-- A bracket group belongs to a value as far as it lies in the item. -/
theorem follows_valueGroup {x : Token} {state : Nat} (hx : t.get? i = some x) (hi : i < last + 1)
    (hstep : Property.valueStep first last state ⟨x, i⟩ (t.window (i + 1) (last + 1)) =
      match groupEnd? (Entry.kinds (⟨x, i⟩ :: t.window (i + 1) (last + 1))) with
      | some n => (i + n, n)
      | none => (last, (t.window (i + 1) (last + 1)).length)) :
    Follows (Property.valueStep first last) t (last + 1) state i
      (.ok (.goOn (min ((t.matchingClose? i).getD last) last)
        (min ((t.matchingClose? i).getD last) last + 1))) := by
  rw [← window_of_get? hx hi] at hstep
  rcases groupEnd?_window_cases hi with ⟨n, hend, hclose⟩ | ⟨hend, hclose⟩
  · rw [hend] at hstep
    rw [hclose]
    exact follows_goOn hx hi hstep (by omega) (by rw [Nat.add_right_comm])
  · rw [hend] at hstep
    rw [hclose]
    exact follows_goOn hx hi hstep hi
      ((window_of_le (Nat.le_refl _)).trans (window_length_add t (i + 1) (last + 1)).symm)

theorem follows_valueTurn (state : Nat) (hi : i < last + 1) :
    Follows (Property.valueStep first last) t (last + 1) state i
      (valueTurn t first last state i) := by
  rw [valueTurn]
  cases hx : t.get? i with
  | none =>
    have hsize : t.size ≤ i := List.getElem?_eq_none_iff.1 hx
    rw [kind?, hx]
    refine .goOn (Nat.lt_succ_self i) trivial ?_
    rw [passFrom, passFrom, window_of_get?_eq_none hx,
      window_of_get?_eq_none (List.getElem?_eq_none_iff.2 (Nat.le_succ_of_le hsize))]
  | some x =>
    rw [kind?_of_get? hx]
    have hstep := Property.valueStep.eq_1 first last state ⟨x, i⟩ (t.window (i + 1) (last + 1))
    simp only at hstep
    generalize x.kind = k at hstep
    cases k with
    | opener b =>
      cases b with
      | brace =>
        simp only
        split
        · rename_i hbehind
          exact follows_done hx hi (by simpa [hbehind] using hstep)
        · rename_i hbehind
          exact follows_succ hx hi (by simpa [hbehind] using hstep)
      | paren | square => exact follows_valueGroup hx hi hstep
    | _ => exact follows_succ hx hi hstep

/-- The span of the default value of the property whose variable stands at place `name`. -/
def valueSpan (t : TokenTable) (last name : Nat) : Guarded (Option Span) := do
  match ← findKind t name last .equals with
  | none => return none
  | some sign =>
    match ← nextBefore t (sign + 1) (last + 1) with
    | none => return none
    | some first => return some (.ofBounds first (← valueEnd t first last))

theorem valueSpan_eq (h : 0 < t.size) (last name : Nat) :
    valueSpan t last name = .ok (Property.valueSpan? last (t.window name (last + 1))) := by
  rw [valueSpan, findKind_eq h, ok_bind, Property.valueSpan?, dropWhile_findKind?]
  cases t.findKind? name last .equals with
  | none => rfl
  | some sign =>
    simp only [Option.map_some, Option.getD_some, drop_window]
    rw [nextBefore_eq, ok_bind]
    cases hskip : Entry.skipTrivia (t.window (sign + 1) (last + 1)) with
    | nil => rfl
    | cons v rest =>
      have hwindow : t.window v.index (last + 1) = v :: rest :=
        window_eq_of_suffix (hskip ▸ Entry.skipTrivia_suffix _)
      simp only [List.head?_cons, Option.map_some]
      rw [valueEnd, loop_eq_passFrom fun state _ hi => follows_valueTurn state hi, ok_bind, hwindow]
      rfl

/-- The property that `item` introduces in the declaration `decl`. -/
def readProperty (t : TokenTable) (context : NameContext) (scope : Option ClassScope)
    (decl item : Span) : Guarded Property := do
  let front := (t.within decl).takeWhile fun e => e.kind != .variableName
  let typed := (Entry.significant front).filter fun e => e.kind.modifier?.isNone
  let typeHint := (Entry.extent? typed).map t.sourceOf
  let name ← findKind t item.first item.last .variableName
  let value ← match name with
    | none => pure none
    | some i => valueSpan t item.last i
  let doc ← docComment t decl.first
  return {
    name := (name.map fun i => (t.text i).drop 1).getD []
    modifiers := .ofKinds (Entry.kinds front)
    typeHint
    className := typeHint.bind fun hint => context.resolveType? hint scope
    defaultValue := value.map t.sourceOf
    line := t.line (name.getD item.first)
    doc }

theorem readProperty_eq {decl item : Span} (hdecl : decl.last < t.size) (context : NameContext)
    (scope : Option ClassScope) :
    readProperty t context scope decl item = .ok (Property.read t context scope decl item) := by
  have hfirst := decl.ordered
  have hnamed : Property.named t item = ((t.findKind? item.first item.last .variableName).map
      fun i => t.window i (item.last + 1)).getD [] :=
    dropWhile_findKind? t item.first item.last .variableName
  rw [readProperty, findKind_eq (by omega), ok_bind, docComment_eq (by omega), Property.read,
    hnamed]
  cases hname : t.findKind? item.first item.last .variableName with
  | none => rfl
  | some i =>
    obtain ⟨e, he, rfl⟩ := Option.map_eq_some_iff.1 hname
    have hmem := mem_startingAt_of_mem_window (List.mem_of_find?_eq_some he)
    have hlt := (bounds_of_mem_window (List.mem_of_find?_eq_some he)).2
    simp only [Option.map_some, Option.getD_some]
    rw [valueSpan_eq (by omega), ok_bind, ok_bind, window_index hmem hlt, text_index hmem]
    rfl

/-! ## Constants -/

/-- The place of the name of the constant that `item` introduces, given that of its equals sign. -/
def constantName (t : TokenTable) (item : Span) (sign : Option Nat) : Guarded (Option Nat) := do
  match sign with
  | none => return some item.last
  | some i => return (← prevSignificant t i).filter (item.first ≤ ·)

theorem constantName_eq (t : TokenTable) (item : Span) :
    constantName t item (t.findKind? item.first item.last .equals) =
      .ok (Constant.nameIndex? t item) := by
  rw [Constant.nameIndex?, findKind?]
  cases hfind : (t.window item.first (item.last + 1)).find? fun e => e.kind == .equals with
  | none =>
    have hany : ((t.within item).any fun e => e.kind == .equals) = false := by
      rw [within, List.any_eq_false]
      exact List.find?_eq_none.1 hfind
    simp only [hany]
    rfl
  | some e =>
    have he : (e.kind == .equals) = true :=
      List.find?_some (p := fun e : Entry => e.kind == .equals) hfind
    have hany : ((t.within item).any fun e => e.kind == .equals) = true :=
      List.any_eq_true.2 ⟨e, List.mem_of_find?_eq_some hfind, he⟩
    obtain ⟨after, hafter⟩ : ∃ after,
        (t.within item).dropWhile (fun e => e.kind != .equals) = e :: after := by
      refine List.head?_eq_some_iff.1 ?_
      rw [← hfind, ← List.find?_not_eq_head?_dropWhile]
      simp only [bne, Bool.not_not, within]
    have hsplit := (List.takeWhile_append_dropWhile (p := fun e : Entry => e.kind != .equals)
      (l := t.within item)).symm
    rw [hafter] at hsplit
    simp only [hany, if_true, Option.map_some]
    rw [constantName, prevSignificant_eq, ok_bind, filter_prevSignificant?,
      eq_window_of_append hsplit]
    rfl

/-- The constant that `item` introduces in the declaration `decl`. -/
def readConstant (t : TokenTable) (decl item : Span) : Guarded Constant := do
  let front := (t.within decl).takeWhile fun e => e.kind != .keyword .const
  let sign ← findKind t item.first item.last .equals
  let name ← constantName t item sign
  let value ← match sign with
    | none => pure none
    | some i => nextBefore t (i + 1) (item.last + 1)
  let doc ← docComment t decl.first
  return {
    name := (name.map t.text).getD []
    modifiers := .ofKinds (Entry.kinds front)
    value := value.map fun v => t.sourceOf (.ofBounds v item.last)
    line := t.line (name.getD item.first)
    doc }

theorem readConstant_eq {decl item : Span} (hdecl : decl.last < t.size) :
    readConstant t decl item = .ok (Constant.read t decl item) := by
  have hfirst := decl.ordered
  have hbehind : (t.within item).dropWhile (fun e => e.kind != .equals) =
      ((t.findKind? item.first item.last .equals).map
        fun i => t.window i (item.last + 1)).getD [] :=
    dropWhile_findKind? t item.first item.last .equals
  rw [readConstant, findKind_eq (by omega), ok_bind, constantName_eq, ok_bind,
    docComment_eq (by omega), Constant.read, hbehind]
  cases t.findKind? item.first item.last .equals with
  | none => rfl
  | some i =>
    simp only [Option.map_some, Option.getD_some, drop_window]
    rw [nextBefore_eq, ok_bind, ok_bind, Option.map_map]
    rfl

end PhpOutline.Cursor
