import PhpOutline.Proofs.Cursor.Members
import PhpOutline.Proofs.Declaration.TypeShifts

/-!
# Types, place by place

A type is read from its header, which ends at the first brace behind the name, and from the members
of its body. Wherever the word stands that is taken for its keyword, the reader stays in the table
when the span of the type does.

## Main definitions

* `Cursor.readClassLike`: the type in a span.

## Main statements

* `Cursor.readClassLike_eq`: what is read as a whole.
-/

namespace PhpOutline.Cursor

open TokenTable

variable {t : TokenTable} {context : NameContext} {span : Span}

/-- The place of the brace that opens the body of a type, or the last place of its span. -/
def bodyBrace (t : TokenTable) (last : Nat) (name : Option Nat) : Guarded Nat := do
  match name with
  | none => return last
  | some i => return (← findKind t i last (.opener .brace)).getD last

theorem bodyBrace_eq (h : 0 < t.size) (last i : Nat) :
    bodyBrace t last ((Entry.skipTrivia (t.window i (last + 1))).head?.map Entry.index) =
      .ok ((((Entry.skipTrivia (t.window i (last + 1))).find? fun e => e.kind == .opener .brace).map
        Entry.index).getD last) := by
  cases hskip : Entry.skipTrivia (t.window i (last + 1)) with
  | nil => rfl
  | cons e rest =>
    have hwindow : t.window e.index (last + 1) = e :: rest :=
      window_eq_of_suffix (hskip ▸ Entry.skipTrivia_suffix _)
    rw [List.head?_cons, Option.map_some, bodyBrace, findKind_eq h, ok_bind, findKind?, hwindow]
    rfl

/-- The members of one sort, each read from its slot. -/
def readListed {α : Type} (read : Slot → Guarded α) (slots : List Slot) :
    Guarded (List (Listed α)) :=
  slots.mapM fun s => do return ⟨s, ← read s⟩

theorem readListed_eq {α : Type} {read : Slot → Guarded α} {g : Slot → α} {slots : List Slot}
    (h : ∀ s ∈ slots, read s = .ok (g s)) :
    readListed read slots = .ok (slots.map fun s => ⟨s, g s⟩) := by
  refine mapM_eq_ok ?_
  intro s hs
  rw [h s hs]
  rfl

/-- The type in a span, with the word that declares its kind at place `keyword`. -/
def readClassLike (t : TokenTable) (context : NameContext) (span : Span) (keyword : Nat) :
    Guarded ClassLike := do
  let kind := ClassLike.kindOf (t.kind? keyword)
  let nameAt ← nextBefore t (keyword + 1) (span.last + 1)
  let brace ← bodyBrace t span.last nameAt
  let shortName := (nameAt.map t.text).getD []
  let header := (nameAt.map fun i => t.window (i + 1) brace).getD []
  let refs := ClassLike.references none header
  let (parent, interfaces) := ClassLike.ancestry kind (ClassLike.listed context refs .extended)
    (ClassLike.listed context refs .implemented)
  let scope : ClassScope := ⟨context.qualify shortName, parent⟩
  let body := Span.ofBounds brace span.last
  let members ← scanMembers t context body
  let constants ← readListed (fun s => readConstant t s.decl s.item)
    (members.filterMap Member.constant?)
  let properties ← readListed (fun s => readProperty t context (some scope) s.decl s.item)
    (members.filterMap Member.property?)
  let methods ← readListed
    (fun s => readCallable t context (some scope) (kind == .interface) s.decl)
    (members.filterMap Member.methodSlot?)
  let doc ← docComment t span.first
  return {
    span
    body
    kind
    context
    modifiers := .ofKinds (Entry.kinds (t.window span.first keyword))
    shortName
    name := scope.name
    parent
    interfaces
    traits := members.filterMap Member.traitUse?
    constants
    properties
    methods
    lineFirst := t.line span.first
    lineLast := t.line span.last
    doc }

/-! ## Members lie in the table -/

theorem slot?_of_constant? {m : Member} {s : Slot} (h : m.constant? = some s) :
    m.slot? = some s := by
  cases m <;> first | exact h | cases h

theorem slot?_of_property? {m : Member} {s : Slot} (h : m.property? = some s) :
    m.slot? = some s := by
  cases m <;> first | exact h | cases h

theorem slot?_of_methodSlot? {m : Member} {s : Slot} (h : m.methodSlot? = some s) :
    m.slot? = some s := by
  cases m <;> first | exact h | cases h

theorem last_lt_of_mem_scan {body : Span} (hbody : body.last < t.size) {f : Member → Option Slot}
    (hf : ∀ {m : Member} {s : Slot}, f m = some s → m.slot? = some s) {s : Slot}
    (hs : s ∈ (Member.scan t context body).filterMap f) : s.decl.last < t.size := by
  obtain ⟨m, hm, hfm⟩ := List.mem_filterMap.1 hs
  obtain ⟨-, -, hlast⟩ := (Member.scan_ordered t context body).1 m hm s (hf hfm)
  exact Nat.lt_of_le_of_lt hlast hbody

/-! ## The whole type -/

theorem readClassLike_eq (h : span.last < t.size) (context : NameContext) (keyword : Nat) :
    readClassLike t context span keyword = .ok (ClassLike.read t context span keyword) := by
  have hordered := span.ordered
  rw [readClassLike, ClassLike.read, nextBefore_eq, ok_bind, bodyBrace_eq (by omega), ok_bind]
  have hsuffix := Entry.skipTrivia_suffix (t.window (keyword + 1) (span.last + 1))
  generalize Entry.skipTrivia (t.window (keyword + 1) (span.last + 1)) = named at hsuffix ⊢
  generalize hbrace : ((named.find? fun e => e.kind == .opener .brace).map Entry.index).getD
    span.last = brace
  have hlast : brace ≤ span.last :=
    hbrace ▸ ClassLike.brace_le fun e he =>
      Nat.le_of_lt_succ (bounds_of_mem_window (hsuffix.subset he)).2
  have hbody : (Span.ofBounds brace span.last).last < t.size := by
    rw [Span.last_ofBounds]
    omega
  have hname : (named.head?.map Entry.index).map t.text = named.head?.map fun e => e.text := by
    cases named with
    | nil => rfl
    | cons e rest =>
      have hmem := mem_startingAt_of_mem_window (hsuffix.subset List.mem_cons_self)
      exact congrArg some (text_index hmem)
  simp only [hname, Option.map_map, Function.comp_def]
  rw [scanMembers_eq hbody, ok_bind,
    readListed_eq (g := fun s => Constant.read t s.decl s.item) ?_, ok_bind,
    readListed_eq (g := fun s => Property.read t context _ s.decl s.item) ?_, ok_bind,
    readListed_eq (g := fun s => Callable.read t context _ _ s.decl) ?_, ok_bind,
    docComment_eq (by omega)]
  · rfl
  · exact fun s hs => readCallable_eq (last_lt_of_mem_scan hbody slot?_of_methodSlot? hs) _ _ _
  · exact fun s hs => readProperty_eq (last_lt_of_mem_scan hbody slot?_of_property? hs) _ _
  · exact fun s hs => readConstant_eq (last_lt_of_mem_scan hbody slot?_of_constant? hs)

end PhpOutline.Cursor
