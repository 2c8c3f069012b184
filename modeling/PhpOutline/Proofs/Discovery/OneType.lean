import PhpOutline.Proofs.Discovery.Steps
import PhpOutline.Proofs.TokenTable.Parts
import PhpOutline.SourceFile

/-!
# A file with one type

When a file holds one type and the brackets of its body are properly nested, the discovery finds
that type and nothing else, and reads its members from exactly the tokens between its braces.

## Main definitions

* `OneType`: the tokens of a file that holds one type without a header.

## Main statements

* `OneType.discover_eq`: the discovery finds the type.
* `OneType.scan_eq`: its members are read from between its braces.
* `OneType.type_eq`: it is found by its name.
-/

namespace PhpOutline

/-- A file that holds one type: behind the opening tag the word, the name and the braces around the
body. -/
structure OneType (t : TokenTable) where
  tag : Token
  word : Token
  gap₁ : Token
  name : Token
  gap₂ : Token
  opener : Token
  body : List Token
  closer : Token
  kind : TypeKind
  tokens_eq : t.tokens = tag :: word :: gap₁ :: name :: gap₂ :: opener :: (body ++ [closer])
  tag_kind : tag.kind.isInsignificant = true
  word_kind : word.kind = .keyword (.declares kind)
  gap₁_kind : gap₁.kind.isInsignificant = true
  name_kind : name.kind = .name
  gap₂_kind : gap₂.kind.isInsignificant = true
  opener_kind : opener.kind = .opener .brace
  closer_kind : closer.kind = .closer .brace
  nested : Nested (fun _ => True) (body.map Token.kind)

namespace OneType

variable {t : TokenTable} (f : OneType t)

/-- The place of the brace that closes the body. -/
def last : Nat := 6 + f.body.length

/-- The significant entries of the body. -/
def significantBody : List Entry := Entry.significant (Entry.number 6 f.body)

theorem startingAt_zero :
    t.startingAt 0 = ⟨f.tag, 0⟩ :: ⟨f.word, 1⟩ :: ⟨f.gap₁, 2⟩ :: ⟨f.name, 3⟩ :: ⟨f.gap₂, 4⟩ ::
      ⟨f.opener, 5⟩ :: (Entry.number 6 f.body ++ [⟨f.closer, f.last⟩]) := by
  simp [TokenTable.startingAt, f.tokens_eq, Entry.number_append, last]

theorem significant_eq :
    Entry.significant (t.startingAt 0) = ⟨f.word, 1⟩ :: ⟨f.name, 3⟩ :: ⟨f.opener, 5⟩ ::
      (f.significantBody ++ [⟨f.closer, f.last⟩]) := by
  rw [startingAt_zero f, Entry.significant_cons_of_insignificant f.tag_kind,
    Entry.significant_cons_of_significant (by simp only [f.word_kind]; rfl),
    Entry.significant_cons_of_insignificant f.gap₁_kind,
    Entry.significant_cons_of_significant (by simp only [f.name_kind]; rfl),
    Entry.significant_cons_of_insignificant f.gap₂_kind,
    Entry.significant_cons_of_significant (by simp only [f.opener_kind]; rfl),
    Entry.significant_append,
    Entry.significant_cons_of_significant (by simp only [f.closer_kind]; rfl)]
  rfl

theorem nested_significantBody : Nested (fun _ => True) (Entry.kinds f.significantBody) := by
  have h := f.nested.filter_significant
  rw [← Entry.kinds_number 6] at h
  simpa [Entry.kinds, significantBody, Entry.significant, List.filter_map, Function.comp_def,
    Entry.isSignificant_eq] using h

/-- The discovery finds the type, and nothing else. -/
theorem discover_eq :
    Event.discover t = [.declaresType ⟨f.name.text, 1, .ofBounds 1 f.last⟩] := by
  have hstep : Event.step t.lastIndex {} ⟨f.word, 1⟩ (⟨f.name, 3⟩ :: ⟨f.opener, 5⟩ ::
      (f.significantBody ++ [⟨f.closer, f.last⟩])) =
      Event.resume [.declaresType ⟨f.name.text, 1, .ofBounds 1 f.last⟩]
        (f.significantBody.length + 3) :=
    Event.step_type rfl f.word_kind f.name_kind f.opener_kind f.nested_significantBody
      f.closer_kind
  rw [Event.discover, significant_eq f, sweep_cons, hstep, sweep_eq_drop, List.drop_eq_nil_of_le]
  · simp [Event.resume]
  · simp [Event.resume]

/-! ## The type in depth -/

/-- The type, read in depth. -/
def read : ClassLike := .read t {} (.ofBounds 1 f.last) 1

/-- The members between the braces. -/
def members : List Member := sweep (Member.step t {} f.last) none 0 (Entry.number 6 f.body)

theorem skipTrivia_window_name :
    Entry.skipTrivia (t.window 2 (f.last + 1)) = ⟨f.name, 3⟩ :: ⟨f.gap₂, 4⟩ :: ⟨f.opener, 5⟩ ::
      Entry.number 6 (f.body ++ [f.closer]) := by
  have htokens : t.tokens = [f.tag, f.word] ++ ((f.gap₁ :: f.name :: f.gap₂ :: f.opener ::
      (f.body ++ [f.closer])) ++ []) := by
    simp [f.tokens_eq]
  rw [TokenTable.window_part htokens (by rfl) (by simp [last]; omega)]
  have hgap : ∀ e ∈ [Entry.mk f.gap₁ 2], e.kind.isInsignificant = true := by
    simpa using f.gap₁_kind
  exact Entry.skipTrivia_append hgap (by simp only [f.name_kind]; rfl)

/-- The members are read from between the braces. -/
theorem scan_eq : Member.scan t {} (.ofBounds 5 f.last) = f.members := by
  have htokens : t.tokens = [f.tag, f.word, f.gap₁, f.name, f.gap₂, f.opener] ++
      (f.body ++ [f.closer]) := by
    simp [f.tokens_eq]
  have hlast : max 5 f.last = f.last := by
    simp only [last]
    omega
  rw [Member.scan, Span.first_ofBounds, Span.last_ofBounds, hlast,
    TokenTable.window_part htokens (by rfl) (by rfl)]
  rfl

theorem body_read : f.read.body = .ofBounds 5 f.last := by
  have hlast : max 1 f.last = f.last := by
    simp only [last]
    omega
  have hgap : f.gap₂.kind ≠ .opener .brace := by
    intro h
    have := f.gap₂_kind
    simp [h, Kind.isInsignificant, Kind.isTrivia] at this
  simp [read, ClassLike.read, hlast, skipTrivia_window_name, f.name_kind, hgap, f.opener_kind]

theorem kind_read : f.read.kind = f.kind := by
  simp [read, ClassLike.read, TokenTable.kind?, TokenTable.get?, f.tokens_eq, f.word_kind,
    ClassLike.kindOf]

/-- What stands around the members. -/
def scope : ClassScope := ⟨f.read.name, f.read.parent⟩

theorem constants_read :
    f.read.constants = (f.members.filterMap Member.constant?).map fun s =>
      ⟨s, .read t s.decl s.item⟩ := by
  rw [← scan_eq, ← body_read]
  rfl

theorem properties_read :
    f.read.properties = (f.members.filterMap Member.property?).map fun s =>
      ⟨s, .read t {} (some f.scope) s.decl s.item⟩ := by
  rw [← scan_eq, ← body_read]
  rfl

theorem methods_read :
    f.read.methods = (f.members.filterMap Member.methodSlot?).map fun s =>
      ⟨s, .read t {} (some f.scope) (f.kind == .interface) s.decl⟩ := by
  rw [← scan_eq, ← body_read, ← kind_read]
  rfl

/-- The type is found by its name, unless that begins with a backslash. -/
theorem type_eq (hroot : Outline.withoutRoot f.name.text = f.name.text)
    (diagnostics : List Diagnostic) :
    SourceFile.type ⟨t, diagnostics, .ofTable t⟩ f.name.text = .ok f.read := by
  have hout : Outline.ofTable t =
      { types := [⟨f.name.text, 1, .ofBounds 1 f.last, {}⟩] } := by
    rw [Outline.ofTable, discover_eq f]
    rfl
  simp [SourceFile.type, hout, hroot, Outline.find?, Outline.namespaceName, firstNamedAnyCase?,
    firstNamed?, orNotFound, SourceFile.readType, read]

end OneType

end PhpOutline
