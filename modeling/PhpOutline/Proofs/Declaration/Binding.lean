import PhpOutline.Proofs.TokenTable.Items
import PhpOutline.Proofs.TokenTable.Parts

/-!
# Names bound to values

A constant, a property with a default and a parameter with a default share one shape: a name or
variable, an equals sign, and a value. The readers of all three find the value behind the first
equals sign.

## Main definitions

* `Kind.isPlain`: the kinds that stand in a declaration without a meaning of their own.
* `Kind.FitsValue`: the kinds that may stand outside the brackets of a value.
* `Binding`: the tokens of a name bound to a value.

## Main statements

* `Binding.delimited_tokens`, `Binding.nested_tokens`: a binding is one item of a list.
* `Binding.dropWhile_equals`, `Binding.skipTrivia_behind`: the value stands behind the first equals
  sign.
-/

namespace PhpOutline

/-- The kinds of a name or variable. -/
def Kind.isSubject : Kind → Bool
  | name | keyword _ | variableName => true
  | _ => false

/-- The kinds of a name or variable, and those that lead from it to its value. -/
def Kind.isPlain : Kind → Bool
  | whitespace | equals => true
  | k => k.isSubject

namespace Kind

theorem isPlain_of_isSubject {k : Kind} (h : k.isSubject = true) : k.isPlain = true := by
  cases k <;> simp_all [isSubject, isPlain]

theorem isInsignificant_of_isSubject {k : Kind} (h : k.isSubject = true) :
    k.isInsignificant = false := by
  cases k <;> simp_all [isSubject, isInsignificant, isTrivia]

theorem opens_of_isPlain {k : Kind} (h : k.isPlain = true) : k.opens = none := by
  cases k <;> simp_all [isSubject, isPlain, opens]

theorem closes_of_isPlain {k : Kind} (h : k.isPlain = true) : k.closes = none := by
  cases k <;> simp_all [isSubject, isPlain, closes]

theorem ne_equals_of_isSubject {k : Kind} (h : k.isSubject = true) : k ≠ .equals := by
  rintro rfl
  simp [isSubject] at h

end Kind

/-- Kinds without a meaning of their own are nested whatever they stand before. -/
theorem Nested.append_plain {P : Kind → Prop} (hP : ∀ k : Kind, k.isPlain = true → P k)
    {ks ls : List Kind} (hks : ∀ k ∈ ks, k.isPlain = true) (hl : Nested P ls) :
    Nested P (ks ++ ls) := by
  induction ks with
  | nil => exact hl
  | cons k ks ih =>
    have hk := hks k (by simp)
    exact .plain (hP k hk) (Kind.opens_of_isPlain hk) (Kind.closes_of_isPlain hk)
      (ih fun j hj => hks j (by simp [hj]))

/-- What may stand outside the brackets of a value: anything but what ends the value of a constant
or property before its semicolon. -/
def Kind.FitsValue (k : Kind) : Prop :=
  k ≠ .comma ∧ k ≠ .semicolon ∧ k ≠ .opener .brace ∧ k ≠ .attributeOpener

instance : DecidablePred Kind.FitsValue := fun _ => inferInstanceAs (Decidable (_ ∧ _ ∧ _ ∧ _))

theorem Kind.fitsValue_of_isPlain {k : Kind} (h : k.isPlain = true) : k.FitsValue := by
  cases k <;> simp_all [Kind.FitsValue, Kind.isPlain, Kind.isSubject]

/-- A name or variable bound to a value, in which the condition holds outside all brackets. -/
structure Binding (P : Kind → Prop) where
  name : Token
  gap₁ : Token
  equals : Token
  gap₂ : Token
  value : List Token
  name_kind : name.kind.isSubject = true
  gap₁_kind : gap₁.kind = .whitespace
  equals_kind : equals.kind = .equals
  gap₂_kind : gap₂.kind = .whitespace
  delimited : Delimited (value.map Token.kind)
  nested : Nested P (value.map Token.kind)

namespace Binding

variable {P : Kind → Prop} (b : Binding P)

/-- The tokens of a binding. -/
def tokens : List Token := b.name :: b.gap₁ :: b.equals :: b.gap₂ :: b.value

theorem length_tokens : b.tokens.length = 4 + b.value.length := by
  simp only [tokens, List.length_cons]
  omega

theorem delimited_tokens : Delimited (b.tokens.map Token.kind) :=
  b.delimited.cons_append (Kind.isInsignificant_of_isSubject b.name_kind)
    [b.gap₁.kind, b.equals.kind, b.gap₂.kind]

theorem nested_tokens (hP : ∀ k : Kind, k.isPlain = true → P k) :
    Nested P (b.tokens.map Token.kind) := by
  have hfront : ∀ k ∈ [b.name.kind, b.gap₁.kind, b.equals.kind, b.gap₂.kind],
      k.isPlain = true := by
    have hname := Kind.isPlain_of_isSubject b.name_kind
    have hblank : Kind.whitespace.isPlain = true := rfl
    have hequals : Kind.equals.isPlain = true := rfl
    simp [b.gap₁_kind, b.equals_kind, b.gap₂_kind, hname, hblank, hequals]
  exact Nested.append_plain hP hfront b.nested

/-! ## Around the equals sign -/

theorem ne_equals : ∀ x ∈ [b.name, b.gap₁], (x.kind != .equals) = true := by
  simp [b.gap₁_kind, Kind.ne_equals_of_isSubject b.name_kind]

theorem takeWhile_equals (i : Nat) :
    (Entry.number i b.tokens).takeWhile (fun e => e.kind != .equals) =
      [⟨b.name, i⟩, ⟨b.gap₁, i + 1⟩] :=
  Entry.takeWhile_number (p := (· != .equals)) b.ne_equals (by simp [b.equals_kind]) i _

theorem dropWhile_equals (i : Nat) (rest : List Token) :
    (Entry.number i (b.tokens ++ rest)).dropWhile (fun e => e.kind != .equals) =
      ⟨b.equals, i + 2⟩ :: ⟨b.gap₂, i + 3⟩ :: Entry.number (i + 4) (b.value ++ rest) :=
  Entry.dropWhile_number (p := (· != .equals)) b.ne_equals (by simp [b.equals_kind]) i _

/-- Behind the equals sign the first significant entry is the first one of the value. -/
theorem skipTrivia_gap_append (i : Nat) (rest : List Token) :
    Entry.skipTrivia (⟨b.gap₂, i⟩ :: Entry.number (i + 1) (b.value ++ rest)) =
      Entry.number (i + 1) (b.value ++ rest) := by
  obtain ⟨x, tail, htail, hx⟩ := b.delimited.exists_cons
  have hgap : ∀ e ∈ [Entry.mk b.gap₂ i], e.kind.isInsignificant = true := by
    simp [b.gap₂_kind, Kind.isInsignificant, Kind.isTrivia]
  rw [htail, List.cons_append, Entry.number_cons]
  exact Entry.skipTrivia_append hgap hx

theorem skipTrivia_gap (i : Nat) :
    Entry.skipTrivia (⟨b.gap₂, i⟩ :: Entry.number (i + 1) b.value) =
      Entry.number (i + 1) b.value := by
  have happend := b.skipTrivia_gap_append i []
  rwa [List.append_nil] at happend

/-- The value stands behind the first equals sign, whatever follows it. -/
theorem skipTrivia_behind_append (i : Nat) (rest : List Token) :
    Entry.skipTrivia (((Entry.number i (b.tokens ++ rest)).dropWhile
      fun e => e.kind != .equals).drop 1) = Entry.number (i + 4) (b.value ++ rest) := by
  rw [dropWhile_equals]
  exact b.skipTrivia_gap_append (i + 3) rest

/-- The value stands behind the first equals sign. -/
theorem skipTrivia_behind (i : Nat) :
    Entry.skipTrivia (((Entry.number i b.tokens).dropWhile fun e => e.kind != .equals).drop 1) =
      Entry.number (i + 4) b.value := by
  have happend := b.skipTrivia_behind_append i []
  rwa [List.append_nil, List.append_nil] at happend

theorem head?_number_value (i : Nat) :
    ∃ x, (Entry.number i b.value).head? = some ⟨x, i⟩ := by
  obtain ⟨x, tail, htail, -⟩ := b.delimited.exists_cons
  exact ⟨x, by rw [htail]; rfl⟩

/-! ## Bindings in a source -/

/-- The pieces of a name or variable bound to a value. -/
def pieces (kind : Kind) (name : Text) (value : List Piece) : List Piece :=
  .token kind name none :: .token .whitespace " ".toList none :: .token .equals "=".toList none ::
    .token .whitespace " ".toList none :: value

theorem faultless_pieces {kind : Kind} {name : Text} {value : List Piece} (h : Faultless value) :
    Faultless (pieces kind name value) :=
  .cons rfl (.cons rfl (.cons rfl (.cons rfl h)))

theorem nested_pieces {kind : Kind} {name : Text} {value : List Piece}
    (hP : ∀ k : Kind, k.isPlain = true → P k) (hkind : kind.isSubject = true)
    (h : Nested P (kindsOf value)) : Nested P (kindsOf (pieces kind name value)) := by
  have hfront : ∀ k ∈ [kind, .whitespace, .equals, .whitespace], k.isPlain = true := by
    have hname := Kind.isPlain_of_isSubject hkind
    have hblank : Kind.whitespace.isPlain = true := rfl
    have hequals : Kind.equals.isPlain = true := rfl
    simp [hname, hblank, hequals]
  exact Nested.append_plain hP hfront h

/-- Tokens with these pieces are a binding. -/
theorem exists_of_pieces {ts : List Token} {kind : Kind} {name : Text} {value : List Piece}
    (h : ts.map Token.piece = pieces kind name value) (hkind : kind.isSubject = true)
    (hd : Delimited (kindsOf value)) (hn : Nested P (kindsOf value)) :
    ∃ b : Binding P, b.tokens = ts ∧ b.name.kind = kind ∧ b.name.text = name ∧
      b.value.map Token.piece = value := by
  obtain ⟨subject, ts, rfl, hsubject, htext, hrest⟩ := exists_cons_of_map_piece h
  obtain ⟨gap₁, ts, rfl, hgap₁, -, hrest⟩ := exists_cons_of_map_piece hrest
  obtain ⟨equals, ts, rfl, hequals, -, hrest⟩ := exists_cons_of_map_piece hrest
  obtain ⟨gap₂, ts, rfl, hgap₂, -, hrest⟩ := exists_cons_of_map_piece hrest
  rw [← hrest, kindsOf_map_piece] at hd hn
  exact ⟨⟨subject, gap₁, equals, gap₂, ts, by rw [hsubject]; exact hkind, hgap₁, hequals, hgap₂,
    hd, hn⟩, rfl, hsubject, htext, hrest⟩

end Binding

end PhpOutline
