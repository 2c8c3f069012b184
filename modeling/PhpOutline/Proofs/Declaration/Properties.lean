import PhpOutline.Proofs.Declaration.Binding
import PhpOutline.Proofs.Declaration.Lead

/-!
# Slots of properties

The pass over the body of a type stands in front of a property, takes exactly its tokens, and gives
one slot. From the slot the declaration is read again: the same modifiers, the same default value.

## Main definitions

* `Kind.FitsType`: the kinds that may stand outside the brackets of a type.
* `PropertyTokens`: the tokens of a property.

## Main statements

* `Member.sweep_statement`: what the pass gives for a declaration of properties.
* `Property.settle_valueStep_append`: the walk over a default value comes to its last significant
  token.
* `PropertyTokens.sweep_eq`: the slot that the pass gives.
* `PropertyTokens.modifiers_read`, `PropertyTokens.defaultValue_read`: what is read from it.
-/

namespace PhpOutline

/-! ## Declarations of properties -/

/-- What may stand outside the brackets of a type: nothing that begins or ends a member. -/
def Kind.FitsType (k : Kind) : Prop :=
  k ≠ .variableName ∧ k ≠ .keyword .function ∧ k ≠ .keyword .const ∧ k ≠ .semicolon

instance : DecidablePred Kind.FitsType := fun _ => inferInstanceAs (Decidable (_ ∧ _ ∧ _ ∧ _))

namespace Member

variable {t : TokenTable} {context : NameContext} {stop : Nat}

theorem step_fitsType {x : Token} (hx : x.kind.FitsType) (ho : x.kind.opens = none)
    (hc : x.kind.closes = none) (first i : Nat) (es : List Entry) :
    step t context stop (some first) ⟨x, i⟩ es = ⟨[], some first, 0⟩ := by
  obtain ⟨hvariable, hfunction, hconst, hsemicolon⟩ := hx
  cases hk : x.kind with
  | keyword k => cases k <;> simp_all [step]
  | _ => simp_all [step, Kind.opens, Kind.closes]

theorem step_group {x : Token} {start : Option Nat} {i n : Nat} {es : List Entry}
    (ho : x.kind.opens ≠ none) (hend : groupEnd? (x.kind :: Entry.kinds es) = some n) :
    step t context stop start ⟨x, i⟩ es = ⟨[], start, n⟩ := by
  have hclaims : (groupEnd? (Entry.kinds (⟨x, i⟩ :: es))).getD es.length = n := by
    change (groupEnd? (x.kind :: Entry.kinds es)).getD es.length = n
    rw [hend]
    rfl
  cases hk : x.kind <;> simp_all [step, Kind.opens]

/-- Behind a modifier the pass goes over a type and keeps its state. -/
theorem sweep_type {type : List Token} (h : Nested Kind.FitsType (type.map Token.kind))
    (first i : Nat) (rest : List Token) :
    sweep (step t context stop) (some first) 0 (Entry.number i (type ++ rest)) =
      sweep (step t context stop) (some first) 0 (Entry.number (i + type.length) rest) := by
  generalize hks : type.map Token.kind = ks at h
  generalize hP : Kind.FitsType = P at h
  induction h generalizing type i with
  | nil =>
    have hnil : type = [] := List.map_eq_nil_iff.1 hks
    simp [hnil]
  | plain hk ho hc _ ih =>
    obtain ⟨x, type, rfl, rfl, htail⟩ := List.map_eq_cons_iff.1 hks
    have hlen : i + 1 + type.length = i + (x :: type).length := by
      simp only [List.length_cons]
      omega
    rw [List.cons_append, Entry.number_cons, sweep_cons, step_fitsType (hP ▸ hk) ho hc, ← hlen,
      ← ih (i + 1) htail hP]
    rfl
  | @group P o c b inner ks hk ho hinner hc _ _ ih =>
    obtain ⟨x, tail, rfl, rfl, htail⟩ := List.map_eq_cons_iff.1 hks
    obtain ⟨inside, behind, rfl, rfl, hbehind⟩ := List.map_eq_append_iff.1 htail
    obtain ⟨z, type, rfl, rfl, hrest⟩ := List.map_eq_cons_iff.1 hbehind
    have hend := Entry.groupEnd?_number ho hinner hc i (type ++ rest)
    have hdrop : (inside ++ z :: (type ++ rest)).drop (inside.length + 1) = type ++ rest := by
      simp
    have hlen : i + 1 + (inside.length + 1) + type.length =
        i + (x :: (inside ++ z :: type)).length := by
      simp only [List.length_cons, List.length_append]
      omega
    rw [List.cons_append, List.append_assoc, List.cons_append, Entry.number_cons, sweep_cons,
      step_group (by simp [ho]) hend, List.nil_append, sweep_eq_drop, Entry.drop_number, hdrop,
      ih _ hrest hP, hlen]

/-- The pass takes a declaration of properties: the modifiers, the type, and a statement that begins
with a variable and ends with the token `last`. -/
theorem sweep_statement {lead type core tail rest : List Token} {name last : Token}
    (hlead : IsLead (lead.map Token.kind)) (hne : lead ≠ [])
    (htype : Nested Kind.FitsType (type.map Token.kind)) (hcore : core = name :: tail)
    (hname : name.kind = .variableName)
    (hend : statementEnd? ((core ++ last :: rest).map Token.kind) = some core.length) (i : Nat) :
    sweep (step t context stop) none 0
        (Entry.number i (lead ++ (type ++ (core ++ last :: rest)))) =
      properties t (.ofBounds i (i + (lead ++ type).length + core.length))
          (Entry.number (i + (lead ++ type).length) core) ++
        sweep (step t context stop) none 0
          (Entry.number (i + (lead ++ type).length + core.length + 1) rest) := by
  obtain ⟨start, -, hsome, hsweep⟩ := @exists_sweep_lead t context stop _ hlead i
    (type ++ (core ++ last :: rest))
  have hplace : i + lead.length + type.length = i + (lead ++ type).length := by
    rw [List.length_append, Nat.add_assoc]
  generalize i + (lead ++ type).length = place at hplace ⊢
  have hsplit : core ++ last :: rest = name :: (tail ++ last :: rest) := by
    rw [hcore, List.cons_append]
  have hlength : statementLength ⟨name, place⟩ (Entry.number (place + 1) (tail ++ last :: rest)) =
      core.length := by
    rw [statementLength, ← Entry.number_cons, Entry.kinds_number, ← hsplit, hend, Option.getD_some]
  have hstep : step t context stop (some i) ⟨name, place⟩
      (Entry.number (place + 1) (tail ++ last :: rest)) =
      ⟨properties t (.ofBounds i (place + core.length)) (Entry.number place core), none,
        core.length⟩ := by
    simp only [step, hname, hlength, Option.getD_some]
    rw [← Entry.number_cons, ← hsplit, Entry.take_number, List.take_left]
  have hdrop : (tail ++ last :: rest).drop core.length = rest := by
    simp [hcore]
  rw [hsweep, hsome hne, sweep_type htype, hplace, hsplit, Entry.number_cons, sweep_cons, hstep,
    sweep_eq_drop, Entry.drop_number, hdrop, Nat.add_right_comm]

end Member

/-! ## Default values of properties -/

namespace Property

theorem valueStep_of_insignificant {x : Token} (h : x.kind.isInsignificant = true)
    (first last state i : Nat) (es : List Entry) :
    valueStep first last state ⟨x, i⟩ es = (state, 0) := by
  cases hx : x.kind <;>
    simp_all [valueStep, Kind.isInsignificant, Kind.isTrivia]

theorem valueStep_of_significant {x : Token} (h : x.kind.isInsignificant = false)
    (ho : x.kind.opens = none) (first last state i : Nat) (es : List Entry) :
    valueStep first last state ⟨x, i⟩ es = (i, 0) := by
  cases hx : x.kind <;>
    simp_all [valueStep, Kind.isInsignificant, Kind.isTrivia, Kind.opens]

/-- A bracket belongs to the value as a whole. -/
theorem valueStep_of_group {x : Token} (hx : x.kind.FitsValue) (ho : x.kind.opens ≠ none)
    {first last state i n : Nat} {es : List Entry}
    (hend : groupEnd? (x.kind :: Entry.kinds es) = some n) :
    valueStep first last state ⟨x, i⟩ es = (i + n, n) := by
  obtain ⟨-, -, hbrace, hattribute⟩ := hx
  rcases hk : x.kind with _ | _ | _ | _ | _ | _ | _ | _ | _ | _ | _ | ⟨_ | _ | _⟩ | _ <;>
    simp_all [valueStep, Kind.opens, Entry.kinds]

/-- The walk over a value comes to its last significant token, whatever follows the value. -/
theorem settle_valueStep_append {value : List Token}
    (h : Nested Kind.FitsValue (value.map Token.kind)) (first last state i : Nat)
    (rest : List Token) :
    settle (valueStep first last) state 0 (Entry.number i (value ++ rest)) =
      settle (valueStep first last)
        (((Entry.significant (Entry.number i value)).getLast?.map Entry.index).getD state) 0
        (Entry.number (i + value.length) rest) := by
  generalize hks : value.map Token.kind = ks at h
  generalize hP : Kind.FitsValue = P at h
  induction h generalizing value state i with
  | nil =>
    have : value = [] := List.map_eq_nil_iff.1 hks
    simp [this]
  | plain hk ho hc _ ih =>
    obtain ⟨x, value, rfl, rfl, htail⟩ := List.map_eq_cons_iff.1 hks
    have hlen : i + 1 + value.length = i + (x :: value).length := by
      simp only [List.length_cons]
      omega
    rw [List.cons_append, Entry.number_cons, Entry.number_cons, settle_cons, ← hlen]
    cases hx : x.kind.isInsignificant with
    | true =>
      rw [valueStep_of_insignificant hx, ih _ _ htail hP,
        Entry.significant_cons_of_insignificant hx]
    | false =>
      rw [valueStep_of_significant hx ho, ih _ _ htail hP,
        Entry.significant_cons_of_significant hx, List.getLast?_cons]
      cases (Entry.significant (Entry.number (i + 1) value)).getLast? <;> rfl
  | @group P o c b inner ks hk ho hinner hc _ _ ih =>
    obtain ⟨x, tail, rfl, rfl, htail⟩ := List.map_eq_cons_iff.1 hks
    obtain ⟨inside, behind, rfl, rfl, hbehind⟩ := List.map_eq_append_iff.1 htail
    obtain ⟨z, value, rfl, rfl, hrest⟩ := List.map_eq_cons_iff.1 hbehind
    have hend := Entry.groupEnd?_number ho hinner hc i (value ++ rest)
    have hz : z.kind.isInsignificant = false := Kind.isInsignificant_of_closes hc
    have hx : x.kind.isInsignificant = false := Kind.isInsignificant_of_opens ho
    have hdrop : (inside ++ z :: (value ++ rest)).drop (inside.length + 1) = value ++ rest := by
      simp
    have hsig : Entry.significant (⟨x, i⟩ :: Entry.number (i + 1) (inside ++ z :: value)) =
        ⟨x, i⟩ :: (Entry.significant (Entry.number (i + 1) inside) ++
          ⟨z, i + 1 + inside.length⟩ ::
            Entry.significant (Entry.number (i + 1 + inside.length + 1) value)) := by
      rw [Entry.significant_cons_of_significant hx, Entry.number_append,
        Entry.significant_append, Entry.number_cons, Entry.significant_cons_of_significant hz]
    have hlen : i + 1 + (inside.length + 1) + value.length =
        i + (x :: (inside ++ z :: value)).length := by
      simp only [List.length_cons, List.length_append]
      omega
    rw [List.cons_append, List.append_assoc, List.cons_append, Entry.number_cons,
      Entry.number_cons, settle_cons, valueStep_of_group (hP ▸ hk) (by simp [ho]) hend,
      settle_eq_drop, Entry.drop_number, hdrop, ih _ _ hrest hP, hsig, List.getLast?_cons,
      List.getLast?_append, List.getLast?_cons, hlen, ← Nat.add_assoc, Nat.add_right_comm i 1]
    cases (Entry.significant (Entry.number (i + inside.length + 1 + 1) value)).getLast? <;> rfl

/-- The span of a default value is the span of the value, if the walk goes no further in what
follows it. -/
theorem valueSpan?_binding_append (b : Binding Kind.FitsValue) (last i : Nat) {rest : List Token}
    (hrest : ∀ state, settle (valueStep (i + 4) last) state 0
      (Entry.number (i + b.tokens.length) rest) = state) :
    valueSpan? last (Entry.number i (b.tokens ++ rest)) =
      some (.ofBounds (i + 4) (i + 3 + b.value.length)) := by
  obtain ⟨x, tail, htail, hx⟩ := b.delimited.exists_cons
  obtain ⟨init, z, hinit, hz⟩ := b.delimited.exists_concat
  have hlast : (Entry.significant (Entry.number (i + 4) b.value)).getLast? =
      some ⟨z, i + 4 + init.length⟩ := by
    rw [hinit, Entry.number_append, Entry.significant_append, Entry.number_cons,
      Entry.significant_cons_of_significant hz, List.getLast?_append]
    rfl
  have hsettle := settle_valueStep_append b.nested (i + 4) last (i + 4) (i + 4) rest
  have hlen : i + 4 + init.length = i + 3 + b.value.length := by
    simp only [hinit, List.length_append, List.length_singleton]
    omega
  have hplace : i + 4 + b.value.length = i + b.tokens.length := by
    rw [b.length_tokens]
    omega
  rw [hlast, Option.map_some, Option.getD_some, hlen, hplace, hrest] at hsettle
  rw [valueSpan?, b.skipTrivia_behind_append]
  rw [htail, List.cons_append, Entry.number_cons] at hsettle ⊢
  simp only [hsettle]

/-- The span of a default value is the span of the value. -/
theorem valueSpan?_binding (b : Binding Kind.FitsValue) (last i : Nat) :
    valueSpan? last (Entry.number i b.tokens) =
      some (.ofBounds (i + 4) (i + 3 + b.value.length)) := by
  have happend := @valueSpan?_binding_append b last i [] fun state => by
    rw [Entry.number_nil, settle_nil]
  rwa [List.append_nil] at happend

end Property

/-! ## Tokens of a property -/

/-- What a declaration of a property introduces: a variable, with a default value or without. -/
inductive PropertyItem where
  | bare (name : Token) (kind_eq : name.kind = .variableName)
  | bound (binding : Binding Kind.FitsValue) (kind_eq : binding.name.kind = .variableName)

namespace PropertyItem

/-- The variable. -/
def name : PropertyItem → Token
  | bare name _ => name
  | bound b _ => b.name

/-- The tokens from the variable on. -/
def tokens : PropertyItem → List Token
  | bare name _ => [name]
  | bound b _ => b.tokens

/-- The text of the default value. -/
def defaultValue : PropertyItem → Option Text
  | bare _ _ => none
  | bound b _ => some (textOf (b.value.map Token.piece))

variable (p : PropertyItem)

theorem name_kind : p.name.kind = .variableName := by
  cases p <;> assumption

theorem exists_tokens_eq : ∃ tail, p.tokens = p.name :: tail := by
  cases p with
  | bare name _ => exact ⟨[], rfl⟩
  | bound b _ => exact ⟨_, rfl⟩

theorem delimited : Delimited (p.tokens.map Token.kind) := by
  cases p with
  | bare name h => exact .singleton (by rw [h]; rfl)
  | bound b _ => exact b.delimited_tokens

theorem nested : Nested Kind.FitsValue (p.tokens.map Token.kind) := by
  cases p with
  | bare name h =>
    refine .plain ?_ ?_ ?_ .nil <;> rw [h]
    · exact Kind.fitsValue_of_isPlain rfl
    · rfl
    · rfl
  | bound b _ => exact b.nested_tokens fun k => Kind.fitsValue_of_isPlain

end PropertyItem

/-- The tokens of a property. -/
structure PropertyTokens where
  lead : List Token
  type : List Token
  item : PropertyItem
  stop : Token
  isLead : IsLead (lead.map Token.kind)
  lead_ne_nil : lead ≠ []
  type_kind : ∀ x ∈ type, x.kind = .question ∨ x.kind = .name ∨ x.kind = .whitespace
  stop_kind : stop.kind = .semicolon

namespace PropertyTokens

variable (p : PropertyTokens)

/-- The tokens in front of the variable. -/
def front : List Token := p.lead ++ p.type

/-- The tokens, in order. -/
def tokens : List Token := p.front ++ (p.item.tokens ++ [p.stop])

/-- The slot of the property when its first token has place `i`. -/
def slot (i : Nat) : Slot where
  name := p.item.name.text.drop 1
  decl := .ofBounds i (i + p.front.length + p.item.tokens.length)
  item := .ofBounds (i + p.front.length) (i + p.front.length + p.item.tokens.length - 1)

variable {t : TokenTable} {before after : List Token}

theorem within_item (h : t.tokens = before ++ (p.tokens ++ after)) :
    t.within (p.slot before.length).item =
      Entry.number (before.length + p.front.length) p.item.tokens := by
  have hsplit : t.tokens = (before ++ p.front) ++ (p.item.tokens ++ (p.stop :: after)) := by
    simp [h, tokens]
  have hpos := p.item.delimited.length_pos
  exact TokenTable.within_part hsplit (by simp) (by simp; omega) (by omega)

theorem within_decl (h : t.tokens = before ++ (p.tokens ++ after)) :
    t.within (p.slot before.length).decl = Entry.number before.length p.tokens :=
  TokenTable.within_part h rfl (by simp [tokens]; omega) (by omega)

theorem named_eq (h : t.tokens = before ++ (p.tokens ++ after)) :
    Property.named t (p.slot before.length).item =
      Entry.number (before.length + p.front.length) p.item.tokens := by
  obtain ⟨tail, htail⟩ := p.item.exists_tokens_eq
  rw [Property.named, p.within_item h, htail, Entry.number_cons,
    List.dropWhile_cons_of_neg (by simp [p.item.name_kind])]

/-- The tokens from the variable on hold one property. -/
theorem properties_eq (h : t.tokens = before ++ (p.tokens ++ after)) :
    Member.properties t (p.slot before.length).decl
      (Entry.number (before.length + p.front.length) p.item.tokens) =
      [.property (p.slot before.length)] := by
  have hitem : Entry.pieces (Entry.number (before.length + p.front.length) p.item.tokens) =
      [(p.slot before.length).item] :=
    Entry.pieces_item [] p.item.tokens (fun x hx => absurd hx List.not_mem_nil) p.item.delimited
      (p.item.nested.mono fun k hk => hk.1) (before.length + p.front.length)
  obtain ⟨tail, htail⟩ := p.item.exists_tokens_eq
  rw [Member.properties, hitem, List.filterMap_cons, List.filterMap_nil, p.named_eq h, htail]
  rfl

theorem type_nested : Nested Kind.FitsType (p.type.map Token.kind) := by
  have hkinds := p.type_kind
  generalize p.type = type at hkinds
  induction type with
  | nil => exact .nil
  | cons x type ih =>
    have htail := ih fun y hy => hkinds y (List.mem_cons_of_mem x hy)
    rw [List.map_cons]
    rcases hkinds x List.mem_cons_self with hx | hx | hx <;> rw [hx]
    · exact .plain (by decide) rfl rfl htail
    · exact .plain (by decide) rfl rfl htail
    · exact .plain (by decide) rfl rfl htail

/-- The statement that begins with the variable ends with the semicolon. -/
theorem statementEnd?_eq (rest : List Token) :
    statementEnd? ((p.item.tokens ++ p.stop :: rest).map Token.kind) =
      some p.item.tokens.length := by
  have hnested := p.item.nested.mono (Q := fun k => k ≠ .semicolon ∧ k ≠ .opener .brace)
    fun k hk => ⟨hk.2.1, hk.2.2.1⟩
  rw [List.map_append, List.map_cons, p.stop_kind, hnested.statementEnd?_append]
  simp [statementEnd?, seek]

/-- The pass takes the tokens of the property and gives its slot. -/
theorem sweep_eq {context : NameContext} {stop : Nat} (h : t.tokens = before ++ (p.tokens ++ after))
    (rest : List Token) :
    sweep (Member.step t context stop) none 0 (Entry.number before.length (p.tokens ++ rest)) =
      .property (p.slot before.length) :: sweep (Member.step t context stop) none 0
        (Entry.number (before.length + p.tokens.length) rest) := by
  obtain ⟨tail, htail⟩ := p.item.exists_tokens_eq
  have hsplit : p.tokens ++ rest = p.lead ++ (p.type ++ (p.item.tokens ++ p.stop :: rest)) := by
    simp [tokens, front]
  have hend : before.length + p.front.length + p.item.tokens.length + 1 =
      before.length + p.tokens.length := by
    simp only [tokens, List.length_append, List.length_singleton]
    omega
  have hsweep := @Member.sweep_statement t context stop _ _ _ _ _ _ _ p.isLead p.lead_ne_nil
    p.type_nested htail p.item.name_kind (p.statementEnd?_eq rest) before.length
  rw [hsplit, hsweep, ← front, hend, ← List.singleton_append, ← p.properties_eq h]
  rfl

/-- The modifiers that are read are those in front of the type. -/
theorem modifiers_read {context : NameContext} {scope : Option ClassScope}
    (h : t.tokens = before ++ (p.tokens ++ after)) :
    (Property.read t context scope (p.slot before.length).decl
      (p.slot before.length).item).modifiers = .ofKinds (p.front.map Token.kind) := by
  obtain ⟨tail, htail⟩ := p.item.exists_tokens_eq
  have hfront : ∀ x ∈ p.front, (x.kind != .variableName) = true := by
    intro x hx
    rcases List.mem_append.1 hx with hx | hx
    · simpa using p.isLead.ne rfl (by simp) x hx
    · rcases p.type_kind x hx with hk | hk | hk <;> simp [hk]
  have hname : (p.item.name.kind != .variableName) = false := by
    simp [p.item.name_kind]
  have htake := Entry.takeWhile_number (p := (· != .variableName)) hfront hname before.length
    (tail ++ [p.stop])
  simp only [Property.read, p.within_decl h]
  rw [tokens, htail, List.cons_append, htake, Entry.kinds_number]

/-- The default value that is read is the text behind the equals sign. -/
theorem defaultValue_read {context : NameContext} {scope : Option ClassScope} (ht : t.IsGapless)
    (h : t.tokens = before ++ (p.tokens ++ after)) :
    (Property.read t context scope (p.slot before.length).decl
      (p.slot before.length).item).defaultValue = p.item.defaultValue := by
  simp only [Property.read, p.named_eq h]
  cases hitem : p.item with
  | bare name hname =>
    simp [PropertyItem.tokens, Property.valueSpan?, hname, Entry.skipTrivia,
      PropertyItem.defaultValue]
  | bound b hname =>
    have hsplit : t.tokens = (before ++ p.front ++ [b.name, b.gap₁, b.equals, b.gap₂]) ++
        (b.value ++ (p.stop :: after)) := by
      simp [h, tokens, hitem, PropertyItem.tokens, Binding.tokens]
    have hpos := b.delimited.length_pos
    rw [PropertyItem.tokens, Property.valueSpan?_binding, Option.map_some,
      TokenTable.sourceOf_part ht hsplit (by simp; omega) (by simp; omega) (by omega)]
    rfl

end PropertyTokens

/-! ## Properties in a source -/

/-- The pieces of a variable with a default value or without. -/
def PropertyItem.pieces (name : Text) : Option (List Piece) → List Piece
  | none => [.token .variableName name none]
  | some value => Binding.pieces .variableName name value

theorem PropertyItem.faultless_pieces {name : Text} {value : Option (List Piece)}
    (h : ∀ ps ∈ value, Faultless ps) : Faultless (pieces name value) := by
  cases value with
  | none => exact .cons rfl .nil
  | some ps => exact Binding.faultless_pieces (h ps rfl)

theorem PropertyItem.nested_pieces {name : Text} {value : Option (List Piece)}
    (h : ∀ ps ∈ value, Nested Kind.FitsValue (kindsOf ps)) :
    Nested (fun _ => True) (kindsOf (pieces name value)) := by
  cases value with
  | none => exact .plain trivial rfl rfl .nil
  | some ps =>
    exact Binding.nested_pieces (fun _ _ => trivial) rfl ((h ps rfl).mono fun _ _ => trivial)

theorem PropertyItem.exists_of_pieces {ts : List Token} {name : Text} {value : Option (List Piece)}
    (h : ts.map Token.piece = pieces name value) (hd : ∀ ps ∈ value, Delimited (kindsOf ps))
    (hn : ∀ ps ∈ value, Nested Kind.FitsValue (kindsOf ps)) :
    ∃ p : PropertyItem, p.tokens = ts ∧ p.name.text = name ∧
      p.defaultValue = value.map textOf := by
  cases value with
  | none =>
    obtain ⟨x, rest, rfl, hx, htext, hrest⟩ := exists_cons_of_map_piece h
    obtain rfl := List.map_eq_nil_iff.1 hrest
    exact ⟨.bare x hx, rfl, htext, rfl⟩
  | some ps =>
    obtain ⟨b, rfl, hb, htext, hvalue⟩ := Binding.exists_of_pieces h rfl (hd ps rfl) (hn ps rfl)
    refine ⟨.bound b hb, rfl, htext, ?_⟩
    rw [PropertyItem.defaultValue, hvalue]
    rfl

namespace PropertyTokens

/-- The pieces of a property. -/
def pieces (lead type : List Piece) (name : Text) (value : Option (List Piece)) : List Piece :=
  lead ++ (type ++ (PropertyItem.pieces name value ++ [.token .semicolon ";".toList none]))

theorem faultless_pieces {lead type : List Piece} {name : Text} {value : Option (List Piece)}
    (hlead : Faultless lead) (htype : Faultless type) (hvalue : ∀ ps ∈ value, Faultless ps) :
    Faultless (pieces lead type name value) :=
  hlead.append (htype.append ((PropertyItem.faultless_pieces hvalue).append (.cons rfl .nil)))

/-- The kinds of the tokens of a type. -/
def IsType (ks : List Kind) : Prop := ∀ k ∈ ks, k = .question ∨ k = .name ∨ k = .whitespace

theorem IsType.nested {ks : List Kind} (h : IsType ks) : Nested (fun _ => True) ks := by
  induction ks with
  | nil => exact .nil
  | cons k ks ih =>
    have hks := ih fun j hj => h j (List.mem_cons_of_mem k hj)
    rcases h k List.mem_cons_self with rfl | rfl | rfl <;> exact .plain trivial rfl rfl hks

theorem nested_pieces {lead type : List Piece} {name : Text} {value : Option (List Piece)}
    (hlead : IsLead (kindsOf lead)) (htype : IsType (kindsOf type))
    (hvalue : ∀ ps ∈ value, Nested Kind.FitsValue (kindsOf ps)) :
    Nested (fun _ => True) (kindsOf (pieces lead type name value)) := by
  simp only [pieces, kindsOf_append, kindsOf_token, kindsOf_nil]
  exact hlead.nested.append (htype.nested.append ((PropertyItem.nested_pieces hvalue).append
    (.plain trivial rfl rfl .nil)))

/-- Tokens with these pieces are a property. -/
theorem exists_of_pieces {ts : List Token} {lead type : List Piece} {name : Text}
    {value : Option (List Piece)} (h : ts.map Token.piece = pieces lead type name value)
    (hlead : IsLead (kindsOf lead)) (hne : lead ≠ []) (htype : IsType (kindsOf type))
    (hd : ∀ ps ∈ value, Delimited (kindsOf ps))
    (hn : ∀ ps ∈ value, Nested Kind.FitsValue (kindsOf ps)) :
    ∃ p : PropertyTokens, p.tokens = ts ∧ p.item.name.text = name ∧
      p.lead.map Token.piece = lead ∧ p.type.map Token.piece = type ∧
      p.item.defaultValue = value.map textOf := by
  obtain ⟨front, rest, rfl, hfront, hrest⟩ := List.map_eq_append_iff.1 h
  obtain ⟨types, rest₁, rfl, htypes, hrest₁⟩ := List.map_eq_append_iff.1 hrest
  obtain ⟨items, rest₂, rfl, hitems, hrest₂⟩ := List.map_eq_append_iff.1 hrest₁
  obtain ⟨stop, rest₂, rfl, hstop, -, hnil⟩ := exists_cons_of_map_piece hrest₂
  obtain rfl := List.map_eq_nil_iff.1 hnil
  obtain ⟨item, rfl, hname, hvalue⟩ := PropertyItem.exists_of_pieces hitems hd hn
  rw [← hfront, kindsOf_map_piece] at hlead
  rw [← htypes, kindsOf_map_piece] at htype
  have hfront_ne : front ≠ [] := by
    rintro rfl
    exact hne hfront.symm
  refine ⟨⟨front, types, item, stop, hlead, hfront_ne, ?_, hstop⟩, ?_, hname, hfront, htypes,
    hvalue⟩
  · intro x hx
    exact htype x.kind (List.mem_map_of_mem hx)
  · simp [tokens, PropertyTokens.front]

end PropertyTokens

end PhpOutline
