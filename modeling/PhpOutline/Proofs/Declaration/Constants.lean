import PhpOutline.Proofs.Declaration.Binding
import PhpOutline.Proofs.Declaration.Lead

/-!
# Slots of constants

The pass over the body of a type stands in front of a constant, takes exactly its tokens, and gives
one slot. From the slot the declaration is read again: the same modifiers, the same value.

## Main definitions

* `ConstantTokens`: the tokens of a constant.

## Main statements

* `ConstantTokens.sweep_eq`: the slot that the pass gives.
* `ConstantTokens.modifiers_read`, `ConstantTokens.value_read`: what is read from it.
-/

namespace PhpOutline

/-- The tokens of a constant. -/
structure ConstantTokens where
  lead : List Token
  word : Token
  gap : Token
  binding : Binding Kind.FitsValue
  stop : Token
  isLead : IsLead (lead.map Token.kind)
  word_kind : word.kind = .keyword .const
  gap_kind : gap.kind = .whitespace
  stop_kind : stop.kind = .semicolon

namespace ConstantTokens

variable (c : ConstantTokens)

/-- The tokens, in order. -/
def tokens : List Token := c.lead ++ c.word :: c.gap :: (c.binding.tokens ++ [c.stop])

/-- The slot of the constant when its first token has place `i`. -/
def slot (i : Nat) : Slot where
  name := c.binding.name.text
  decl := .ofBounds i (i + c.lead.length + 2 + c.binding.tokens.length)
  item := .ofBounds (i + c.lead.length + 2) (i + c.lead.length + 1 + c.binding.tokens.length)

variable {t : TokenTable} {before after : List Token}

theorem within_item (h : t.tokens = before ++ (c.tokens ++ after)) :
    t.within (c.slot before.length).item =
      Entry.number (before.length + c.lead.length + 2) c.binding.tokens := by
  have hsplit : t.tokens = (before ++ c.lead ++ [c.word, c.gap]) ++
      (c.binding.tokens ++ (c.stop :: after)) := by
    simp [h, tokens]
  have hlen := c.binding.length_tokens
  exact TokenTable.within_part hsplit (by simp; omega) (by simp; omega) (by omega)

theorem within_decl (h : t.tokens = before ++ (c.tokens ++ after)) :
    t.within (c.slot before.length).decl = Entry.number before.length c.tokens :=
  TokenTable.within_part h rfl (by simp [tokens]; omega) (by omega)

theorem nameIndex?_eq (h : t.tokens = before ++ (c.tokens ++ after)) :
    Constant.nameIndex? t (c.slot before.length).item =
      some (before.length + c.lead.length + 2) := by
  have hany : ((Entry.number (before.length + c.lead.length + 2) c.binding.tokens).any
      fun e => e.kind == .equals) = true := by
    simp [Binding.tokens, c.binding.equals_kind]
  simp only [Constant.nameIndex?, c.within_item h, hany, if_true, Binding.takeWhile_equals]
  rw [Entry.significant_cons_of_significant
    (Kind.isInsignificant_of_isSubject c.binding.name_kind),
    Entry.significant_cons_of_insignificant (by simp only [c.binding.gap₁_kind]; rfl)]
  rfl

/-- The statement goes on up to its semicolon. -/
theorem statementEnd?_eq (i : Nat) (rest : List Token) :
    statementEnd? (Entry.kinds (Entry.number i
      (c.word :: c.gap :: (c.binding.tokens ++ c.stop :: rest)))) =
      some (c.binding.tokens.length + 2) := by
  have hnested : Nested (fun k => k ≠ .semicolon ∧ k ≠ .opener .brace)
      ((c.word :: c.gap :: c.binding.tokens).map Token.kind) := by
    have hfront : ∀ k ∈ [c.word.kind, c.gap.kind], k.isPlain = true := by
      simp [c.word_kind, c.gap_kind, Kind.isPlain, Kind.isSubject]
    have := Nested.append_plain (fun k => Kind.fitsValue_of_isPlain) hfront
      (c.binding.nested_tokens fun k => Kind.fitsValue_of_isPlain)
    exact this.mono fun k hk => ⟨hk.2.1, hk.2.2.1⟩
  have hsplit : (c.word :: c.gap :: (c.binding.tokens ++ c.stop :: rest)).map Token.kind =
      (c.word :: c.gap :: c.binding.tokens).map Token.kind ++ .semicolon ::
        rest.map Token.kind := by
    simp [c.stop_kind]
  rw [Entry.kinds_number, hsplit, hnested.statementEnd?_append]
  simp [statementEnd?, seek]

/-- The tokens behind the word hold one constant. -/
theorem constants_eq (h : t.tokens = before ++ (c.tokens ++ after)) :
    Member.constants t (c.slot before.length).decl
      (Entry.number (before.length + c.lead.length + 1) (c.gap :: c.binding.tokens)) =
      [.constant (c.slot before.length)] := by
  have hgap : ∀ x ∈ [c.gap], x.kind.isInsignificant = true := by
    simp [c.gap_kind, Kind.isInsignificant, Kind.isTrivia]
  have hnested : Nested (· ≠ .comma) (([c.gap] ++ c.binding.tokens).map Token.kind) := by
    have hplain : ∀ k ∈ [c.gap.kind], k.isPlain = true := by
      simp [c.gap_kind, Kind.isPlain]
    have := Nested.append_plain (fun k => Kind.fitsValue_of_isPlain) hplain
      (c.binding.nested_tokens fun k => Kind.fitsValue_of_isPlain)
    exact this.mono fun k hk => hk.1
  have hlen := c.binding.length_tokens
  have hitem : Entry.pieces (Entry.number (before.length + c.lead.length + 1)
      (c.gap :: c.binding.tokens)) = [(c.slot before.length).item] := by
    have := Entry.pieces_item [c.gap] c.binding.tokens hgap c.binding.delimited_tokens hnested
      (before.length + c.lead.length + 1)
    rw [List.singleton_append] at this
    rw [this, slot]
    simp only [List.length_singleton]
    congr 2
    omega
  have htext : t.text (before.length + c.lead.length + 2) = c.binding.name.text := by
    have hsplit : t.tokens = (before ++ c.lead ++ [c.word, c.gap]) ++ c.binding.name ::
        (c.binding.gap₁ :: c.binding.equals :: c.binding.gap₂ ::
          (c.binding.value ++ c.stop :: after)) := by
      simp [h, tokens, Binding.tokens]
    have := TokenTable.get?_length hsplit
    simp only [List.length_append, List.length_cons, List.length_nil, Nat.zero_add] at this
    rw [TokenTable.text, this]
    rfl
  rw [Member.constants, hitem, List.filterMap_cons, List.filterMap_nil, c.nameIndex?_eq h]
  simp only [Option.map_some, htext]
  rfl

/-- The pass takes the tokens of the constant and gives its slot. -/
theorem sweep_eq {context : NameContext} {stop : Nat} (h : t.tokens = before ++ (c.tokens ++ after))
    (rest : List Token) :
    sweep (Member.step t context stop) none 0 (Entry.number before.length (c.tokens ++ rest)) =
      .constant (c.slot before.length) :: sweep (Member.step t context stop) none 0
        (Entry.number (before.length + c.tokens.length) rest) := by
  have hsplit : c.tokens ++ rest =
      c.lead ++ c.word :: c.gap :: (c.binding.tokens ++ c.stop :: rest) := by
    simp [tokens]
  obtain ⟨start, hstart, -, hlead⟩ := @Member.exists_sweep_lead t context stop _ c.isLead
    before.length (c.word :: c.gap :: (c.binding.tokens ++ c.stop :: rest))
  have hlength : Member.statementLength ⟨c.word, before.length + c.lead.length⟩
      (Entry.number (before.length + c.lead.length + 1)
        (c.gap :: (c.binding.tokens ++ c.stop :: rest))) = c.binding.tokens.length + 2 := by
    have := c.statementEnd?_eq (before.length + c.lead.length) rest
    rw [Entry.number_cons] at this
    rw [Member.statementLength, this]
    rfl
  have htake : (Entry.number (before.length + c.lead.length + 1)
      (c.gap :: (c.binding.tokens ++ c.stop :: rest))).take (c.binding.tokens.length + 1) =
      Entry.number (before.length + c.lead.length + 1) (c.gap :: c.binding.tokens) := by
    simp [Entry.take_number]
  have hdecl : Span.ofBounds before.length
      (before.length + c.lead.length + (c.binding.tokens.length + 2)) =
      (c.slot before.length).decl := by
    rw [slot]
    congr 1
    omega
  have hstep : Member.step t context stop start ⟨c.word, before.length + c.lead.length⟩
      (Entry.number (before.length + c.lead.length + 1)
        (c.gap :: (c.binding.tokens ++ c.stop :: rest))) =
      ⟨[.constant (c.slot before.length)], none, c.binding.tokens.length + 2⟩ := by
    simp only [Member.step, c.word_kind, hlength, hstart, hdecl]
    rw [Nat.add_sub_assoc (by omega), htake, c.constants_eq h]
  rw [hsplit, hlead, Entry.number_cons, sweep_cons, hstep, sweep_eq_drop, Entry.drop_number]
  simp only [List.singleton_append, List.cons.injEq, true_and]
  congr 2
  · simp [tokens]
    omega
  · simp

/-- The modifiers that are read are those in front of the word. -/
theorem modifiers_read (h : t.tokens = before ++ (c.tokens ++ after)) :
    (Constant.read t (c.slot before.length).decl (c.slot before.length).item).modifiers =
      .ofKinds (c.lead.map Token.kind) := by
  have hlead : ∀ x ∈ c.lead, (x.kind != .keyword .const) = true := by
    intro x hx
    simpa using c.isLead.ne rfl (by simp) x hx
  have hword : (c.word.kind != .keyword .const) = false := by
    simp [c.word_kind]
  have hfront := Entry.takeWhile_number (p := (· != .keyword .const)) hlead hword before.length
    (c.gap :: (c.binding.tokens ++ [c.stop]))
  simp only [Constant.read, c.within_decl h]
  rw [tokens, hfront, Entry.kinds_number]

/-- The value that is read is the text behind the equals sign. -/
theorem value_read (ht : t.IsGapless) (h : t.tokens = before ++ (c.tokens ++ after)) :
    (Constant.read t (c.slot before.length).decl (c.slot before.length).item).value =
      some (textOf (c.binding.value.map Token.piece)) := by
  obtain ⟨x, hx⟩ := c.binding.head?_number_value (before.length + c.lead.length + 2 + 4)
  have hsplit : t.tokens = (before ++ c.lead ++ [c.word, c.gap, c.binding.name, c.binding.gap₁,
      c.binding.equals, c.binding.gap₂]) ++ (c.binding.value ++ (c.stop :: after)) := by
    simp [h, tokens, Binding.tokens]
  have hlen := c.binding.length_tokens
  have hpos := c.binding.delimited.length_pos
  simp only [Constant.read, c.within_item h, c.binding.skipTrivia_behind, hx, Option.map_some]
  have hlast : (c.slot before.length).item.last =
      before.length + c.lead.length + 5 + c.binding.value.length := by
    simp only [slot, Span.last_ofBounds, hlen]
    omega
  rw [hlast, TokenTable.sourceOf_part ht hsplit (by simp; omega) (by simp; omega) (by omega)]

/-! ## Constants in a source -/

/-- The pieces of a constant. -/
def pieces (lead : List Piece) (kind : Kind) (name : Text) (value : List Piece) : List Piece :=
  lead ++ .token (.keyword .const) "const".toList none :: .token .whitespace " ".toList none ::
    (Binding.pieces kind name value ++ [.token .semicolon ";".toList none])

theorem faultless_pieces {lead value : List Piece} {kind : Kind} {name : Text}
    (hlead : Faultless lead) (hvalue : Faultless value) :
    Faultless (pieces lead kind name value) :=
  hlead.append (.cons rfl (.cons rfl ((Binding.faultless_pieces hvalue).append (.cons rfl .nil))))

theorem nested_pieces {lead value : List Piece} {kind : Kind} {name : Text}
    (hlead : IsLead (kindsOf lead)) (hkind : kind.isSubject = true)
    (hvalue : Nested Kind.FitsValue (kindsOf value)) :
    Nested (fun _ => True) (kindsOf (pieces lead kind name value)) := by
  have hbinding : Nested (fun _ => True) (kindsOf (Binding.pieces kind name value)) :=
    Binding.nested_pieces (fun _ _ => trivial) hkind (hvalue.mono fun _ _ => trivial)
  simp only [pieces, kindsOf_append, kindsOf_token]
  exact hlead.nested.append (.plain trivial rfl rfl (.plain trivial rfl rfl (hbinding.append
    (.plain trivial rfl rfl .nil))))

/-- Tokens with these pieces are a constant. -/
theorem exists_of_pieces {ts : List Token} {lead value : List Piece} {kind : Kind} {name : Text}
    (h : ts.map Token.piece = pieces lead kind name value) (hlead : IsLead (kindsOf lead))
    (hkind : kind.isSubject = true) (hd : Delimited (kindsOf value))
    (hn : Nested Kind.FitsValue (kindsOf value)) :
    ∃ c : ConstantTokens, c.tokens = ts ∧ c.binding.name.text = name ∧
      c.lead.map Token.piece = lead ∧ c.binding.value.map Token.piece = value := by
  obtain ⟨front, rest, rfl, hfront, hrest⟩ := List.map_eq_append_iff.1 h
  obtain ⟨word, rest, rfl, hword, -, hrest⟩ := exists_cons_of_map_piece hrest
  obtain ⟨gap, rest, rfl, hgap, -, hrest⟩ := exists_cons_of_map_piece hrest
  obtain ⟨bound, rest', rfl, hbound, hrest'⟩ := List.map_eq_append_iff.1 hrest
  obtain ⟨stop, rest', rfl, hstop, -, hnil⟩ := exists_cons_of_map_piece hrest'
  obtain rfl := List.map_eq_nil_iff.1 hnil
  obtain ⟨b, rfl, -, hname, hvalue⟩ := Binding.exists_of_pieces hbound hkind hd hn
  rw [← hfront, kindsOf_map_piece] at hlead
  exact ⟨⟨front, word, gap, b, stop, hlead, hword, hgap, hstop⟩, rfl, hname, hfront, hvalue⟩

end ConstantTokens

end PhpOutline
