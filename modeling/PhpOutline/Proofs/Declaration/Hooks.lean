import Mathlib.Data.List.Induction
import Mathlib.Data.List.TakeWhile
import PhpOutline.Proofs.Declaration.Properties

/-!
# Slots of properties with hooks

A property can end with a block of hooks in braces, with a default value in front of it or without
one. The pass over the body of a type takes the property with its block and gives one slot. The item
of the slot reaches into the block, up to its last significant token, so that a reader of the
default value has to tell the value from the block: the walk over a value stops in front of the
block, but the search for an equals sign goes on into it.

## Main definitions

* `HookedTokens`: the tokens of a property with hooks.
* `AssignsNothing`: kinds of tokens without a value behind an equals sign.

## Main statements

* `HookedTokens.sweep_eq`: the slot that the pass gives.
* `HookedTokens.defaultValue_bound`, `HookedTokens.defaultValue_bare`: the default value that is
  read from it.
-/

namespace PhpOutline

/-! ## Equals signs -/

/-- Kinds of tokens without a value behind an equals sign: no significant token stands behind
one. -/
def AssignsNothing (ks : List Kind) : Prop :=
  ∀ before after, ks = before ++ .equals :: after → ∀ k ∈ after, k.isInsignificant = true

/-- Only what stands behind the first equals sign matters. -/
theorem assignsNothing_iff {ks : List Kind} :
    AssignsNothing ks ↔
      ∀ k ∈ (ks.dropWhile (· != .equals)).drop 1, k.isInsignificant = true := by
  constructor
  · intro h
    cases hdrop : ks.dropWhile (· != .equals) with
    | nil => simp
    | cons a after =>
      have ha : a = .equals := by
        have hhead := List.head?_dropWhile_not (· != .equals) ks
        simpa [hdrop] using hhead
      refine h (ks.takeWhile (· != .equals)) after ?_
      rw [ha] at hdrop
      rw [← hdrop, List.takeWhile_append_dropWhile]
  · intro h before after hks k hk
    refine h k ?_
    clear h
    induction before generalizing ks with
    | nil => simpa [hks] using hk
    | cons a before ih =>
      by_cases ha : a = .equals
      · simp [hks, ha, hk]
      · have htail := ih rfl
        rw [hks, List.cons_append, List.dropWhile_cons_of_pos (by simpa using ha)]
        exact htail

instance (ks : List Kind) : Decidable (AssignsNothing ks) :=
  decidable_of_iff _ assignsNothing_iff.symm

theorem assignsNothing_cons {k : Kind} (hk : k ≠ .equals) {ks : List Kind} :
    AssignsNothing (k :: ks) ↔ AssignsNothing ks := by
  rw [assignsNothing_iff, assignsNothing_iff, List.dropWhile_cons_of_pos (by simpa using hk)]

/-- Insignificant tokens at the end make no difference. -/
theorem assignsNothing_append {ks ls : List Kind} (hls : ∀ k ∈ ls, k.isInsignificant = true) :
    AssignsNothing (ks ++ ls) ↔ AssignsNothing ks := by
  rw [assignsNothing_iff, assignsNothing_iff, List.dropWhile_append]
  cases ks.dropWhile (· != .equals) with
  | nil =>
    simp only [List.isEmpty_nil, if_true, List.drop_nil, List.not_mem_nil, false_implies,
      implies_true, iff_true]
    intro k hk
    exact hls k ((List.dropWhile_suffix _).subset (List.mem_of_mem_drop hk))
  | cons a after =>
    simp only [List.isEmpty_cons, Bool.false_eq_true, if_false, List.cons_append,
      List.drop_succ_cons, List.drop_zero, List.forall_mem_append]
    exact ⟨fun h => h.1, fun h => ⟨h, hls⟩⟩

/-- An item has no default value exactly when it assigns nothing. -/
theorem Property.valueSpan?_eq_none_iff {last : Nat} {es : List Entry} :
    valueSpan? last es = none ↔ AssignsNothing (Entry.kinds es) := by
  have hkinds : ((Entry.kinds es).dropWhile (· != .equals)).drop 1 =
      Entry.kinds ((es.dropWhile fun e => e.kind != .equals).drop 1) := by
    rw [Entry.kinds, Entry.kinds, List.dropWhile_map, List.map_drop]
    rfl
  have hskip : valueSpan? last es = none ↔
      Entry.skipTrivia ((es.dropWhile fun e => e.kind != .equals).drop 1) = [] := by
    rw [valueSpan?]
    cases Entry.skipTrivia ((es.dropWhile fun e => e.kind != .equals).drop 1) with
    | nil => simp
    | cons v rest => simp
  rw [hskip, assignsNothing_iff, hkinds, Entry.kinds, List.forall_mem_map, Entry.skipTrivia,
    List.dropWhile_eq_nil_iff]

/-! ## Tokens of a property with hooks -/

/-- The tokens of a property with a block of hooks. The block is cut behind its last significant
token. -/
structure HookedTokens where
  lead : List Token
  type : List Token
  item : PropertyItem
  gap : Token
  opener : Token
  hooks : List Token
  trail : List Token
  closer : Token
  isLead : IsLead (lead.map Token.kind)
  lead_ne_nil : lead ≠ []
  type_nested : Nested Kind.FitsType (type.map Token.kind)
  gap_kind : gap.kind = .whitespace
  opener_kind : opener.kind = .opener .brace
  block_nested : Nested (fun _ => True) ((hooks ++ trail).map Token.kind)
  hooks_last : ∀ z ∈ hooks.getLast?, z.kind.isInsignificant = false
  trail_kind : ∀ x ∈ trail, x.kind.isInsignificant = true
  closer_kind : closer.kind = .closer .brace

namespace HookedTokens

variable (p : HookedTokens)

/-- The tokens in front of the variable. -/
def front : List Token := p.lead ++ p.type

/-- The tokens of the item: those from the variable to the last significant one of the block. -/
def itemTokens : List Token := p.item.tokens ++ p.gap :: p.opener :: p.hooks

/-- The tokens, in order. -/
def tokens : List Token := p.front ++ (p.itemTokens ++ (p.trail ++ [p.closer]))

/-- The slot of the property when its first token has place `i`. -/
def slot (i : Nat) : Slot where
  name := p.item.name.text.drop 1
  decl := .ofBounds i (i + p.front.length + p.itemTokens.length + p.trail.length)
  item := .ofBounds (i + p.front.length) (i + p.front.length + p.itemTokens.length - 1)

theorem exists_itemTokens_eq : ∃ tail, p.itemTokens = p.item.name :: tail := by
  obtain ⟨tail, htail⟩ := p.item.exists_tokens_eq
  exact ⟨tail ++ p.gap :: p.opener :: p.hooks, by rw [itemTokens, htail, List.cons_append]⟩

theorem delimited_itemTokens : Delimited (p.itemTokens.map Token.kind) := by
  obtain ⟨tail, htail⟩ := p.exists_itemTokens_eq
  constructor
  · rw [htail]
    exact ⟨p.item.name.kind, by simp, by rw [p.item.name_kind]; rfl⟩
  · rw [itemTokens, List.map_append, List.getLast?_append]
    cases hlast : p.hooks.getLast? with
    | none =>
      have hnil : p.hooks = [] := List.getLast?_eq_none_iff.1 hlast
      exact ⟨p.opener.kind, by simp [hnil], by rw [p.opener_kind]; rfl⟩
    | some z =>
      refine ⟨z.kind, ?_, p.hooks_last z hlast⟩
      simp [List.getLast?_cons, List.getLast?_map, hlast]

variable {t : TokenTable} {before after : List Token}

theorem within_item (h : t.tokens = before ++ (p.tokens ++ after)) :
    t.within (p.slot before.length).item =
      Entry.number (before.length + p.front.length) p.itemTokens := by
  have hsplit : t.tokens = (before ++ p.front) ++
      (p.itemTokens ++ (p.trail ++ p.closer :: after)) := by
    simp [h, tokens]
  have hpos := p.delimited_itemTokens.length_pos
  exact TokenTable.within_part hsplit (by simp) (by simp; omega) (by omega)

theorem named_eq (h : t.tokens = before ++ (p.tokens ++ after)) :
    Property.named t (p.slot before.length).item =
      Entry.number (before.length + p.front.length) p.itemTokens := by
  obtain ⟨tail, htail⟩ := p.exists_itemTokens_eq
  rw [Property.named, p.within_item h, htail, Entry.number_cons,
    List.dropWhile_cons_of_neg (by simp [p.item.name_kind])]

/-- No comma stands outside the brackets of the item: behind the opening brace, a bracket is
open. -/
theorem splitCommas_eq (i : Nat) :
    Entry.splitCommas 0 (Entry.number i (p.itemTokens ++ p.trail)) =
      [Entry.number i (p.itemTokens ++ p.trail)] := by
  have hsplit : p.itemTokens ++ p.trail =
      p.item.tokens ++ p.gap :: p.opener :: (p.hooks ++ p.trail) := by
    simp [itemTokens]
  have hblock : ∀ j, Entry.splitCommas 1 (Entry.number j (p.hooks ++ p.trail)) =
      [Entry.number j (p.hooks ++ p.trail)] := by
    intro j
    have hnil : Entry.splitCommas 1 [] = [[]] := by simp [Entry.splitCommas]
    have hnested := p.block_nested
    rw [← Entry.kinds_number j] at hnested
    have happend := Entry.splitCommas_append hnested (fun _ _ _ => Nat.one_pos) hnil
    rwa [List.append_nil] at happend
  have hrest : ∀ j, Entry.splitCommas 0 (Entry.number j (p.gap :: p.opener ::
      (p.hooks ++ p.trail))) = [Entry.number j (p.gap :: p.opener :: (p.hooks ++ p.trail))] := by
    intro j
    simp [Entry.splitCommas, p.gap_kind, p.opener_kind, depthAfter, Kind.opens, Kind.closes, hblock]
  have hnested := p.item.nested
  rw [← Entry.kinds_number i] at hnested
  rw [hsplit, Entry.number_append]
  exact Entry.splitCommas_append hnested (fun k hk hcomma => absurd hcomma hk.1) (hrest _)

/-- The tokens from the variable on, up to the closing brace, hold one property. -/
theorem properties_eq (h : t.tokens = before ++ (p.tokens ++ after)) :
    Member.properties t (p.slot before.length).decl
      (Entry.number (before.length + p.front.length) (p.itemTokens ++ p.trail)) =
      [.property (p.slot before.length)] := by
  have hextent := @Entry.extent?_delimited [] p.itemTokens (fun x hx => absurd hx List.not_mem_nil)
    p.delimited_itemTokens (before.length + p.front.length)
  have htrail : Entry.significant (Entry.number (before.length + p.front.length)
      (p.itemTokens ++ p.trail)) =
      Entry.significant (Entry.number (before.length + p.front.length) p.itemTokens) := by
    rw [Entry.number_append, Entry.significant_append,
      Entry.significant_eq_nil (Entry.isInsignificant_of_mem_number p.trail_kind), List.append_nil]
  have hitem : Entry.pieces (Entry.number (before.length + p.front.length)
      (p.itemTokens ++ p.trail)) = [(p.slot before.length).item] := by
    rw [Entry.pieces, p.splitCommas_eq, List.filterMap_cons, htrail]
    rw [List.nil_append] at hextent
    simp [hextent, slot]
  obtain ⟨tail, htail⟩ := p.exists_itemTokens_eq
  rw [Member.properties, hitem, List.filterMap_cons, List.filterMap_nil, p.named_eq h, htail]
  rfl

/-- A statement ends with a block in braces. -/
theorem statementEnd?_block {inner : List Kind} (h : Nested (fun _ => True) inner)
    (rest : List Kind) :
    statementEnd? (.whitespace :: .opener .brace :: (inner ++ .closer .brace :: rest)) =
      some (inner.length + 2) := by
  have hgroup := groupEnd?_group (o := .opener .brace) rfl h (c := .closer .brace) rfl rest
  simp [statementEnd?, seek, endWithGroup, hgroup]

/-- The statement that begins with the variable ends with the block. -/
theorem statementEnd?_eq (rest : List Token) :
    statementEnd? ((p.itemTokens ++ p.trail ++ p.closer :: rest).map Token.kind) =
      some (p.itemTokens ++ p.trail).length := by
  have hnested := p.item.nested.mono (Q := fun k => k ≠ .semicolon ∧ k ≠ .opener .brace)
    fun k hk => ⟨hk.2.1, hk.2.2.1⟩
  have hkinds : (p.itemTokens ++ p.trail ++ p.closer :: rest).map Token.kind =
      p.item.tokens.map Token.kind ++ (.whitespace :: .opener .brace ::
        ((p.hooks ++ p.trail).map Token.kind ++ .closer .brace :: rest.map Token.kind)) := by
    simp [itemTokens, p.gap_kind, p.opener_kind, p.closer_kind]
  rw [hkinds, hnested.statementEnd?_append, statementEnd?_block p.block_nested, Option.map_some]
  simp only [itemTokens, List.length_append, List.length_map, List.length_cons]
  congr 1
  omega

/-- The pass takes the tokens of the property and gives its slot. -/
theorem sweep_eq {context : NameContext} {stop : Nat} (h : t.tokens = before ++ (p.tokens ++ after))
    (rest : List Token) :
    sweep (Member.step t context stop) none 0 (Entry.number before.length (p.tokens ++ rest)) =
      .property (p.slot before.length) :: sweep (Member.step t context stop) none 0
        (Entry.number (before.length + p.tokens.length) rest) := by
  obtain ⟨tail, htail⟩ := p.exists_itemTokens_eq
  have hcore : p.itemTokens ++ p.trail = p.item.name :: (tail ++ p.trail) := by
    rw [htail, List.cons_append]
  have hsplit : p.tokens ++ rest =
      p.lead ++ (p.type ++ (p.itemTokens ++ p.trail ++ p.closer :: rest)) := by
    simp [tokens, front]
  have hend : before.length + p.front.length + (p.itemTokens ++ p.trail).length + 1 =
      before.length + p.tokens.length := by
    simp only [tokens, List.length_append, List.length_singleton]
    omega
  have hsweep := @Member.sweep_statement t context stop _ _ _ _ _ _ _ p.isLead p.lead_ne_nil
    p.type_nested hcore p.item.name_kind (p.statementEnd?_eq rest) before.length
  rw [hsplit, hsweep, ← front, hend, ← List.singleton_append, ← p.properties_eq h, slot,
    List.length_append, Nat.add_assoc _ p.itemTokens.length]

/-! ### The default value -/

section

variable {context : NameContext} {scope : Option ClassScope}

/-- The walk over a value stops in front of the block. -/
theorem settle_block {first i : Nat} (hfirst : first ≤ i) (last state : Nat) :
    settle (Property.valueStep first last) state 0
      (Entry.number i (p.gap :: p.opener :: p.hooks)) = state := by
  have hgap : p.gap.kind.isInsignificant = true := by
    rw [p.gap_kind]
    rfl
  have hopener : ∀ es, Property.valueStep first last state ⟨p.opener, i + 1⟩ es =
      (state, es.length) := by
    intro es
    have hlt : first < i + 1 := Nat.lt_succ_of_le hfirst
    simp only [Property.valueStep, p.opener_kind, if_pos hlt]
  rw [Entry.number_cons, settle_cons, Property.valueStep_of_insignificant hgap, Entry.number_cons,
    settle_cons, hopener, settle_eq_drop, List.drop_length, settle_nil]

/-- A default value in front of the block is read as it stands. -/
theorem defaultValue_bound (ht : t.IsGapless) (h : t.tokens = before ++ (p.tokens ++ after))
    {v : Text} (hv : p.item.defaultValue = some v) :
    (Property.read t context scope (p.slot before.length).decl
      (p.slot before.length).item).defaultValue = some v := by
  cases hitem : p.item with
  | bare name hname =>
    rw [hitem] at hv
    cases hv
  | bound b hname =>
    rw [hitem] at hv
    have htokens : p.itemTokens = b.tokens ++ p.gap :: p.opener :: p.hooks := by
      rw [itemTokens, hitem]
      rfl
    have hsplit : t.tokens = (before ++ p.front ++ [b.name, b.gap₁, b.equals, b.gap₂]) ++
        (b.value ++ (p.gap :: p.opener :: p.hooks ++ (p.trail ++ p.closer :: after))) := by
      simp [h, tokens, htokens, Binding.tokens]
    have hpos := b.delimited.length_pos
    have hlen := b.length_tokens
    have hblock := @settle_block p (before.length + p.front.length + 4)
      (before.length + p.front.length + b.tokens.length) (by omega)
      (p.slot before.length).item.last
    simp only [Property.read, p.named_eq h]
    rw [htokens, Property.valueSpan?_binding_append b _ _ hblock, Option.map_some,
      TokenTable.sourceOf_part ht hsplit (by simp; omega) (by simp; omega) (by omega)]
    exact hv

/-- Without one, no default value is read exactly when the block assigns nothing. -/
theorem defaultValue_bare (h : t.tokens = before ++ (p.tokens ++ after))
    (hv : p.item.defaultValue = none) :
    (Property.read t context scope (p.slot before.length).decl
      (p.slot before.length).item).defaultValue = none ↔
        AssignsNothing ((p.hooks ++ p.trail).map Token.kind) := by
  cases hitem : p.item with
  | bound b hname =>
    rw [hitem] at hv
    cases hv
  | bare name hname =>
    have htokens : p.itemTokens = name :: p.gap :: p.opener :: p.hooks := by
      rw [itemTokens, hitem]
      rfl
    have htrail : ∀ k ∈ p.trail.map Token.kind, k.isInsignificant = true :=
      List.forall_mem_map.2 p.trail_kind
    simp only [Property.read, p.named_eq h, Option.map_eq_none_iff]
    rw [Property.valueSpan?_eq_none_iff, Entry.kinds_number, htokens, List.map_append,
      assignsNothing_append htrail, List.map_cons, List.map_cons, List.map_cons,
      assignsNothing_cons (by simp [hname]), assignsNothing_cons (by simp [p.gap_kind]),
      assignsNothing_cons (by simp [p.opener_kind])]

end

/-! ### Properties with hooks in a source -/

/-- The pieces of a property with hooks. -/
def pieces (lead type : List Piece) (name : Text) (value : Option (List Piece))
    (block : List Piece) : List Piece :=
  lead ++ (type ++ (PropertyItem.pieces name value ++ .token .whitespace " ".toList none ::
    .token (.opener .brace) ['{'] none :: (block ++ [.token (.closer .brace) ['}'] none])))

section

variable {lead type block : List Piece} {name : Text} {value : Option (List Piece)}

theorem faultless_pieces (hlead : Faultless lead) (htype : Faultless type)
    (hvalue : ∀ ps ∈ value, Faultless ps) (hblock : Faultless block) :
    Faultless (pieces lead type name value block) :=
  hlead.append (htype.append ((PropertyItem.faultless_pieces hvalue).append
    (.cons rfl (.cons rfl (hblock.append (.cons rfl .nil))))))

theorem nested_pieces (hlead : IsLead (kindsOf lead)) (htype : Nested Kind.FitsType (kindsOf type))
    (hvalue : ∀ ps ∈ value, Nested Kind.FitsValue (kindsOf ps))
    (hblock : Nested (fun _ => True) (kindsOf block)) :
    Nested (fun _ => True) (kindsOf (pieces lead type name value block)) := by
  have htrue : Nested (fun _ => True) (kindsOf type) := htype.mono fun _ _ => trivial
  simp only [pieces, kindsOf_append, kindsOf_token, kindsOf_nil]
  refine hlead.nested.append (htrue.append ((PropertyItem.nested_pieces hvalue).append
    (.plain trivial rfl rfl ?_)))
  exact .group trivial rfl hblock rfl .nil

/-- A list of tokens is cut behind its last significant one. -/
theorem exists_trail (ts : List Token) :
    ∃ hooks trail, ts = hooks ++ trail ∧ (∀ z ∈ hooks.getLast?, z.kind.isInsignificant = false) ∧
      ∀ x ∈ trail, x.kind.isInsignificant = true := by
  induction ts using List.reverseRecOn with
  | nil => exact ⟨[], [], rfl, by simp, by simp⟩
  | append_singleton ts x ih =>
    cases hx : x.kind.isInsignificant with
    | false => exact ⟨ts ++ [x], [], by simp, by simp [hx], by simp⟩
    | true =>
      obtain ⟨hooks, trail, rfl, hlast, htrail⟩ := ih
      refine ⟨hooks, trail ++ [x], by simp, hlast, ?_⟩
      intro y hy
      rcases List.mem_append.1 hy with hy | hy
      · exact htrail y hy
      · rw [List.mem_singleton.1 hy]
        exact hx

/-- Tokens with these pieces are a property with hooks. -/
theorem exists_of_pieces {ts : List Token}
    (h : ts.map Token.piece = pieces lead type name value block)
    (hlead : IsLead (kindsOf lead)) (hne : lead ≠ []) (htype : Nested Kind.FitsType (kindsOf type))
    (hd : ∀ ps ∈ value, Delimited (kindsOf ps))
    (hn : ∀ ps ∈ value, Nested Kind.FitsValue (kindsOf ps))
    (hblock : Nested (fun _ => True) (kindsOf block)) :
    ∃ p : HookedTokens, p.tokens = ts ∧ p.item.name.text = name ∧
      p.item.defaultValue = value.map textOf ∧
      (p.hooks ++ p.trail).map Token.piece = block := by
  obtain ⟨front, rest, rfl, hfront, hrest⟩ := List.map_eq_append_iff.1 h
  obtain ⟨types, rest, rfl, htypes, hrest⟩ := List.map_eq_append_iff.1 hrest
  obtain ⟨items, rest, rfl, hitems, hrest⟩ := List.map_eq_append_iff.1 hrest
  obtain ⟨gap, rest, rfl, hgap, -, hrest⟩ := exists_cons_of_map_piece hrest
  obtain ⟨opener, rest, rfl, hopener, -, hrest⟩ := exists_cons_of_map_piece hrest
  obtain ⟨inside, rest, rfl, hinside, hrest⟩ := List.map_eq_append_iff.1 hrest
  obtain ⟨closer, rest, rfl, hcloser, -, hnil⟩ := exists_cons_of_map_piece hrest
  obtain rfl := List.map_eq_nil_iff.1 hnil
  obtain ⟨item, rfl, hname, hvalue⟩ := PropertyItem.exists_of_pieces hitems hd hn
  obtain ⟨hooks, trail, rfl, hlast, htrail⟩ := exists_trail inside
  rw [← hfront, kindsOf_map_piece] at hlead
  rw [← htypes, kindsOf_map_piece] at htype
  rw [← hinside, kindsOf_map_piece] at hblock
  have hfront_ne : front ≠ [] := by
    rintro rfl
    exact hne hfront.symm
  refine ⟨⟨front, types, item, gap, opener, hooks, trail, closer, hlead, hfront_ne, htype, hgap,
    hopener, hblock, hlast, htrail, hcloser⟩, ?_, hname, hvalue, hinside⟩
  simp [tokens, itemTokens, HookedTokens.front]

end

end HookedTokens

end PhpOutline
