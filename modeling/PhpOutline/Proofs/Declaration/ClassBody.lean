import Mathlib.Data.Option.Basic
import PhpOutline.Proofs.Declaration.Lines
import PhpOutline.Proofs.Declaration.MemberSyntax
import PhpOutline.Proofs.Lookup
import PhpOutline.Proofs.Modifiers

/-!
# Class bodies, member by member

A class is written with any members, each on a line of its own. The pass over its body stops at the
end of every line in the state it began with, so that the members are found one by one, in order,
and each of them is read as it was written.

## Main definitions

* `memberLines`: members, each on a line of its own.
* `ConstantSyntax.Recovered`, `PropertySyntax.Recovered`, `MethodSyntax.Recovered`: records that say
  what was written.

## Main statements

* `MemberSyntax.exists_takes`: the pass over one member.
* `members_recovered`: the members of a class, listed and looked up by name.
-/

namespace PhpOutline

open Lexeme

/-! ## The pieces of a member -/

theorem kindsOf_modifierPieces_cons (w : ModifierWord) (ws : List ModifierWord) :
    kindsOf (modifierPieces (w :: ws)) =
      .keyword (.modifier w.modifier) :: .whitespace :: kindsOf (modifierPieces ws) := rfl

theorem isLead_modifierPieces (ws : List ModifierWord) : IsLead (kindsOf (modifierPieces ws)) := by
  induction ws with
  | nil => exact .nil
  | cons w ws ih =>
    rw [kindsOf_modifierPieces_cons]
    refine ⟨?_, by simp [Kind.modifier?]⟩
    intro k hk
    rcases List.mem_cons.1 hk with rfl | hk
    · exact .inl (by simp [Kind.modifier?])
    · rcases List.mem_cons.1 hk with rfl | hk
      · exact .inr rfl
      · exact ih.mem k hk

theorem modifierPieces_ne_nil {ws : List ModifierWord} (h : ws ≠ []) : modifierPieces ws ≠ [] := by
  cases ws with
  | nil => exact absurd rfl h
  | cons w ws => simp [modifierPieces]

/-- The modifiers among the tokens are the ones that were written. -/
theorem filterMap_modifierPieces (ws : List ModifierWord) :
    (kindsOf (modifierPieces ws)).filterMap Kind.modifier? = ws.map ModifierWord.modifier := by
  induction ws with
  | nil => rfl
  | cons w ws ih =>
    rw [kindsOf_modifierPieces_cons, List.map_cons, ← ih]
    rfl

theorem TypeName.isType_pieces (t : TypeName) : PropertyTokens.IsType (kindsOf t.pieces) := by
  cases hnull : t.nullable <;> simp [TypeName.pieces, hnull, PropertyTokens.IsType]

theorem TypeName.faultless_pieces (t : TypeName) : Faultless t.pieces := by
  cases hnull : t.nullable <;> simp [TypeName.pieces, hnull, Faultless, Piece.fault?]

/-- The kinds of a type are no modifiers. -/
theorem filterMap_modifier?_of_isType {ks : List Kind} (h : PropertyTokens.IsType ks) :
    ks.filterMap Kind.modifier? = [] := by
  rw [List.filterMap_eq_nil_iff]
  intro k hk
  rcases h k hk with rfl | rfl | rfl <;> rfl

theorem isType_typePieces (type : Option TypeName) :
    PropertyTokens.IsType (kindsOf ((type.map TypeName.pieces).getD [])) := by
  cases type with
  | none => simp [PropertyTokens.IsType]
  | some t => exact t.isType_pieces

theorem faultless_typePieces (type : Option TypeName) :
    Faultless ((type.map TypeName.pieces).getD []) := by
  cases type with
  | none => exact .nil
  | some t => exact t.faultless_pieces

theorem PropertySyntax.faultless_value (p : PropertySyntax) :
    ∀ ps ∈ p.value.map fun v => codePieces v.text, Faultless ps :=
  Option.forall_mem_map.2 fun v _ => v.isContained.faultless

theorem PropertySyntax.delimited_value (p : PropertySyntax) :
    ∀ ps ∈ p.value.map fun v => codePieces v.text, Delimited (kindsOf ps) :=
  Option.forall_mem_map.2 fun v _ => v.delimited

theorem PropertySyntax.nested_value (p : PropertySyntax) :
    ∀ ps ∈ p.value.map fun v => codePieces v.text, Nested Kind.FitsValue (kindsOf ps) :=
  Option.forall_mem_map.2 fun v _ => v.nested

theorem MethodSyntax.nested_body (m : MethodSyntax) :
    ∀ ps ∈ m.body.map fun b => codePieces b.text, Nested (fun _ => True) (kindsOf ps) :=
  Option.forall_mem_map.2 fun b _ => b.nested

theorem MemberSyntax.faultless_pieces (m : MemberSyntax) : Faultless m.pieces := by
  cases m with
  | constant c =>
    exact ConstantTokens.faultless_pieces (faultless_modifierPieces _) c.value.isContained.faultless
  | property p =>
    exact PropertyTokens.faultless_pieces (faultless_modifierPieces _) (faultless_typePieces _)
      p.faultless_value
  | method m => exact m.faultless_pieces

theorem MemberSyntax.nested_pieces (m : MemberSyntax) :
    Nested (fun _ => True) (kindsOf m.pieces) := by
  cases m with
  | constant c =>
    exact ConstantTokens.nested_pieces (isLead_modifierPieces _) c.name.isSubject_kind
      c.value.nested
  | property p =>
    exact PropertyTokens.nested_pieces (isLead_modifierPieces _) (isType_typePieces _)
      p.nested_value
  | method m =>
    exact MethodTokens.nested_pieces (isLead_modifierPieces _) m.name.isSubject_kind
      m.parameters.nested m.nested_body

/-! ## The lines of a body -/

/-- Members as lines. -/
def memberLines : LineSyntax MemberSyntax where
  render := MemberSyntax.render
  pieces := MemberSyntax.pieces
  pieces_render := MemberSyntax.pieces_render
  startsWith_isSpace := MemberSyntax.startsWith_isSpace_render
  faultless := MemberSyntax.faultless_pieces

/-! ## What was written and what is read -/

/-- The words of some modifiers. -/
def wordsOf (ws : List ModifierWord) : List Modifier := ws.map ModifierWord.modifier

/-- The record of a constant says what was written. -/
structure ConstantSyntax.Recovered (c : ConstantSyntax) (r : Constant) : Prop where
  value : r.value = some c.value.text
  visibility : r.visibility = Modifier.givenVisibility (wordsOf c.modifiers)
  modifiers : r.modifiers.Reflect (wordsOf c.modifiers)

/-- The record of a property says what was written. -/
structure PropertySyntax.Recovered (p : PropertySyntax) (r : Property) : Prop where
  defaultValue : r.defaultValue = p.value.map ValueText.text
  visibility : r.visibility = Modifier.givenVisibility (wordsOf p.modifiers)
  modifiers : r.modifiers.Reflect (wordsOf p.modifiers)

/-- The record of a method says what was written. A method without a body has an empty one. -/
structure MethodSyntax.Recovered (m : MethodSyntax) (r : Callable) : Prop where
  hasBody : r.bodySpan.isSome = m.body.isSome
  body : r.body = (m.body.map BlockText.text).getD []
  visibility : r.visibility = Modifier.givenVisibility (wordsOf m.modifiers)
  isAbstract : r.isAbstract = (wordsOf m.modifiers).contains .abstract
  modifiers : r.modifiers.Reflect (wordsOf m.modifiers)

/-- The member that was found has the name that was written, and is read as it was written. -/
def MemberSyntax.FoundAs (t : TokenTable) (scope : ClassScope) : MemberSyntax → Member → Prop
  | constant c, .constant s => s.name = c.name.text ∧ c.Recovered (.read t s.decl s.item)
  | property p, .property s =>
    s.name = p.name.text ∧ p.Recovered (.read t {} (some scope) s.decl s.item)
  | method m, .method s => s.name = m.name.text ∧ m.Recovered (.read t {} (some scope) false s.decl)
  | _, _ => False

theorem textOf_codePieces (s : Text) : textOf (codePieces s) = s := textOf_pieces _ _ _

theorem reflect_ofKinds_of_map_piece {lead : List Token} {ws : List ModifierWord}
    (h : lead.map Token.piece = modifierPieces ws) :
    (Modifiers.ofKinds (lead.map Token.kind)).Reflect (wordsOf ws) := by
  have hreflect := Modifiers.reflect_ofKinds (lead.map Token.kind)
  rw [← kindsOf_map_piece, h, filterMap_modifierPieces] at hreflect
  rw [← kindsOf_map_piece, h]
  exact hreflect

/-! ## One member -/

section

variable {t : TokenTable} {scope : ClassScope} {before after ts : List Token} {stop : Nat}
  (ht : t.IsGapless) (h : t.tokens = before ++ (ts ++ after))

include ht h

theorem ConstantSyntax.exists_takes (c : ConstantSyntax) (hts : ts.map Token.piece = c.pieces) :
    ∃ member, (MemberSyntax.constant c).FoundAs t scope member ∧
      member.Takes t stop before.length ts := by
  obtain ⟨k, rfl, hname, hlead, hvalue⟩ := ConstantTokens.exists_of_pieces hts
    (isLead_modifierPieces _) c.name.isSubject_kind c.value.delimited c.value.nested
  have hmodifiers := reflect_ofKinds_of_map_piece hlead
  rw [← k.modifiers_read h] at hmodifiers
  refine ⟨.constant (k.slot before.length), ⟨hname, ?_, hmodifiers.visibility_eq, hmodifiers⟩,
    k.sweep_eq h⟩
  rw [k.value_read ht h, hvalue, textOf_codePieces]

theorem PropertySyntax.exists_takes (p : PropertySyntax) (hts : ts.map Token.piece = p.pieces) :
    ∃ member, (MemberSyntax.property p).FoundAs t scope member ∧
      member.Takes t stop before.length ts := by
  obtain ⟨k, rfl, hname, hlead, htype, hvalue⟩ := PropertyTokens.exists_of_pieces hts
    (isLead_modifierPieces _) (modifierPieces_ne_nil p.marked) (isType_typePieces _)
    p.delimited_value p.nested_value
  -- the modifiers are sought in front of the variable, where the type stands, too
  have hmodifiers : (Modifiers.ofKinds (k.front.map Token.kind)).Reflect (wordsOf p.modifiers) := by
    have hreflect := Modifiers.reflect_ofKinds (k.front.map Token.kind)
    have hnone : (k.type.map Token.kind).filterMap Kind.modifier? = [] := by
      rw [← kindsOf_map_piece, htype]
      exact filterMap_modifier?_of_isType (isType_typePieces _)
    have hsome : (k.lead.map Token.kind).filterMap Kind.modifier? = wordsOf p.modifiers := by
      rw [← kindsOf_map_piece, hlead]
      exact filterMap_modifierPieces _
    rw [PropertyTokens.front, List.map_append, List.filterMap_append, hnone, hsome,
      List.append_nil] at hreflect
    rw [PropertyTokens.front, List.map_append]
    exact hreflect
  rw [← @PropertyTokens.modifiers_read k t before after {} (some scope) h] at hmodifiers
  refine ⟨.property (k.slot before.length), ⟨?_, ?_, hmodifiers.visibility_eq, hmodifiers⟩,
    k.sweep_eq h⟩
  · rw [PropertyTokens.slot, hname]
    rfl
  · rw [k.defaultValue_read ht h, hvalue, Option.map_map]
    congr 1
    funext v
    exact textOf_codePieces v.text

theorem MethodSyntax.exists_takes (m : MethodSyntax) (hts : ts.map Token.piece = m.pieces)
    (hstop : before.length + ts.length ≤ stop) :
    ∃ member, (MemberSyntax.method m).FoundAs t scope member ∧
      member.Takes t stop before.length ts := by
  obtain ⟨k, rfl, hname, hlead, -, hbody⟩ := MethodTokens.exists_of_pieces hts
    (isLead_modifierPieces _) m.name.isSubject_kind m.parameters.nested m.nested_body
  have hmodifiers := reflect_ofKinds_of_map_piece hlead
  rw [← @MethodTokens.modifiers_read k t before after {} (some scope) false h] at hmodifiers
  refine ⟨.method (k.slot before.length), ⟨hname, ?_, ?_, hmodifiers.visibility_eq, ?_,
    hmodifiers⟩, k.sweep_eq h hstop⟩
  · rw [k.bodySpan_read h, k.isSome_bodySpan, hbody]
    simp
  · rw [k.body_read ht h, hbody, Option.map_map]
    congr 2
    funext b
    exact textOf_codePieces b.text
  · rw [Callable.isAbstract, hmodifiers.isAbstract]
    exact Bool.or_false _

/-- The pass over the body takes one member as that member. -/
theorem MemberSyntax.exists_takes (m : MemberSyntax) (hts : ts.map Token.piece = m.pieces)
    (hstop : before.length + ts.length ≤ stop) :
    ∃ member, m.FoundAs t scope member ∧
      member.Takes t stop before.length ts := by
  cases m with
  | constant c => exact c.exists_takes ht h hts
  | property p => exact p.exists_takes ht h hts
  | method m => exact m.exists_takes ht h hts hstop

end

/-! ## All members -/

/-- The pass over a body takes every member as that member. -/
theorem taken_memberLines {t : TokenTable} (ht : t.IsGapless) (scope : ClassScope) (stop : Nat) :
    memberLines.Taken t stop (MemberSyntax.FoundAs t scope) :=
  fun m h hts hstop => m.exists_takes ht h hts hstop

namespace MemberSyntax

/-- The constant that a member is. -/
def constant? : MemberSyntax → Option ConstantSyntax
  | constant c => some c
  | _ => none

/-- The property that a member is. -/
def property? : MemberSyntax → Option PropertySyntax
  | property p => some p
  | _ => none

/-- The method that a member is. -/
def method? : MemberSyntax → Option MethodSyntax
  | method m => some m
  | _ => none

end MemberSyntax

/-- The names of the constants among some members. -/
def constantNames (ms : List MemberSyntax) : List Text :=
  (ms.filterMap MemberSyntax.constant?).map fun c => c.name.text

/-- The names of the properties among some members. -/
def propertyNames (ms : List MemberSyntax) : List Text :=
  (ms.filterMap MemberSyntax.property?).map fun p => p.name.text

/-- The names of the methods among some members. -/
def methodNames (ms : List MemberSyntax) : List Text :=
  (ms.filterMap MemberSyntax.method?).map fun m => m.name.text

/-! ## Listing and looking up -/

section

variable {α β : Type} {nameOf : α → Text} {P : α → β → Prop} {xs : List α} {ls : List (Listed β)}

theorem map_name_of_forall₂ (h : List.Forall₂ (fun x l => l.name = nameOf x ∧ P x l.record) xs ls) :
    (ls.map fun l => l.name) = xs.map nameOf := by
  induction h with
  | nil => rfl
  | cons hx _ ih => rw [List.map_cons, List.map_cons, ih, hx.1]

/-- What was written is listed, and nothing in front of it has its name. -/
theorem exists_listed_of_forall₂
    (h : List.Forall₂ (fun x l => l.name = nameOf x ∧ P x l.record) xs ls)
    (hnames : (xs.map nameOf).Nodup) {x : α} (hx : x ∈ xs) :
    ∃ before l after, ls = before ++ l :: after ∧ l.name = nameOf x ∧ P x l.record ∧
      ∀ b ∈ before, b.name ≠ l.name := by
  induction h with
  | nil => exact absurd hx List.not_mem_nil
  | @cons y l ys ls hy hrest ih =>
    rw [List.map_cons, List.nodup_cons] at hnames
    rcases List.mem_cons.1 hx with rfl | hx
    · exact ⟨[], l, ls, rfl, hy.1, hy.2, by simp⟩
    · obtain ⟨before, l', after, rfl, hname, hP, hbefore⟩ := ih hnames.2 hx
      refine ⟨l :: before, l', after, rfl, hname, hP, ?_⟩
      intro b hb
      rcases List.mem_cons.1 hb with rfl | hb
      · rw [hy.1, hname]
        intro heq
        exact hnames.1 (heq ▸ List.mem_map_of_mem hx)
      · exact hbefore b hb

end

/-- An identifier begins with no dollar sign. -/
theorem Identifier.withoutDollar_text (n : Identifier) :
    ClassLike.withoutDollar n.text = n.text := by
  obtain ⟨c, r, htext, hc, -⟩ := exists_cons_of_isIdentifier n.isIdentifier
  have hdollar : c ≠ '$' := by
    rintro rfl
    revert hc
    decide
  rw [htext, ClassLike.withoutDollar]
  simp [Text.stripOne, hdollar]

section

variable {ms : List MemberSyntax} {t : TokenTable} (f : OneType t)

variable (h : List.Forall₂ (MemberSyntax.FoundAs t f.scope) ms f.members)

include h

theorem forall₂_constants :
    List.Forall₂ (fun c l => l.name = c.name.text ∧ c.Recovered l.record)
      (ms.filterMap MemberSyntax.constant?) f.read.constants := by
  rw [f.constants_read, List.forall₂_map_right_iff]
  refine List.rel_filterMap ?_ h
  intro m member hm
  cases m <;> cases member <;> first | exact hm.elim | exact .none | exact .some hm

theorem forall₂_properties :
    List.Forall₂ (fun p l => l.name = p.name.text ∧ p.Recovered l.record)
      (ms.filterMap MemberSyntax.property?) f.read.properties := by
  rw [f.properties_read, List.forall₂_map_right_iff]
  refine List.rel_filterMap ?_ h
  intro m member hm
  cases m <;> cases member <;> first | exact hm.elim | exact .none | exact .some hm

theorem forall₂_methods (hkind : f.kind = .plainClass) :
    List.Forall₂ (fun m l => l.name = m.name.text ∧ m.Recovered l.record)
      (ms.filterMap MemberSyntax.method?) f.read.methods := by
  rw [f.methods_read, hkind, List.forall₂_map_right_iff]
  refine List.rel_filterMap ?_ h
  intro m member hm
  cases m <;> cases member <;> first | exact hm.elim | exact .none | exact .some hm

end

/-- The constants, properties and methods of a class are those of its lines, in order. Each of them
is found by its name, and is read as it was written. -/
theorem members_recovered (ms : List MemberSyntax) (hconstants : (constantNames ms).Nodup)
    (hproperties : (propertyNames ms).Nodup) (hmethods : (methodNames ms).Nodup) :
    ∃ c, (SourceFile.ofSource {} (classSource (memberLines.bodyText ms))).type "A".toList = .ok c ∧
      (c.constants.map fun l => l.name) = constantNames ms ∧
      (c.properties.map fun l => l.name) = propertyNames ms ∧
      (c.methods.map fun l => l.name) = methodNames ms ∧
      (∀ k, .constant k ∈ ms → ∃ r, c.constant k.name.text = .ok r ∧ k.Recovered r) ∧
      (∀ p, .property p ∈ ms → ∃ r, c.property p.name.text = .ok r ∧ p.Recovered r) ∧
      (∀ m, .method m ∈ ms → ∃ r, c.method m.name.text = .ok r ∧ m.Recovered r) := by
  have hpieces := memberLines.pieces_bodyText ms
  have hf : Faultless (newlinePiece :: memberLines.linePieces ms) :=
    .cons rfl (memberLines.faultless_linePieces ms)
  obtain ⟨f, hkind, hbody, htype⟩ := exists_oneType_classSource hpieces hf
    (.plain trivial rfl rfl (memberLines.nested_linePieces MemberSyntax.nested_pieces ms))
  have hmembers := LineSyntax.forall₂_members f
    (taken_memberLines (isGapless_classTable hpieces hf) f.scope f.last) hbody
  have hlisted₁ := forall₂_constants f hmembers
  have hlisted₂ := forall₂_properties f hmembers
  have hlisted₃ := forall₂_methods f hmembers hkind
  refine ⟨f.read, htype, map_name_of_forall₂ hlisted₁, map_name_of_forall₂ hlisted₂,
    map_name_of_forall₂ hlisted₃, ?_, ?_, ?_⟩
  · intro k hk
    obtain ⟨before, l, after, hlist, hname, hrecord, hbefore⟩ := exists_listed_of_forall₂ hlisted₁
      hconstants (List.mem_filterMap.2 ⟨_, hk, rfl⟩)
    exact ⟨l.record, hname ▸ ClassLike.constant_eq hlist hbefore, hrecord⟩
  · intro p hp
    obtain ⟨before, l, after, hlist, hname, hrecord, hbefore⟩ := exists_listed_of_forall₂ hlisted₂
      hproperties (List.mem_filterMap.2 ⟨_, hp, rfl⟩)
    have hdollar : ClassLike.withoutDollar l.name = l.name := by
      rw [hname]
      exact p.name.withoutDollar_text
    exact ⟨l.record, hname ▸ ClassLike.property_eq hlist hbefore hdollar, hrecord⟩
  · intro m hm
    obtain ⟨before, l, after, hlist, hname, hrecord, hbefore⟩ := exists_listed_of_forall₂ hlisted₃
      hmethods (List.mem_filterMap.2 ⟨_, hm, rfl⟩)
    exact ⟨l.record, hname ▸ ClassLike.method_eq hlist hbefore, hrecord⟩

/-- A constant, a property and two methods. -/
def sampleMembers : List MemberSyntax :=
  [.constant
      { modifiers := [⟨"final".toList, .final, by decide⟩]
        name := ⟨"class".toList, by decide⟩
        value := ⟨"[1, 2]".toList, by decide +kernel, by decide +kernel, by decide +kernel⟩ },
    .property
      { modifiers := [⟨"private".toList, .access .privateAccess, by decide⟩,
          ⟨"static".toList, .static, by decide⟩]
        marked := by simp
        type := some ⟨true, "B\\C".toList, by decide +kernel⟩
        name := ⟨"list".toList, by decide⟩
        value := some ⟨"'a, b'".toList, by decide +kernel, by decide +kernel, by decide +kernel⟩ },
    .method
      { modifiers := [⟨"abstract".toList, .abstract, by decide⟩]
        name := ⟨"list".toList, by decide⟩
        parameters := ⟨"$a, $b = [1]".toList, by decide +kernel, ⟨_, rfl⟩, by decide +kernel,
          by decide +kernel, by decide +kernel⟩
        body := none },
    .method
      { modifiers := []
        name := ⟨"n".toList, by decide⟩
        parameters := ⟨[], by decide +kernel, ⟨_, rfl⟩, by decide +kernel, by decide +kernel,
          by decide +kernel⟩
        body := some ⟨"if ($x) { return 1; }".toList, by decide +kernel, ⟨_, rfl⟩,
          by decide +kernel, by decide +kernel, by decide +kernel⟩ }]

/-- The members of the sample are recovered. -/
theorem members_recovered_sample :
    ∃ c, (SourceFile.ofSource {} (classSource (memberLines.bodyText sampleMembers))).type
        "A".toList = .ok c ∧
      (c.constants.map fun l => l.name) = ["class".toList] ∧
      (c.properties.map fun l => l.name) = ["list".toList] ∧
      (c.methods.map fun l => l.name) = ["list".toList, "n".toList] := by
  obtain ⟨c, htype, hconstants, hproperties, hmethods, -⟩ :=
    members_recovered sampleMembers (by decide) (by decide) (by decide)
  exact ⟨c, htype, hconstants, hproperties, hmethods⟩

/-- Code that ends with a bare opening tag. -/
def bareTagText : Text := "?><?php".toList

/-- A bare opening tag has no end of its own: with a brace behind it, it is not a tag, and the body
that it ends is not recovered. -/
theorem bare_tag_not_recovered :
    faults 1 (codePieces bareTagText) = [] ∧
      modeAfter (.code false) (codePieces bareTagText) = .code false ∧
      (∀ p ∈ (codePieces bareTagText).getLast?, p.isLineComment = false) ∧
      Nested (fun _ => True) (kindsOf (codePieces bareTagText)) ∧
      ∃ c r, (SourceFile.ofSource {} (classSource
        ("\nfunction n() ".toList ++ '{' :: (bareTagText ++ ['}', '\n'])))).type "A".toList =
          .ok c ∧ c.method "n".toList = .ok r ∧ r.body ≠ bareTagText := by
  refine ⟨by decide +kernel, by decide +kernel, by decide +kernel, by decide +kernel, ?_⟩
  have hfound : (((SourceFile.ofSource {} (classSource ("\nfunction n() ".toList ++
      '{' :: (bareTagText ++ ['}', '\n'])))).type "A".toList).bind fun c =>
        c.method "n".toList).toOption.map Callable.body = some [] := by
    decide +kernel
  generalize (SourceFile.ofSource {} _).type "A".toList = found at hfound ⊢
  cases found with
  | error e => cases hfound
  | ok c =>
    obtain ⟨r, hr, hbody⟩ := Option.map_eq_some_iff.1 hfound
    change (c.method "n".toList).toOption = some r at hr
    cases hmethod : c.method "n".toList with
    | error e =>
      rw [hmethod] at hr
      cases hr
    | ok r' =>
      rw [hmethod] at hr
      cases hr
      refine ⟨c, r, rfl, hmethod, ?_⟩
      rw [hbody]
      decide

end PhpOutline
