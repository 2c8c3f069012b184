import PhpOutline.Proofs.Declaration.ClassBody
import PhpOutline.Proofs.Declaration.Hooks

/-!
# Class bodies with hooked properties

A class is written with any members and any properties with hooks, each on a line of its own. A
property with hooks is found by its name. A default value in front of its block is read as it is
written. Without one, the reader looks for a value in the block: none is read exactly when the block
assigns nothing.

## Main definitions

* `TypeText`: the text of a type; `HookedSyntax`: a property with hooks, with its text and pieces.
* `BodyLine`: a line of a class body, and `bodyLines`, which writes them.
* `HookedSyntax.Recovered`: what is read of a property with hooks.

## Main statements

* `HookedSyntax.pieces_render`: the text of a property with hooks is cut into its pieces, whatever
  follows it.
* `HookedSyntax.exists_takes`: the pass over a body takes it as one property.
* `hooked_recovered`: a property with hooks among the lines of a class.
* `hook_read_as_default`: a block that assigns something.
-/

namespace PhpOutline

open Lexeme

/-! ## Properties with hooks as they are written -/

/-- The type of a property: it is cut without faults, its first and last token are significant, its
brackets are properly nested, and nothing that begins or ends a member stands outside them. -/
structure TypeText where
  text : Text
  faultless : faults 1 (codePieces text) = []
  delimited : Delimited (kindsOf (codePieces text))
  nested : Nested Kind.FitsType (kindsOf (codePieces text))

/-- A property with hooks as it is written, with a modifier at least. -/
structure HookedSyntax where
  modifiers : List ModifierWord
  marked : modifiers ≠ []
  type : Option TypeText
  name : Identifier
  value : Option ValueText
  hooks : BlockText

/-- A type with a blank behind it. -/
def TypeText.render : Option TypeText → Text
  | none => []
  | some t => t.text ++ [' ']

/-- The pieces of a type with a blank behind it. -/
def TypeText.pieces : Option TypeText → List Piece
  | none => []
  | some t => codePieces t.text ++ [.token .whitespace " ".toList none]

/-- The text of a property with hooks. -/
def HookedSyntax.render (p : HookedSyntax) : Text :=
  renderModifiers p.modifiers ++ (TypeText.render p.type ++ ('$' :: (p.name.text ++
    (renderDefault p.value ++ ([' ', '{'] ++ (p.hooks.text ++ ['}']))))))

/-- The pieces of a property with hooks. -/
def HookedSyntax.pieces (p : HookedSyntax) : List Piece :=
  HookedTokens.pieces (modifierPieces p.modifiers) (TypeText.pieces p.type) ('$' :: p.name.text)
    (p.value.map fun v => codePieces v.text) (codePieces p.hooks.text)

/-! ## The pieces of the text -/

theorem standsApart_dollar : StandsApart '$' := ⟨rfl, rfl, by decide, by decide⟩

theorem standsApart_brace : StandsApart '{' := ⟨rfl, rfl, by decide, by decide⟩

theorem TypeText.startsWith_render (type : Option TypeText) (rest : Text) :
    startsWith isSpace (TypeText.render type ++ '$' :: rest) = false := by
  cases type with
  | none => rfl
  | some t =>
    rw [TypeText.render, List.append_assoc]
    exact startsWith_isSpace_of_delimited t.delimited _

/-- A type in front of a variable. -/
theorem TypeText.exists_pieces_render (type : Option TypeText) (rest : Text) :
    ∃ a, PhpOutline.pieces false (.code false) (TypeText.render type ++ '$' :: rest) =
      TypeText.pieces type ++ PhpOutline.pieces false (.code a) ('$' :: rest) := by
  cases type with
  | none => exact ⟨false, rfl⟩
  | some t =>
    obtain ⟨a, ha⟩ := exists_pieces_blank (faultless_of_faults_eq_nil t.faultless) t.delimited
      standsApart_dollar rest
    refine ⟨a, ?_⟩
    rw [TypeText.render, TypeText.pieces, List.append_assoc, List.append_assoc]
    exact ha

/-- A block of hooks. -/
theorem BlockText.pieces_hooks (h : BlockText) (a : Bool) (rest : Text) :
    pieces false (.code a) ('{' :: (h.text ++ '}' :: rest)) =
      .token (.opener .brace) ['{'] none :: (codePieces h.text ++
        .token (.closer .brace) ['}'] none :: pieces false (.code false) rest) := by
  rw [pieces_brace, pieces_contained h.isContained rfl]
  rfl

/-- A variable with a default value or without one, in front of a block of hooks. -/
theorem pieces_hookedItem (name : Identifier) (value : Option ValueText) (h : BlockText) (a : Bool)
    (rest : Text) :
    pieces false (.code a) ('$' :: (name.text ++ (renderDefault value ++ ' ' :: '{' ::
      (h.text ++ '}' :: rest)))) =
      PropertyItem.pieces ('$' :: name.text) (value.map fun v => codePieces v.text) ++
        .token .whitespace " ".toList none :: .token (.opener .brace) ['{'] none ::
          (codePieces h.text ++ .token (.closer .brace) ['}'] none ::
            pieces false (.code false) rest) := by
  cases value with
  | none =>
    rw [renderDefault, List.nil_append, pieces_variable name.isIdentifier rfl, pieces_blank rfl rfl,
      h.pieces_hooks]
    rfl
  | some v =>
    have hsplit : renderDefault (some v) ++ ' ' :: '{' :: (h.text ++ '}' :: rest) =
        ' ' :: '=' :: ' ' :: (v.text ++ ' ' :: '{' :: (h.text ++ '}' :: rest)) := by
      simp [renderDefault]
    have hspace := startsWith_isSpace_of_delimited v.delimited
      (' ' :: '{' :: (h.text ++ '}' :: rest))
    obtain ⟨b, hb⟩ := exists_pieces_blank (faultless_of_faults_eq_nil v.faultless) v.delimited
      standsApart_brace (h.text ++ '}' :: rest)
    rw [hsplit, pieces_variable name.isIdentifier rfl, pieces_blank rfl rfl, pieces_equals,
      pieces_blank rfl hspace, hb, h.pieces_hooks]
    rfl

namespace HookedSyntax

variable (p : HookedSyntax)

theorem render_append (rest : Text) :
    p.render ++ rest = renderModifiers p.modifiers ++ (TypeText.render p.type ++ ('$' ::
      (p.name.text ++ (renderDefault p.value ++ ' ' :: '{' ::
        (p.hooks.text ++ '}' :: rest))))) := by
  simp [render]

/-- The text of a property with hooks is cut into its pieces, whatever follows it. -/
theorem pieces_render (rest : Text) :
    PhpOutline.pieces false (.code false) (p.render ++ rest) =
      p.pieces ++ PhpOutline.pieces false (.code false) rest := by
  obtain ⟨a, ha⟩ := TypeText.exists_pieces_render p.type (p.name.text ++
    (renderDefault p.value ++ ' ' :: '{' :: (p.hooks.text ++ '}' :: rest)))
  rw [render_append, pieces_renderModifiers p.modifiers (TypeText.startsWith_render p.type _), ha,
    pieces_hookedItem]
  simp [pieces, HookedTokens.pieces]

theorem startsWith_isSpace_render (rest : Text) :
    startsWith isSpace (p.render ++ rest) = false := by
  rw [render_append]
  exact startsWith_isSpace_renderModifiers _ (TypeText.startsWith_render p.type _)

theorem faultless_type : Faultless (TypeText.pieces p.type) := by
  cases p.type with
  | none => exact .nil
  | some t => exact (faultless_of_faults_eq_nil t.faultless).append (.cons rfl .nil)

theorem nested_type : Nested Kind.FitsType (kindsOf (TypeText.pieces p.type)) := by
  cases p.type with
  | none => exact .nil
  | some t =>
    rw [TypeText.pieces, kindsOf_append]
    exact t.nested.append (.plain (by decide) rfl rfl .nil)

theorem nested_value :
    ∀ ps ∈ p.value.map fun v => codePieces v.text, Nested Kind.FitsValue (kindsOf ps) :=
  Option.forall_mem_map.2 fun v _ => v.nested

theorem faultless_pieces : Faultless p.pieces :=
  HookedTokens.faultless_pieces (faultless_modifierPieces _) p.faultless_type
    (Option.forall_mem_map.2 fun v _ => v.isContained.faultless) p.hooks.isContained.faultless

theorem nested_pieces : Nested (fun _ => True) (kindsOf p.pieces) :=
  HookedTokens.nested_pieces (isLead_modifierPieces _) p.nested_type p.nested_value p.hooks.nested

/-! ## What is read -/

/-- The record of a property with hooks has the default value that was written. Where none was
written it has none, unless the block assigns something. -/
structure Recovered (r : Property) : Prop where
  bound : ∀ v ∈ p.value, r.defaultValue = some v.text
  bare : p.value = none →
    (r.defaultValue = none ↔ AssignsNothing (kindsOf (codePieces p.hooks.text)))

/-- The member that was found is a property with the name that was written. -/
def FoundAs (t : TokenTable) (scope : ClassScope) : Member → Prop
  | .property s => s.name = p.name.text ∧ p.Recovered (.read t {} (some scope) s.decl s.item)
  | _ => False

/-- The pass over the body takes a property with hooks as one property. -/
theorem exists_takes {t : TokenTable} {scope : ClassScope} {before after ts : List Token}
    {stop : Nat} (ht : t.IsGapless) (h : t.tokens = before ++ (ts ++ after))
    (hts : ts.map Token.piece = p.pieces) :
    ∃ member, p.FoundAs t scope member ∧ member.Takes t stop before.length ts := by
  obtain ⟨k, rfl, hname, hvalue, hblock⟩ := HookedTokens.exists_of_pieces hts
    (isLead_modifierPieces _) (modifierPieces_ne_nil p.marked) p.nested_type
    (Option.forall_mem_map.2 fun v _ => v.delimited) p.nested_value p.hooks.nested
  refine ⟨.property (k.slot before.length), ⟨?_, ?_, ?_⟩, k.sweep_eq h⟩
  · rw [HookedTokens.slot, hname]
    rfl
  · intro v hv
    refine k.defaultValue_bound ht h ?_
    rw [hvalue, hv, Option.map_some, Option.map_some, textOf_codePieces]
  · intro hnone
    have hitem : k.item.defaultValue = none := by
      rw [hvalue, hnone]
      rfl
    rw [k.defaultValue_bare h hitem, ← kindsOf_map_piece, hblock]

end HookedSyntax

/-! ## Lines of a class body -/

/-- A line of a class body: a member, or a property with hooks. -/
inductive BodyLine where
  | member (m : MemberSyntax)
  | hooked (p : HookedSyntax)

namespace BodyLine

/-- The name of the property that a line declares. -/
def propertyName? : BodyLine → Option Text
  | member (.property p) => some p.name.text
  | member _ => none
  | hooked p => some p.name.text

/-- The member that was found is the one that was written. -/
def FoundAs (t : TokenTable) (scope : ClassScope) : BodyLine → Member → Prop
  | member m => m.FoundAs t scope
  | hooked p => p.FoundAs t scope

end BodyLine

/-- Members and properties with hooks as lines. -/
def bodyLines : LineSyntax BodyLine where
  render
    | .member m => m.render
    | .hooked p => p.render
  pieces
    | .member m => m.pieces
    | .hooked p => p.pieces
  pieces_render
    | .member m => m.pieces_render
    | .hooked p => p.pieces_render
  startsWith_isSpace
    | .member m => m.startsWith_isSpace_render
    | .hooked p => p.startsWith_isSpace_render
  faultless
    | .member m => m.faultless_pieces
    | .hooked p => p.faultless_pieces

theorem nested_bodyLine : ∀ l : BodyLine, Nested (fun _ => True) (kindsOf (bodyLines.pieces l))
  | .member m => m.nested_pieces
  | .hooked p => p.nested_pieces

theorem taken_bodyLines {t : TokenTable} (ht : t.IsGapless) (scope : ClassScope) (stop : Nat) :
    bodyLines.Taken t stop (BodyLine.FoundAs t scope) := by
  intro before ts after line h hts hstop
  cases line with
  | member m => exact m.exists_takes ht h hts hstop
  | hooked p => exact p.exists_takes ht h hts

/-- The properties that were found have the names that were written. -/
theorem map_name_properties {t : TokenTable} {scope : ClassScope} {ls : List BodyLine}
    {members : List Member} (h : List.Forall₂ (BodyLine.FoundAs t scope) ls members) :
    (members.filterMap Member.property?).map (fun s => s.name) =
      ls.filterMap BodyLine.propertyName? := by
  induction h with
  | nil => rfl
  | @cons line member ls members hfound _ ih =>
    rw [List.filterMap_cons, List.filterMap_cons]
    cases line with
    | hooked p =>
      cases member with
      | property s => simp [Member.property?, BodyLine.propertyName?, ih, hfound.1]
      | _ => exact hfound.elim
    | member m =>
      cases m with
      | property p =>
        cases member with
        | property s => simp [Member.property?, BodyLine.propertyName?, ih, hfound.1]
        | _ => exact hfound.elim
      | _ =>
        cases member with
        | property s => exact hfound.elim
        | _ => exact ih

/-- The first property with a name is found by it. -/
theorem OneType.property_eq {t : TokenTable} (f : OneType t) {front behind : List Member} {s : Slot}
    (hmembers : f.members = front ++ .property s :: behind)
    (hfront : s.name ∉ (front.filterMap Member.property?).map fun s => s.name)
    (hdollar : ClassLike.withoutDollar s.name = s.name) :
    f.read.property s.name = .ok (.read t {} (some f.scope) s.decl s.item) := by
  let listed (s : Slot) : Listed Property := ⟨s, .read t {} (some f.scope) s.decl s.item⟩
  have hlist : f.read.properties = (front.filterMap Member.property?).map listed ++
      listed s :: (behind.filterMap Member.property?).map listed := by
    rw [f.properties_read, hmembers]
    simp [Member.property?, listed]
  have hbefore : ∀ b ∈ (front.filterMap Member.property?).map listed, b.name ≠ (listed s).name := by
    intro b hb heq
    obtain ⟨slot, hslot, rfl⟩ := List.mem_map.1 hb
    exact hfront (List.mem_map.2 ⟨slot, hslot, heq⟩)
  exact @ClassLike.property_eq f.read (listed s) _ _ hlist hbefore hdollar

/-- A property with hooks among the lines of a class is found by its name, if no property in front
of it has that name. The default value that is read is the one that was written. Where none was
written none is read, unless the block assigns something. -/
theorem hooked_recovered (before after : List BodyLine) (p : HookedSyntax)
    (hname : p.name.text ∉ before.filterMap BodyLine.propertyName?) :
    ∃ c r, (SourceFile.ofSource {} (classSource (bodyLines.bodyText
        (before ++ .hooked p :: after)))).type "A".toList = .ok c ∧
      c.property p.name.text = .ok r ∧ p.Recovered r := by
  have hpieces := bodyLines.pieces_bodyText (before ++ .hooked p :: after)
  have hf : Faultless (newlinePiece :: bodyLines.linePieces (before ++ .hooked p :: after)) :=
    .cons rfl (bodyLines.faultless_linePieces _)
  obtain ⟨f, -, hbody, htype⟩ := exists_oneType_classSource hpieces hf
    (.plain trivial rfl rfl (bodyLines.nested_linePieces nested_bodyLine _))
  have hmembers := LineSyntax.forall₂_members f
    (taken_bodyLines (isGapless_classTable hpieces hf) f.scope f.last) hbody
  -- the members in front of the property, and the property itself
  have hfront := List.forall₂_take before.length hmembers
  have hrest := List.forall₂_drop before.length hmembers
  rw [List.take_left] at hfront
  rw [List.drop_left, List.forall₂_cons_left_iff] at hrest
  obtain ⟨member, behind, hfound, -, hdrop⟩ := hrest
  cases member with
  | property s =>
    obtain ⟨hslot, hrecord⟩ := hfound
    have hsplit : f.members = f.members.take before.length ++ .property s :: behind := by
      rw [← hdrop, List.take_append_drop]
    have hfirst : s.name ∉
        ((f.members.take before.length).filterMap Member.property?).map fun s => s.name := by
      rw [map_name_properties hfront, hslot]
      exact hname
    have hdollar : ClassLike.withoutDollar s.name = s.name := by
      rw [hslot]
      exact p.name.withoutDollar_text
    refine ⟨f.read, _, htype, ?_, hrecord⟩
    rw [← hslot]
    exact f.property_eq hsplit hfirst hdollar
  | _ => exact hfound.elim

/-- A property with a type in parentheses, a default value, and hooks that assign something. -/
def boundSample : HookedSyntax where
  modifiers := [⟨"public".toList, .access .publicAccess, by decide⟩]
  marked := by simp
  type := some ⟨"(A&B)|null".toList, by decide +kernel, by decide +kernel, by decide +kernel⟩
  name := ⟨"p".toList, by decide⟩
  value := some ⟨"[1, [2]]".toList, by decide +kernel, by decide +kernel, by decide +kernel⟩
  hooks := ⟨" set { $x = 1; } ".toList, by decide +kernel, ⟨_, rfl⟩, by decide +kernel,
    by decide +kernel, by decide +kernel⟩

/-- A property without a type or default value, and hooks that assign nothing. -/
def bareSample : HookedSyntax where
  modifiers := [⟨"Protected".toList, .access .protectedAccess, by decide⟩,
    ⟨"STATIC".toList, .static, by decide⟩]
  marked := by simp
  type := none
  name := ⟨"q".toList, by decide⟩
  value := none
  hooks := ⟨" get => f(1, 2); ".toList, by decide +kernel, ⟨_, rfl⟩, by decide +kernel,
    by decide +kernel, by decide +kernel⟩

/-- The default values of both samples are those that were written. -/
theorem hooked_recovered_samples :
    (∃ c r, (SourceFile.ofSource {} (classSource (bodyLines.bodyText
        ([.hooked bareSample] ++ .hooked boundSample :: [])))).type "A".toList = .ok c ∧
      c.property "p".toList = .ok r ∧ r.defaultValue = some "[1, [2]]".toList) ∧
    ∃ c r, (SourceFile.ofSource {} (classSource (bodyLines.bodyText
        ([] ++ .hooked bareSample :: [.hooked boundSample])))).type "A".toList = .ok c ∧
      c.property "q".toList = .ok r ∧ r.defaultValue = none := by
  constructor
  · obtain ⟨c, r, hc, hr, hrecovered⟩ :=
      hooked_recovered [.hooked bareSample] [] boundSample (by decide)
    have hvalue := hrecovered.bound _ rfl
    exact ⟨c, r, hc, hr, hvalue⟩
  · obtain ⟨c, r, hc, hr, hrecovered⟩ :=
      hooked_recovered [] [.hooked boundSample] bareSample (by decide)
    have hquiet : AssignsNothing (kindsOf (codePieces bareSample.hooks.text)) := by
      decide +kernel
    exact ⟨c, r, hc, hr, (hrecovered.bare rfl).2 hquiet⟩

/-- What a look-up behind another one gives. -/
theorem exists_ok_of_bind {ε α β γ : Type} {x : Except ε α} {f : α → Except ε β} {g : β → γ} {y : γ}
    (h : (x.bind f).toOption.map g = some y) : ∃ a b, x = .ok a ∧ f a = .ok b ∧ g b = y := by
  cases x with
  | error e => cases h
  | ok a =>
    obtain ⟨b, hb, hy⟩ := Option.map_eq_some_iff.1 h
    change (f a).toOption = some b at hb
    cases hf : f a with
    | error e =>
      rw [hf] at hb
      cases hb
    | ok b' =>
      rw [hf] at hb
      cases hb
      exact ⟨a, b, rfl, hf, hy⟩

/-- A property without a default value, and hooks that assign something. -/
def assigningSample : HookedSyntax :=
  { boundSample with value := none }

/-- What its hooks assign, with all that follows it in the block, is read as its default value. -/
theorem hook_read_as_default :
    (¬ ∀ p : HookedSyntax, p.value = none →
      ∃ c r, (SourceFile.ofSource {} (classSource (bodyLines.bodyText [.hooked p]))).type
          "A".toList = .ok c ∧
        c.property p.name.text = .ok r ∧ r.defaultValue = none) ∧
    ∃ c r, (SourceFile.ofSource {} (classSource (bodyLines.bodyText
        [.hooked assigningSample]))).type "A".toList = .ok c ∧
      c.property "p".toList = .ok r ∧ r.defaultValue = some ("1; ".toList ++ ['}']) := by
  have hread : ∃ c r, (SourceFile.ofSource {} (classSource (bodyLines.bodyText
      [.hooked assigningSample]))).type "A".toList = .ok c ∧
        c.property "p".toList = .ok r ∧ r.defaultValue = some ("1; ".toList ++ ['}']) := by
    refine exists_ok_of_bind ?_
    decide +kernel
  refine ⟨?_, hread⟩
  intro h
  obtain ⟨c, r, hc, hr, hvalue⟩ := hread
  obtain ⟨c', r', hc', hr', hnone⟩ := h assigningSample rfl
  obtain rfl : c = c' := Except.ok.inj (hc.symm.trans hc')
  obtain rfl : r = r' := Except.ok.inj (hr.symm.trans hr')
  rw [hvalue] at hnone
  cases hnone

end PhpOutline
