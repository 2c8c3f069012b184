import Mathlib.Data.List.Infix
import PhpOutline.Declaration.Parameter
import PhpOutline.Proofs.Balance
import PhpOutline.Proofs.Declaration.Lead
import PhpOutline.Proofs.Lexing.Placement
import PhpOutline.Proofs.Lookahead
import PhpOutline.Proofs.Modifiers
import PhpOutline.Proofs.TokenTable.Items

/-!
# Parameters and their parts

A parameter is written as attributes, modifiers, a type, a mark for a reference, a mark for a
variadic parameter, the variable and a default value. All but the variable may be missing, and white
space and comments may stand between any two tokens. The one pass that reads a parameter takes each
token for the part that it belongs to: the hard case is the ampersand, which joins two types or
marks a reference.

## Main definitions

* `Parameter.AttributeGroup`, `Parameter.IsType`, `Parameter.Default`: parts of a parameter.
* `Parameter.Written`: a parameter as it is written, and `Written.entries`: its tokens.
* `Parameter.Written.Reflect`: a parameter that says what is written.
* `Parameter.Passes`: where the pass over the tokens of a parameter comes to.

## Main statements

* `Parameter.marksReference_eq`: an ampersand is taken for what the next token makes it.
* `Parameter.Written.settle_eq`: what the pass over a parameter has read in the end.
* `Parameter.Written.reflect_read`: a parameter is read as what is written.
-/

namespace PhpOutline.Parameter

/-! ## The parts of a parameter -/

/-- A group of attributes, with square brackets balanced in it. -/
structure AttributeGroup where
  opener : Entry
  inner : List Entry
  closer : Entry
  opener_kind : opener.kind = .attributeOpener
  closer_kind : closer.kind = .closer .square
  balanced : Bracket.square.Balanced (Entry.kinds inner)

/-- The tokens of a group of attributes. -/
def AttributeGroup.entries (g : AttributeGroup) : List Entry := g.opener :: (g.inner ++ [g.closer])

/-- The tokens that types are made of. -/
def typeKinds : List Kind := [.name, .question, .pipe, .ampersand, .opener .paren, .closer .paren]

/-- The tokens of a type, or none at all. An ampersand in it is followed by a name or by an opening
parenthesis; with what the type begins does not matter. -/
structure IsType (ks : List Kind) : Prop where
  parts : ∀ k ∈ ks, k ∈ typeKinds
  joined : ∀ rest ∈ ks.tails, rest.head? = some .ampersand →
    rest[1]? = some .name ∨ rest[1]? = some (.opener .paren)

/-- An equals sign and a value, which is not empty. -/
structure Default where
  equals : Entry
  first : Entry
  rest : List Entry
  equals_kind : equals.kind = .equals

/-- The tokens of a default value and of the equals sign before it. -/
def Default.entries (v : Default) : List Entry := v.equals :: v.first :: v.rest

/-- The significant tokens of a parameter, part by part. -/
structure Written where
  attributes : List AttributeGroup
  modifiers : List Entry
  type : List Entry
  ampersand : Option Entry
  ellipsis : Option Entry
  variableName : Entry
  value : Option Default
  modifiers_kind : ∀ e ∈ modifiers, e.kind.modifier? ≠ none
  isType : IsType (Entry.kinds type)
  ampersand_kind : ∀ e ∈ ampersand, e.kind = .ampersand
  ellipsis_kind : ∀ e ∈ ellipsis, e.kind = .ellipsis
  variableName_kind : variableName.kind = .variableName

namespace Written

/-- The tokens of the marks, the variable and the default value. -/
def ending (w : Written) : List Entry :=
  w.ampersand.toList ++ (w.ellipsis.toList ++
    w.variableName :: (w.value.map Default.entries).getD [])

/-- The tokens of a parameter. -/
def entries (w : Written) : List Entry :=
  w.attributes.flatMap AttributeGroup.entries ++ (w.modifiers ++ (w.type ++ w.ending))

/-- The words among the modifiers. -/
def words (w : Written) : List Modifier := (Entry.kinds w.modifiers).filterMap Kind.modifier?

/-- The parameter says what is written in its span: its name is that of the variable without the
dollar sign, the marks are those that are there, the type and the default value are the source from
the first to the last of their tokens, and it is promoted with the last visibility that is given, or
as public where it is readonly. -/
structure Reflect (w : Written) (t : TokenTable) (span : Span) (p : Parameter) : Prop where
  name : p.name = w.variableName.text.tail
  byReference : p.byReference = w.ampersand.isSome
  variadic : p.variadic = w.ellipsis.isSome
  typeHint : p.typeHint = (Entry.extent? w.type).map t.sourceOf
  defaultValue : p.defaultValue =
    w.value.map fun v => t.sourceOf (.ofBounds v.first.index span.last)
  promoted : p.promoted = (w.words.filterMap Modifier.visibility?).getLast?.or
    (if .readonly ∈ w.words then some .publicAccess else none)

end Written

/-! ## The pass over the tokens -/

section Pass

variable {t : TokenTable} {span : Span} {d d' d'' : Draft} {e : Entry} {r r' r'' : List Entry}

/-- Wherever the pass over a parameter stands with draft `d` in front of the significant tokens `r`,
it comes to stand with draft `d'` in front of `r'`. -/
def Passes (t : TokenTable) (span : Span) (d : Draft) (r : List Entry) (d' : Draft)
    (r' : List Entry) : Prop :=
  ∀ es, es <:+ t.within span → Entry.significant es = r →
    ∃ es', es' <:+ t.within span ∧ Entry.significant es' = r' ∧
      settle (step t span.last) d 0 es = settle (step t span.last) d' 0 es'

theorem Passes.refl : Passes t span d r d r := fun es hes hr => ⟨es, hes, hr, rfl⟩

theorem Passes.trans (h : Passes t span d r d' r') (h' : Passes t span d' r' d'' r'') :
    Passes t span d r d'' r'' := by
  intro es hes hr
  obtain ⟨es', hes', hr', heq⟩ := h es hes hr
  obtain ⟨es'', hes'', hr'', heq'⟩ := h' es' hes' hr'
  exact ⟨es'', hes'', hr'', heq.trans heq'⟩

/-- Insignificant tokens are passed over. -/
theorem settle_append {gap : List Entry} (hgap : ∀ x ∈ gap, x.kind.isInsignificant = true)
    (last : Nat) (d : Draft) (es : List Entry) :
    settle (step t last) d 0 (gap ++ es) = settle (step t last) d 0 es := by
  induction gap with
  | nil => rfl
  | cons x gap ih =>
    have hx : step t last d x (gap ++ es) = (d, 0) := if_pos (hgap x List.mem_cons_self)
    rw [List.cons_append, settle_cons, hx]
    exact ih fun y hy => hgap y (List.mem_cons_of_mem x hy)

/-- What a step does at the next significant token, which may claim some of those behind it. -/
theorem Passes.of_step
    (h : ∀ es, e :: es <:+ t.within span → Entry.significant es = r →
      (step t span.last d e es).1 = d' ∧
        Entry.significant (es.drop (step t span.last d e es).2) = r') :
    Passes t span d (e :: r) d' r' := by
  intro es hes hr
  obtain ⟨gap, after, rfl, hgap, -, hafter⟩ := Entry.significant_eq_cons hr
  have hsuffix : e :: after <:+ t.within span := (List.suffix_append gap _).trans hes
  obtain ⟨hstate, hclaims⟩ := h after hsuffix hafter
  refine ⟨after.drop (step t span.last d e after).2, ?_, hclaims, ?_⟩
  · exact ((List.drop_suffix _ after).trans (List.suffix_cons e after)).trans hsuffix
  · rw [settle_append hgap, settle_cons, settle_eq_drop, hstate]

/-- A token in front of the variable. -/
theorem Passes.front (hsignificant : e.kind.isInsignificant = false)
    (hattribute : e.kind ≠ .attributeOpener) (hname : d.name = none)
    (h : ∀ es, e :: es <:+ t.within span → Entry.significant es = r → readFront t d e = d') :
    Passes t span d (e :: r) d' r := by
  refine .of_step fun es hes hr => ?_
  have hstep : step t span.last d e es = (readFront t d e, 0) := by
    simp [step, hsignificant, hattribute, hname]
  rw [hstep]
  exact ⟨h es hes hr, hr⟩

/-- An ampersand is taken for what the next significant token makes it. -/
theorem marksReference_eq {f : Entry} {es : List Entry} (hes : e :: es <:+ t.within span)
    (hr : Entry.significant es = f :: r) :
    marksReference t e.index = (f.kind == .variableName || f.kind == .ellipsis) := by
  obtain ⟨gap, after, hsplit, hgap, hf, -⟩ := Entry.significant_eq_cons hr
  have hskip : Entry.skipTrivia (es ++ (t.startingAt (e.index + 1)).drop
      (span.last + 1 - (e.index + 1))) = f :: (after ++ (t.startingAt (e.index + 1)).drop
        (span.last + 1 - (e.index + 1))) := by
    rw [hsplit, List.append_assoc, List.cons_append, Entry.skipTrivia_append hgap hf]
  rw [TokenTable.eq_window_of_suffix hes, TokenTable.window_append_drop] at hskip
  rw [marksReference, hskip]

/-! ## Part by part -/

theorem passes_attributeGroup (g : AttributeGroup) : Passes t span d (g.entries ++ r) d r := by
  have hentries : g.entries ++ r = g.opener :: (g.inner ++ g.closer :: r) := by
    simp [AttributeGroup.entries]
  rw [hentries]
  refine .of_step fun es _ hr => ?_
  obtain ⟨inner, behind, rfl, hinner, hbehind⟩ := List.filter_eq_append_iff.1 hr
  obtain ⟨gap, after, rfl, hgap, -, hafter⟩ := Entry.significant_eq_cons hbehind
  -- the brackets of the group are balanced also with the insignificant tokens between them
  have hbalanced : Bracket.square.Balanced (Entry.kinds (inner ++ gap)) := by
    refine .of_filter (p := fun k => !k.isInsignificant) ?_ ?_
    · intro k hk
      exact Kind.no_bracket_of_isInsignificant (by simpa using hk)
    · rw [← Entry.kinds_significant, Entry.significant_append, Entry.significant_eq_nil hgap,
        List.append_nil, Entry.significant, hinner]
      exact g.balanced
  have hend : groupEnd? (Entry.kinds (g.opener :: (inner ++ (gap ++ g.closer :: after)))) =
      some ((inner ++ gap).length + 1) := by
    have := hbalanced.groupEnd?_eq (o := g.opener.kind) (c := g.closer.kind)
      (by rw [g.opener_kind]; rfl) (by rw [g.closer_kind]; rfl) (Entry.kinds after)
    simpa [Entry.kinds] using this
  have hstep : step t span.last d g.opener (inner ++ (gap ++ g.closer :: after)) =
      (d, (inner ++ gap).length + 1) := by
    rw [step, hend, g.opener_kind]
    rfl
  rw [hstep, ← List.append_assoc, List.drop_length_add_append]
  exact ⟨rfl, hafter⟩

theorem passes_attributes (gs : List AttributeGroup) :
    Passes t span d (gs.flatMap AttributeGroup.entries ++ r) d r := by
  induction gs with
  | nil => exact .refl
  | cons g gs ih =>
    rw [List.flatMap_cons, List.append_assoc]
    exact (passes_attributeGroup g).trans ih

theorem passes_modifiers {ms : List Entry} (hms : ∀ e ∈ ms, e.kind.modifier? ≠ none)
    (hname : d.name = none) (htype : d.typeSpan = none) :
    Passes t span d (ms ++ r)
      { d with modifiers := (Entry.kinds ms).foldl Modifiers.apply d.modifiers } r := by
  induction ms generalizing d with
  | nil => exact .refl
  | cons e ms ih =>
    obtain ⟨m, hm⟩ := Kind.exists_of_modifier? (hms e List.mem_cons_self)
    have hfront : readFront t d e = { d with modifiers := d.modifiers.apply e.kind } :=
      if_pos (by simp [htype, hm, Kind.modifier?])
    have hfirst : Passes t span d (e :: (ms ++ r))
        { d with modifiers := d.modifiers.apply e.kind } (ms ++ r) :=
      .front (by rw [hm]; rfl) (by simp [hm]) hname fun _ _ _ => hfront
    exact hfirst.trans (ih (fun x hx => hms x (List.mem_cons_of_mem e hx)) hname htype)

/-- A token of a type. An ampersand belongs to a type by what follows it. -/
theorem passes_typeToken (he : e.kind ∈ typeKinds) (hname : d.name = none)
    (hr : e.kind = .ampersand → ∃ f ∈ r.head?, f.kind = .name ∨ f.kind = .opener .paren) :
    Passes t span d (e :: r) (d.extendType e.index) r := by
  have hkinds : e.kind.isInsignificant = false ∧ e.kind ≠ .attributeOpener ∧
      e.kind.modifier? = none ∧ e.kind ≠ .ellipsis ∧ e.kind ≠ .variableName := by
    generalize e.kind = k at he
    revert k
    decide
  obtain ⟨hsignificant, hattribute, hmodifier, hellipsis, hvariable⟩ := hkinds
  refine .front hsignificant hattribute hname fun es hes hes' => ?_
  rw [readFront, if_neg (by simp [hmodifier])]
  split
  · next hk =>
    obtain ⟨f, hf, hkind⟩ := hr hk
    obtain ⟨rest, rfl⟩ := List.head?_eq_some_iff.1 hf
    rw [if_neg]
    rw [marksReference_eq hes hes']
    rcases hkind with hkind | hkind <;> simp [hkind]
  · next hk => exact absurd hk hellipsis
  · next hk => exact absurd hk hvariable
  · rfl

theorem IsType.of_cons {k : Kind} {ks : List Kind} (h : IsType (k :: ks)) : IsType ks where
  parts l hl := h.parts l (List.mem_cons_of_mem k hl)
  joined rest hrest := h.joined rest (by simp [hrest])

theorem passes_typeTokens {ts : List Entry} (hts : IsType (Entry.kinds ts))
    (hname : d.name = none) :
    Passes t span d (ts ++ r) (ts.foldl (fun d e => d.extendType e.index) d) r := by
  induction ts generalizing d with
  | nil => exact .refl
  | cons e ts ih =>
    have hkind : e.kind ∈ typeKinds := hts.parts e.kind (by simp [Entry.kinds])
    have hjoined : e.kind = .ampersand →
        ∃ f ∈ (ts ++ r).head?, f.kind = .name ∨ f.kind = .opener .paren := by
      intro he
      have hnext := hts.joined (Entry.kinds (e :: ts)) (by simp [Entry.kinds])
        (by simp [Entry.kinds, he])
      cases ts with
      | nil => simp [Entry.kinds] at hnext
      | cons f ts => exact ⟨f, rfl, by simpa [Entry.kinds] using hnext⟩
    exact (passes_typeToken hkind hname hjoined).trans (ih hts.of_cons hname)

/-- The tokens of a type give its span from the first through the last of them. -/
theorem foldl_extendType (ts : List Entry) (htype : d.typeSpan = none) :
    ts.foldl (fun d e => d.extendType e.index) d = { d with typeSpan := Entry.extent? ts } := by
  induction ts using List.reverseRecOn with
  | nil => simp [Entry.extent?, ← htype]
  | append_singleton ts e ih =>
    rw [List.foldl_concat, ih]
    cases ts with
    | nil => rfl
    | cons a ts => simp [Draft.extendType, Entry.extent?, List.getLast?_cons]

theorem passes_type {ts : List Entry} (hts : IsType (Entry.kinds ts)) (hname : d.name = none)
    (htype : d.typeSpan = none) :
    Passes t span d (ts ++ r) { d with typeSpan := Entry.extent? ts } r := by
  rw [← foldl_extendType ts htype]
  exact passes_typeTokens hts hname

theorem passes_ampersand {mark : Option Entry} (hmark : ∀ e ∈ mark, e.kind = .ampersand)
    (hname : d.name = none) (href : d.byReference = false)
    (hr : ∃ f ∈ r.head?, f.kind = .variableName ∨ f.kind = .ellipsis) :
    Passes t span d (mark.toList ++ r) { d with byReference := mark.isSome } r := by
  cases mark with
  | none =>
    rw [Option.isSome_none, ← href]
    exact .refl
  | some e =>
    have he : e.kind = .ampersand := hmark e rfl
    refine .front (by rw [he]; rfl) (by simp [he]) hname fun es hes hes' => ?_
    obtain ⟨f, hf, hkind⟩ := hr
    obtain ⟨rest, rfl⟩ := List.head?_eq_some_iff.1 hf
    have hmarks : marksReference t e.index = true := by
      rw [marksReference_eq hes hes']
      simpa using hkind
    simp [readFront, he, hmarks, Kind.modifier?]

theorem passes_ellipsis {mark : Option Entry} (hmark : ∀ e ∈ mark, e.kind = .ellipsis)
    (hname : d.name = none) (hvariadic : d.variadic = false) :
    Passes t span d (mark.toList ++ r) { d with variadic := mark.isSome } r := by
  cases mark with
  | none =>
    rw [Option.isSome_none, ← hvariadic]
    exact .refl
  | some e =>
    have he : e.kind = .ellipsis := hmark e rfl
    refine .front (by rw [he]; rfl) (by simp [he]) hname fun _ _ _ => ?_
    simp [readFront, he, Kind.modifier?]

theorem passes_variableName (he : e.kind = .variableName) (hname : d.name = none) :
    Passes t span d (e :: r) { d with name := some e.text.tail } r := by
  refine .front (by rw [he]; rfl) (by simp [he]) hname fun _ _ _ => ?_
  simp [readFront, he, Kind.modifier?]

/-- An equals sign behind the variable takes everything that follows. -/
theorem passes_value {value : Option Default} {name : Text} (hname : d.name = some name)
    (hvalue : d.defaultValue = none) :
    Passes t span d ((value.map Default.entries).getD [])
      { d with defaultValue := value.map fun v => t.sourceOf (.ofBounds v.first.index span.last) }
      [] := by
  cases value with
  | none =>
    rw [Option.map_none, Option.map_none, ← hvalue]
    exact .refl
  | some v =>
    refine .of_step fun es _ hr => ?_
    have hfirst : (Entry.skipTrivia es).head? = some v.first := by
      rw [Entry.skipTrivia, ← List.find?_not_eq_head?_dropWhile]
      exact (List.head?_filter ..).symm.trans (congrArg List.head? hr)
    have hstep : step t span.last d v.equals es =
        ({ d with defaultValue := some (t.sourceOf (.ofBounds v.first.index span.last)) },
          es.length) := by
      simp [step, v.equals_kind, hname, hfirst, Kind.isInsignificant, Kind.isTrivia]
    rw [hstep, List.drop_length]
    exact ⟨rfl, rfl⟩

end Pass

/-! ## The parameter as a whole -/

namespace Written

variable {t : TokenTable} {span : Span} (w : Written)

/-- What has been read of a parameter in the end. -/
def draft (t : TokenTable) (span : Span) : Draft where
  modifiers := .ofKinds (Entry.kinds w.modifiers)
  typeSpan := Entry.extent? w.type
  name := some w.variableName.text.tail
  defaultValue := w.value.map fun v => t.sourceOf (.ofBounds v.first.index span.last)
  byReference := w.ampersand.isSome
  variadic := w.ellipsis.isSome

/-- Behind the ampersand of a reference stands the variable or the mark of a variadic parameter. -/
theorem exists_head?_behind_ampersand (r : List Entry) :
    ∃ f ∈ (w.ellipsis.toList ++ w.variableName :: r).head?,
      f.kind = .variableName ∨ f.kind = .ellipsis := by
  cases h : w.ellipsis with
  | none => exact ⟨w.variableName, rfl, .inl w.variableName_kind⟩
  | some e => exact ⟨e, rfl, .inr (w.ellipsis_kind e h)⟩

theorem passes_entries : Passes t span {} w.entries (w.draft t span) [] :=
  (passes_attributes w.attributes).trans <|
  (passes_modifiers w.modifiers_kind rfl rfl).trans <|
  (passes_type w.isType rfl rfl).trans <|
  (passes_ampersand w.ampersand_kind rfl rfl (w.exists_head?_behind_ampersand _)).trans <|
  (passes_ellipsis w.ellipsis_kind rfl rfl).trans <|
  (passes_variableName w.variableName_kind rfl).trans <|
  passes_value rfl rfl

theorem settle_eq (h : Entry.significant (t.within span) = w.entries) :
    settle (step t span.last) {} 0 (t.within span) = w.draft t span := by
  obtain ⟨es, -, hes, heq⟩ := w.passes_entries (t.within span) (List.suffix_refl _) h
  have hrest : ∀ e ∈ es, e.kind.isInsignificant = true := by
    intro e he
    simpa [Entry.isSignificant_eq] using List.filter_eq_nil_iff.1 hes e he
  rw [heq, ← List.append_nil es, settle_append hrest, settle_nil]

/-- A parameter is read as what is written. -/
theorem reflect_read (context : NameContext) (scope : Option ClassScope) (position : Nat)
    (h : Entry.significant (t.within span) = w.entries) :
    w.Reflect t span (read t context scope span position) := by
  have hsettle := w.settle_eq h
  have hmodifiers := Modifiers.reflect_ofKinds (Entry.kinds w.modifiers)
  have hreadonly : (if (Modifiers.ofKinds (Entry.kinds w.modifiers)).isReadonly then
      some Visibility.publicAccess else none) =
        if .readonly ∈ w.words then some .publicAccess else none := by
    rw [hmodifiers.isReadonly]
    simp [words]
  constructor <;> rw [read, hsettle]
  · rfl
  · rfl
  · rfl
  · rfl
  · rfl
  · exact congrArg₂ Option.or hmodifiers.explicit hreadonly

end Written

/-- A promoted parameter with every part, a comment, and ampersands of both kinds. -/
def promotedPieces : List Piece :=
  let token (kind : Kind) (text : String) : Piece := .token kind text.toList none
  [token .openTag "<?php ", token .name "fn", token (.opener .paren) "(",
    token .attributeOpener "#[", token .name "A", token (.opener .paren) "(",
    token (.opener .square) "[", token (.closer .square) "]", token (.closer .paren) ")",
    token (.closer .square) "]", token .whitespace " ",
    token (.keyword (.modifier (.access .privateAccess))) "private", token .comment "/**/",
    token (.keyword (.modifier .readonly)) "readonly", token .whitespace " ",
    token (.opener .paren) "(", token .name "A", token .ampersand "&", token .name "B",
    token (.closer .paren) ")", token .pipe "|", token .name "C", token .whitespace " ",
    token .ampersand "&", token .ellipsis "...", token .variableName "$x", token .equals "=",
    token .whitespace " ", token .number "1", token (.closer .paren) ")"]

/-- The table of a source with that parameter. -/
def promotedTable : TokenTable := ⟨textOf promotedPieces, placed 1 0 promotedPieces⟩

example : pieces false .html promotedTable.source = promotedPieces := by
  decide +kernel

/-- A token of that table. -/
def promotedEntry (i : Nat) : Entry := (promotedTable.startingAt 0).getD i ⟨⟨.other, [], 1, 0⟩, i⟩

/-- The parts of the parameter. -/
def promotedParts : Written where
  attributes :=
    [{ opener := promotedEntry 3
       inner := [4, 5, 6, 7, 8].map promotedEntry
       closer := promotedEntry 9
       opener_kind := by decide +kernel
       closer_kind := by decide +kernel
       balanced := ⟨by decide +kernel, by decide +kernel⟩ }]
  modifiers := [11, 13].map promotedEntry
  type := [15, 16, 17, 18, 19, 20, 21].map promotedEntry
  ampersand := some (promotedEntry 23)
  ellipsis := some (promotedEntry 24)
  variableName := promotedEntry 25
  value := some
    { equals := promotedEntry 26
      first := promotedEntry 28
      rest := []
      equals_kind := by decide +kernel }
  modifiers_kind := by decide +kernel
  isType := ⟨by decide +kernel, by decide +kernel⟩
  ampersand_kind := by decide +kernel
  ellipsis_kind := by decide +kernel
  variableName_kind := by decide +kernel

/-- The parameter is read part by part. -/
theorem Written.reflect_read_promoted :
    Entry.significant (promotedTable.within (.ofBounds 3 28)) = promotedParts.entries ∧
      promotedParts.Reflect promotedTable (.ofBounds 3 28)
        (read promotedTable {} none (.ofBounds 3 28) 0) := by
  have h : Entry.significant (promotedTable.within (.ofBounds 3 28)) = promotedParts.entries := by
    decide +kernel
  exact ⟨h, promotedParts.reflect_read {} none 0 h⟩

example : (read promotedTable {} none (.ofBounds 3 28) 0).typeHint = some "(A&B)|C".toList := by
  decide +kernel

end PhpOutline.Parameter
