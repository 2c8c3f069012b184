import PhpOutline.Proofs.Discovery.Headers
import PhpOutline.Proofs.Outline.Newline
import PhpOutline.Proofs.Outline.Spans

/-!
# Parts of the functions and methods of a file

In every file, the parameter list, the return type and the body of a function come in this order and
lie in the function, so that what is read of them is part of its text. For a method this holds of
the parameter list and the body. Its return type can run on behind it: a parenthesis that is not
closed in the header of the method is followed to wherever it is closed in the file.

## Main definitions

* `Callable.PartsInside`: the parts of a function lie in it, one behind the other.

## Main statements

* `Text.slice_infix`: a slice of a slice.
* `SourceFile.sourceOf_infix`, `SourceFile.sourceBetween_infix`: the text of a part.
* `SourceFile.partsInside`: the functions and methods of every file.
* `SourceFile.return_type_runs_on`: a method with a return type that it does not contain.
-/

namespace PhpOutline

/-! ## Texts of parts -/

namespace Text

/-- Of two leading parts of a text, the longer one goes on from the shorter one. -/
theorem exists_eq_append_of_byteSize_le {a b c d : Text} (h : a ++ b = c ++ d)
    (hle : byteSize a ≤ byteSize c) : ∃ m, c = a ++ m := by
  rcases List.append_eq_append_iff.1 h with ⟨m, rfl, -⟩ | ⟨m, rfl, -⟩
  · exact ⟨m, rfl⟩
  · cases m with
    | nil => exact ⟨[], by simp⟩
    | cons x m =>
      have := x.utf8Size_pos
      rw [byteSize_append, byteSize_cons] at hle
      omega

/-- A slice between two places of another slice is a part of it. -/
theorem slice_infix {s : Text} {i j k l : Nat} (hi : s.IsBoundary i) (hj : s.IsBoundary j)
    (hk : s.IsBoundary k) (hl : s.IsBoundary l) (hik : i ≤ k) (hkl : k ≤ l) (hlj : l ≤ j) :
    s.slice k l <:+: s.slice i j := by
  obtain ⟨a, a', hs, rfl⟩ := hi
  obtain ⟨b, b', hb, rfl⟩ := hk
  obtain ⟨c, c', hc, rfl⟩ := hl
  obtain ⟨d, d', hd, rfl⟩ := hj
  obtain ⟨p, rfl⟩ := exists_eq_append_of_byteSize_le (hs.symm.trans hb) hik
  obtain ⟨q, rfl⟩ := exists_eq_append_of_byteSize_le (hb.symm.trans hc) hkl
  obtain ⟨r, rfl⟩ := exists_eq_append_of_byteSize_le (hc.symm.trans hd) hlj
  have hinner : s.slice (byteSize (a ++ p)) (byteSize (a ++ p ++ q)) = q := by
    rw [hc, byteSize_append (a ++ p) q]
    exact slice_append (a ++ p) q c'
  have houter : s.slice (byteSize a) (byteSize (a ++ p ++ q ++ r)) = p ++ q ++ r := by
    have hsplit : a ++ p ++ q ++ r = a ++ (p ++ q ++ r) := by simp
    rw [hd, hsplit, byteSize_append a (p ++ q ++ r)]
    exact slice_append a (p ++ q ++ r) d'
  rw [hinner, houter]
  exact ⟨p, r, rfl⟩

end Text

namespace SourceFile

variable {o : Options} {source : Text}

/-- The tokens of a file stand one behind the other, between characters of its text. -/
theorem exists_get? {i : Nat} (h : i < (ofSource o source).table.size) :
    ∃ x, (ofSource o source).table.get? i = some x ∧
      (ofSource o source).table.source.IsBoundary x.offset ∧
      (ofSource o source).table.source.IsBoundary x.stop := by
  refine ⟨_, List.getElem?_eq_getElem h, ?_⟩
  have hmem := List.getElem_mem h
  have htable := table_ofSource o source
  have hbounds : ∀ x ∈ (ofSource o source).table.tokens,
      (ofSource o source).table.source.IsBoundary x.offset ∧
        (ofSource o source).table.source.IsBoundary x.stop := by
    rw [htable]
    exact fun x hx => isBoundary_of_mem_placed hx
  exact hbounds _ hmem

theorem offset_le {i j : Nat} {x y : Token} (hij : i ≤ j)
    (hx : (ofSource o source).table.get? i = some x)
    (hy : (ofSource o source).table.get? j = some y) :
    x.offset ≤ y.offset ∧ x.stop ≤ y.stop ∧ (i < j → x.stop ≤ y.offset) := by
  have hsorted : (ofSource o source).table.tokens.Pairwise fun a b =>
      a.offset < b.offset ∧ a.stop ≤ b.offset :=
    pairwise_placed fun p hp => text_ne_nil_of_mem_pieces hp
  obtain ⟨hi, rfl⟩ := List.getElem?_eq_some_iff.1 hx
  obtain ⟨hj, rfl⟩ := List.getElem?_eq_some_iff.1 hy
  rcases Nat.lt_or_eq_of_le hij with hlt | rfl
  · have hpair := List.pairwise_iff_getElem.1 hsorted i j hi hj hlt
    refine ⟨Nat.le_of_lt hpair.1, ?_, fun _ => hpair.2⟩
    exact Nat.le_trans hpair.2 (Nat.le_add_right _ _)
  · exact ⟨Nat.le_refl _, Nat.le_refl _, fun h => absurd h (Nat.lt_irrefl _)⟩

/-- The text of a span is part of the text of every span around it. -/
theorem sourceOf_infix {r u : Span} (h : r.Inside u)
    (hu : u.last < (ofSource o source).table.size) :
    (ofSource o source).table.sourceOf r <:+: (ofSource o source).table.sourceOf u := by
  have hr := r.ordered
  have hinside : u.first ≤ r.first ∧ r.last ≤ u.last := h
  obtain ⟨a, ha, haOffset, -⟩ := @exists_get? o source u.first (by omega)
  obtain ⟨b, hb, -, hbStop⟩ := exists_get? hu
  obtain ⟨c, hc, hcOffset, -⟩ := @exists_get? o source r.first (by omega)
  obtain ⟨d, hd, -, hdStop⟩ := @exists_get? o source r.last (by omega)
  simp only [TokenTable.sourceOf, ha, hb, hc, hd]
  refine Text.slice_infix haOffset hbStop hcOffset hdStop (offset_le hinside.1 ha hc).1 ?_
    (offset_le hinside.2 hd hb).2.1
  exact Nat.le_trans (offset_le hr hc hd).1 (Nat.le_add_right _ _)

/-- The text between two places of a span is part of the text of the span. -/
theorem sourceBetween_infix {i j : Nat} {u : Span} (hi : u.first ≤ i) (hij : i ≤ j)
    (hj : j ≤ u.last) (hu : u.last < (ofSource o source).table.size) :
    (ofSource o source).table.sourceBetween i j <:+: (ofSource o source).table.sourceOf u := by
  obtain ⟨a, ha, haOffset, -⟩ := @exists_get? o source u.first (by omega)
  obtain ⟨b, hb, -, hbStop⟩ := exists_get? hu
  obtain ⟨c, hc, -, hcStop⟩ := @exists_get? o source i (by omega)
  obtain ⟨d, hd, hdOffset, -⟩ := @exists_get? o source j (by omega)
  simp only [TokenTable.sourceBetween, TokenTable.sourceOf, ha, hb, hc, hd]
  split
  · rename_i hle
    refine Text.slice_infix haOffset hbStop hcStop hdOffset ?_ hle ?_
    · exact Nat.le_trans (offset_le hi ha hc).1 (Nat.le_add_right _ _)
    · exact Nat.le_trans (Nat.le_add_right _ _) (offset_le hj hd hb).2.1
  · exact List.nil_infix

end SourceFile

/-! ## Functions and methods -/

/-- The parts of a function lie in it, one behind the other, and what is read of them is part of its
text. -/
structure Callable.PartsInside (t : TokenTable) (c : Callable) : Prop extends c.PartsOrdered where
  inside : ∀ r ∈ c.returnSpan, r.Inside c.span
  returnText : ∀ text ∈ c.returnType, text <:+: t.sourceOf c.span
  bodyText : c.body <:+: t.sourceOf c.span

namespace SourceFile

variable {o : Options} {source : Text} {context : NameContext} {scope : Option ClassScope}
  {inInterface : Bool} {span : Span}

/-- The body of a function is part of its text. -/
theorem body_infix (h : span.last < (ofSource o source).table.size) :
    (Callable.read (ofSource o source).table context scope inInterface span).body <:+:
      (ofSource o source).table.sourceOf span := by
  have hbody : (Callable.read (ofSource o source).table context scope inInterface span).body =
      ((Callable.read (ofSource o source).table context scope inInterface span).bodySpan.map
        fun b => (ofSource o source).table.sourceBetween b.first b.last).getD [] := rfl
  rw [hbody]
  cases hspan : (Callable.read (ofSource o source).table
    context scope inInterface span).bodySpan with
  | none => exact List.nil_infix
  | some b =>
    have hinside := Callable.partsOrdered_read.body b hspan
    exact sourceBetween_infix hinside.1 b.ordered hinside.2 h

/-- Behind a closed header, all parts of a function lie in it. -/
theorem partsInside_read (h : span.last < (ofSource o source).table.size)
    (hheader : ∀ l ∈ (Callable.read (ofSource o source).table context scope inInterface
      span).parameterList, ∃ stop,
        Callable.HeaderEnds (ofSource o source).table (l.last + 1) span.last stop) :
    (Callable.read (ofSource o source).table context scope inInterface span).PartsInside
      (ofSource o source).table := by
  have hinside := Callable.inside_of_headerEnds hheader
  refine ⟨Callable.partsOrdered_read, hinside, ?_, body_infix h⟩
  intro text htext
  obtain ⟨r, hr, rfl⟩ := Option.map_eq_some_iff.1 htext
  exact sourceOf_infix (hinside r hr) h

/-- The parts of the functions of a file come in order and lie in the function. So do the parameter
lists and the bodies of methods, and their return types where the parentheses of the header are
closed in it. -/
theorem partsInside (o : Options) (source : Text) :
    let f := ofSource o source
    (∀ d ∈ f.outline.functions, (f.readFunction d).PartsInside f.table) ∧
      ∀ d ∈ f.outline.types, ∀ m ∈ (f.readType d).methods,
        m.record.span = m.decl ∧ m.record.PartsOrdered ∧
        m.record.body <:+: f.table.sourceOf m.decl ∧
        ((∀ l ∈ m.record.parameterList, ∃ stop,
          Callable.HeaderEnds f.table (l.last + 1) m.decl.last stop) →
          m.record.PartsInside f.table) := by
  have hnested := spansNested o source
  constructor
  · intro d hd
    obtain ⟨site, hsite, -, hspan⟩ := exists_of_mem_functions hd
    refine partsInside_read (hnested.functions_lt d hd) ?_
    rw [← hspan]
    exact Event.exists_headerEnds hsite d.context none false
  · intro d hd m hm
    obtain ⟨scope, inInterface, hrecord⟩ := ClassLike.record_of_mem_methods hm
    have htype := (hnested.readType d hd).2
    have hlast : m.decl.last < (ofSource o source).table.size := by
      have hdecl := (htype.member m.toSlot
        (List.mem_append_right _ (List.mem_map_of_mem hm))).2.1
      exact Nat.lt_of_le_of_lt hdecl (hnested.types_lt d hd)
    rw [hrecord]
    exact ⟨rfl, Callable.partsOrdered_read, body_infix hlast, partsInside_read hlast⟩

/-- A method and a function with groups in their return types. -/
def groupedTypes : Text :=
  "<?php class A { function f(int $a): (B&C)|null { return 1; } } function g(): (D) {}".toList

/-- The parts of the function and of the method lie in them. -/
theorem partsInside_groupedTypes :
    (∃ d ∈ (ofSource {} groupedTypes).outline.functions,
      ((ofSource {} groupedTypes).readFunction d).returnType = some "(D)".toList ∧
        ((ofSource {} groupedTypes).readFunction d).PartsInside (ofSource {} groupedTypes).table) ∧
    ∃ d ∈ (ofSource {} groupedTypes).outline.types,
      ∃ m ∈ ((ofSource {} groupedTypes).readType d).methods,
        m.record.returnType = some "(B&C)|null".toList ∧ m.record.body = " return 1; ".toList ∧
          m.record.PartsInside (ofSource {} groupedTypes).table := by
  have hfunction : ∃ d ∈ (ofSource {} groupedTypes).outline.functions,
      ((ofSource {} groupedTypes).readFunction d).returnType = some "(D)".toList := by
    decide +kernel
  have hmethod : ∃ d ∈ (ofSource {} groupedTypes).outline.types,
      ∃ m ∈ ((ofSource {} groupedTypes).readType d).methods,
        m.record.returnType = some "(B&C)|null".toList ∧ m.record.body = " return 1; ".toList ∧
          ∃ b ∈ m.record.bodySpan, ∀ l ∈ m.record.parameterList,
            Callable.HeaderEnds (ofSource {} groupedTypes).table (l.last + 1) m.decl.last
              b.first := by
    decide +kernel
  constructor
  · obtain ⟨d, hd, htype⟩ := hfunction
    exact ⟨d, hd, htype, (partsInside {} groupedTypes).1 d hd⟩
  · obtain ⟨d, hd, m, hm, htype, hbody, b, -, hheader⟩ := hmethod
    refine ⟨d, hd, m, hm, htype, hbody, ((partsInside {} groupedTypes).2 d hd m hm).2.2.2 ?_⟩
    exact fun l hl => ⟨b.first, hheader l hl⟩

/-- The texts of the methods of a file and of their return types. -/
def methodTypes (f : SourceFile) : List (Text × Option Text) :=
  f.outline.types.flatMap fun d =>
    (f.readType d).methods.map fun m => (f.table.sourceOf m.record.span, m.record.returnType)

/-- A parenthesis in the return type of a method is followed out of the class. -/
theorem return_type_runs_on :
    (¬ ∀ (o : Options) (source : Text), ∀ d ∈ (ofSource o source).outline.types,
      ∀ m ∈ ((ofSource o source).readType d).methods,
        m.record.PartsInside (ofSource o source).table) ∧
    methodTypes (ofSource {} "<?php class A { function f(): ( } )".toList) =
      [("function f(): ( ".toList, some ("( ".toList ++ '}' :: " )".toList))] := by
  have htypes : methodTypes (ofSource {} "<?php class A { function f(): ( } )".toList) =
      [("function f(): ( ".toList, some ("( ".toList ++ '}' :: " )".toList))] := by
    decide +kernel
  refine ⟨?_, htypes⟩
  intro h
  have hmem : ("function f(): ( ".toList, some ("( ".toList ++ '}' :: " )".toList)) ∈
      methodTypes (ofSource {} "<?php class A { function f(): ( } )".toList) := by
    rw [htypes]
    exact List.mem_singleton.2 rfl
  obtain ⟨d, hd, hm⟩ := List.mem_flatMap.1 hmem
  obtain ⟨m, hm, htexts⟩ := List.mem_map.1 hm
  obtain ⟨hspan, htype⟩ := Prod.mk.inj htexts
  have hinfix := (h _ _ d hd m hm).returnText _ htype
  rw [hspan] at hinfix
  exact absurd hinfix (by decide)

end SourceFile

end PhpOutline
