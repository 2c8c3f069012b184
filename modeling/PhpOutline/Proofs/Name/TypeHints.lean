import Mathlib.Data.List.DropRight
import PhpOutline.Name.Context

/-!
# Type hints that allow null

A type is made nullable by a question mark in front of it, or by `null` as a further alternative on
either side. Which class a type hint names does not depend on that, nor on the blanks around it, and
a hint that is a single name is resolved like any other reference to a class.

## Main definitions

* `NameContext.nullableSpellings`: the ways to write that a type may be null.
* `NameContext.classlessWords`: the type words that are not resolved as names.

## Main statements

* `Text.trimStart_trimEnd`: blanks may be removed from the two ends in any order.
* `NameContext.hintMembers_append_cons`: alternatives are listed one after the other.
* `NameContext.resolveType?_nullable`: nullable spellings name the same class.
-/

namespace PhpOutline

/-! ## Blanks at the ends of a text -/

namespace Text

theorem trimStart_cons_of_isBlank {c : Char} (h : isBlank c = true) (s : Text) :
    trimStart (c :: s) = trimStart s := by
  simp [trimStart, h]

theorem trimStart_cons_of_not_isBlank {c : Char} (h : isBlank c = false) (s : Text) :
    trimStart (c :: s) = c :: s := by
  simp [trimStart, h]

theorem trimEnd_cons_of_not_isBlank {c : Char} (h : isBlank c = false) (s : Text) :
    trimEnd (c :: s) = c :: trimEnd s := by
  simp [trimEnd_cons, h]

/-- Blanks may be removed from the two ends in any order. -/
theorem trimStart_trimEnd (s : Text) : trimStart (trimEnd s) = trimEnd (trimStart s) := by
  induction s with
  | nil => rfl
  | cons c s ih =>
    cases hc : isBlank c with
    | false =>
      rw [trimEnd_cons_of_not_isBlank hc, trimStart_cons_of_not_isBlank hc,
        trimStart_cons_of_not_isBlank hc, trimEnd_cons_of_not_isBlank hc]
    | true =>
      rw [trimStart_cons_of_isBlank hc, ← ih, trimEnd_cons]
      split
      · rename_i h
        rw [h.1]
      · rw [trimStart_cons_of_isBlank hc]

@[simp] theorem trimStart_trimStart (s : Text) : trimStart (trimStart s) = trimStart s :=
  List.dropWhile_idempotent isBlank s

theorem trim_trimStart (s : Text) : trim (trimStart s) = trim s := by
  rw [trim, trimStart_trimStart, trim]

theorem trim_trimEnd (s : Text) : trim (trimEnd s) = trim s := by
  rw [trim, trimStart_trimEnd, trimEnd_trimEnd, trim]

@[simp] theorem trim_trim (s : Text) : trim (trim s) = trim s := by
  conv_lhs => rw [trim.eq_1 s, trim_trimEnd, trim_trimStart]

/-- The first character that is not blank stays the first one, whatever follows. -/
theorem head?_trim_append {s : Text} (h : s.trim ≠ []) (t : Text) :
    (trim (s ++ t)).head? = s.trim.head? := by
  induction s with
  | nil => exact absurd rfl h
  | cons c s ih =>
    cases hc : isBlank c with
    | false =>
      rw [trim, trim, List.cons_append, trimStart_cons_of_not_isBlank hc,
        trimStart_cons_of_not_isBlank hc, trimEnd_cons_of_not_isBlank hc,
        trimEnd_cons_of_not_isBlank hc, List.head?_cons, List.head?_cons]
    | true =>
      have hpass : ∀ r : Text, trim (c :: r) = trim r := by
        intro r
        rw [trim, trimStart_cons_of_isBlank hc, trim]
      rw [hpass] at h
      rw [List.cons_append, hpass, hpass, ih h]

/-- A test that no blank passes is not changed by blanks at the ends. -/
theorem any_trim {p : Char → Bool} (hp : ∀ c, isBlank c = true → p c = false) (s : Text) :
    (trim s).any p = s.any p := by
  have hstart : (trimStart s).any p = s.any p := by
    induction s with
    | nil => rfl
    | cons c s ih =>
      cases hc : isBlank c with
      | false => rw [trimStart_cons_of_not_isBlank hc]
      | true => rw [trimStart_cons_of_isBlank hc, ih, List.any_cons, hp c hc, Bool.false_or]
  have hend : ∀ t, (trimEnd t).any p = t.any p := by
    intro t
    induction t with
    | nil => rfl
    | cons c t ih =>
      rw [trimEnd_cons, List.any_cons, ← ih]
      split
      · rename_i h
        rw [h.1, hp c h.2]
        rfl
      · rw [List.any_cons]
  rw [trim, hend, hstart]

/-- Blanks at the end of a text are blanks at the end of its last part. -/
theorem map_trimEnd_splitOn (sep : Char) (hsep : isBlank sep = false) (s : Text) :
    ((trimEnd s).splitOn sep).map trimEnd = (s.splitOn sep).map trimEnd := by
  induction s with
  | nil => rfl
  | cons c s ih =>
    have hcons : (List.splitOn sep (c :: trimEnd s)).map trimEnd =
        (List.splitOn sep (c :: s)).map trimEnd := by
      rw [List.splitOn_cons_eq_if_modifyHead, List.splitOn_cons_eq_if_modifyHead]
      split
      · rw [List.map_cons, List.map_cons, ih]
      · obtain ⟨g, gs, hg⟩ := List.exists_cons_of_ne_nil (List.splitOn_ne_nil sep (trimEnd s))
        obtain ⟨k, ks, hk⟩ := List.exists_cons_of_ne_nil (List.splitOn_ne_nil sep s)
        rw [hg, hk, List.map_cons, List.map_cons, List.cons.injEq] at ih
        simp only [hg, hk, List.modifyHead_cons, List.map_cons, ih.2, trimEnd_cons, ih.1]
    rw [trimEnd_cons]
    split
    · rename_i h
      have hc : c ≠ sep := by
        rintro rfl
        simp [hsep] at h
      rw [h.1] at hcons
      have hblank : List.splitOn sep [c] = [[c]] :=
        List.splitOn_eq_singleton (by simpa using hc.symm)
      rw [← hcons, hblank]
      simp [trimEnd_cons, h.2]
    · exact hcons

/-- Blanks at the start of a text are blanks at the start of its first part. -/
theorem map_trim_splitOn_trimStart (sep : Char) (hsep : isBlank sep = false) (s : Text) :
    ((trimStart s).splitOn sep).map trim = (s.splitOn sep).map trim := by
  induction s with
  | nil => rfl
  | cons c s ih =>
    cases hc : isBlank c with
    | false => rw [trimStart_cons_of_not_isBlank hc]
    | true =>
      have hne : c ≠ sep := by
        rintro rfl
        simp [hsep] at hc
      rw [trimStart_cons_of_isBlank hc, ih, List.splitOn_cons_eq_if_modifyHead,
        if_neg (by simpa using hne)]
      obtain ⟨g, gs, hg⟩ := List.exists_cons_of_ne_nil (List.splitOn_ne_nil sep s)
      rw [hg, List.modifyHead_cons, List.map_cons, List.map_cons, ← trim_trimStart (c :: g),
        trimStart_cons_of_isBlank hc, trim_trimStart]

/-- Between separators, blanks at the ends of a text do not count. -/
theorem map_trim_splitOn (sep : Char) (hsep : isBlank sep = false) (s : Text) :
    ((trim s).splitOn sep).map trim = (s.splitOn sep).map trim := by
  have hboth : ∀ gs : List Text, (gs.map trimEnd).map trim = gs.map trim := by
    intro gs
    simp [trim_trimEnd]
  rw [trim, ← hboth, map_trimEnd_splitOn sep hsep, hboth, map_trim_splitOn_trimStart sep hsep]

end Text

/-! ## Type hints -/

namespace NameContext

/-- The ways to write that a type may be null. -/
def nullableSpellings (hint : Text) : List Text :=
  ['?' :: hint, hint ++ "|null".toList, "null|".toList ++ hint]

/-- The type words that are not resolved as names. -/
def classlessWords : List Text :=
  ["null".toList, "self".toList, "static".toList, "parent".toList] ++ builtinTypes

/-- The signs of intersections and groups, in which no class is named. -/
def isComposite (c : Char) : Bool := c == '&' || c == '(' || c == ')'

theorem isComposite_of_isBlank (c : Char) (h : Text.isBlank c = true) : isComposite c = false := by
  cases hc : isComposite c with
  | false => rfl
  | true =>
    simp only [isComposite, Bool.or_eq_true, beq_iff_eq] at hc
    obtain (rfl | rfl) | rfl := hc <;> simp [Text.isBlank, Text.blankRanges] at h

theorem hintMembers_append_cons (a b : Text) :
    hintMembers (a ++ '|' :: b) = hintMembers a ++ hintMembers b := by
  simp [hintMembers, List.splitOn_append_cons_self]

theorem hintMembers_trim (s : Text) : hintMembers s.trim = hintMembers s := by
  rw [hintMembers, Text.map_trim_splitOn '|' (by decide), hintMembers]

/-- Without a question mark, the hint is read as it stands between its blanks. -/
theorem bareHint_of_head? {s : Text} (h : s.trim.head? ≠ some '?') : bareHint s = s.trim := by
  have hstrip : s.trim.stripOne '?' = none := by
    cases hs : s.trim with
    | nil => rfl
    | cons c r =>
      have hc : c ≠ '?' := by
        rintro rfl
        simp [hs] at h
      simp [Text.stripOne, hc]
  rw [bareHint, hstrip, Option.getD_none, Text.trim_trim]

/-- A question mark in front is passed over, with the blanks behind it. -/
theorem bareHint_question (s : Text) : bareHint ('?' :: s) = s.trim := by
  have hblank : Text.isBlank '?' = false := by decide
  have htrim : Text.trim ('?' :: s) = '?' :: s.trimEnd := by
    rw [Text.trim, Text.trimStart_cons_of_not_isBlank hblank,
      Text.trimEnd_cons_of_not_isBlank hblank]
  rw [bareHint, htrim]
  simp [Text.stripOne, Text.trim_trimEnd]

/-- Of a hint without a question mark in front, only the composite signs and the alternatives
count. -/
theorem resolveType?_congr {s t : Text} (hs : s.trim ≠ []) (hqs : s.trim.head? ≠ some '?')
    (ht : t.trim ≠ []) (hqt : t.trim.head? ≠ some '?')
    (hany : t.any isComposite = s.any isComposite) (hmembers : hintMembers t = hintMembers s)
    (c : NameContext) (scope : Option ClassScope) :
    c.resolveType? t scope = c.resolveType? s scope := by
  have hsigns : (fun ch : Char => ch == '&' || ch == '(' || ch == ')') = isComposite := rfl
  rw [resolveType?, resolveType?]
  simp only [hsigns, bareHint_of_head? hqs, bareHint_of_head? hqt,
    Text.any_trim isComposite_of_isBlank, hintMembers_trim, List.isEmpty_eq_false_iff.2 hs,
    List.isEmpty_eq_false_iff.2 ht, hany, hmembers]

/-- `null` as a last alternative adds nothing. -/
theorem resolveType?_append_null (c : NameContext) (scope : Option ClassScope) {s : Text}
    (hs : s.trim ≠ []) (hq : s.trim.head? ≠ some '?') :
    c.resolveType? (s ++ "|null".toList) scope = c.resolveType? s scope := by
  have hhead := Text.head?_trim_append hs "|null".toList
  refine resolveType?_congr hs hq ?_ (by rwa [hhead]) ?_ ?_ c scope
  · intro hnil
    rw [hnil] at hhead
    exact hs (List.head?_eq_none_iff.1 hhead.symm)
  · have hnull : "|null".toList.any isComposite = false := by decide
    rw [List.any_append, hnull, Bool.or_false]
  · have hnull : hintMembers "null".toList = [] := by decide
    exact (hintMembers_append_cons s "null".toList).trans (by rw [hnull, List.append_nil])

/-- Nor does it as a first alternative. -/
theorem resolveType?_null_append (c : NameContext) (scope : Option ClassScope) {s : Text}
    (hs : s.trim ≠ []) (hq : s.trim.head? ≠ some '?') :
    c.resolveType? ("null|".toList ++ s) scope = c.resolveType? s scope := by
  have hhead : (Text.trim ("null|".toList ++ s)).head? = some 'n' :=
    Text.head?_trim_append (by decide) s
  refine resolveType?_congr hs hq ?_ (by rw [hhead]; decide) ?_ ?_ c scope
  · intro hnil
    rw [hnil] at hhead
    cases hhead
  · have hnull : "null|".toList.any isComposite = false := by decide
    rw [List.any_append, hnull, Bool.false_or]
  · have hnull : hintMembers "null".toList = [] := by decide
    exact (hintMembers_append_cons "null".toList s).trans (by rw [hnull, List.nil_append])

/-- Where no type word of its own is written, an alternative is resolved as a reference. -/
theorem resolveMember?_eq_resolve (c : NameContext) (scope : Option ClassScope) {m : Text}
    (h : ∀ w ∈ classlessWords, m.sameWord w = false) :
    c.resolveMember? scope m = some (c.resolve m) := by
  have hword : ∀ w ∈ classlessWords, w.lower = w → m.lower ≠ w := by
    intro w hw hlower heq
    have hsame : m.sameWord w = true := Text.sameWord_iff.2 (heq.trans hlower.symm)
    rw [h w hw] at hsame
    cases hsame
  have hbuiltin : m.lower ∉ builtinTypes := by
    intro hmem
    have hsmall : ∀ w ∈ builtinTypes, w.lower = w := by decide
    exact hword _ (List.mem_append_right _ hmem) (hsmall _ hmem) rfl
  have hself : ¬ (m.lower = "self".toList ∨ m.lower = "static".toList) := by
    rintro (heq | heq)
    · exact hword _ (by decide) (by decide) heq
    · exact hword _ (by decide) (by decide) heq
  have hparent : m.lower ≠ "parent".toList := hword _ (by decide) (by decide)
  rw [resolveMember?]
  simp only [if_neg hself, if_neg hparent, if_neg hbuiltin]
  split
  · rename_i full hfull
    rw [resolve, hfull]
  · split
    · rename_i hroot _ imported himport
      rw [resolve, hroot, himport]
    · rfl

/-- A hint that is a single name is resolved as a reference. -/
theorem resolveType?_eq_resolve (c : NameContext) (scope : Option ClassScope) {s : Text}
    (hs : s.trim ≠ []) (hq : s.trim.head? ≠ some '?')
    (hsigns : ∀ ch ∈ s.trim, ch ∉ ['|', '&', '(', ')'])
    (hwords : ∀ w ∈ classlessWords, s.trim.sameWord w = false) :
    c.resolveType? s scope = some (c.resolve s.trim) := by
  have hcomposite : s.trim.any isComposite = false := by
    rw [List.any_eq_false]
    intro ch hch
    have := hsigns ch hch
    simp_all [isComposite]
  have hnull : s.trim.sameWord "null".toList = false := hwords _ (by decide)
  have hmembers : hintMembers s.trim = [s.trim] := by
    have hpipe : '|' ∉ s.trim := fun hmem => hsigns '|' hmem (by simp)
    rw [hintMembers, List.splitOn_eq_singleton hpipe, List.map_singleton, Text.trim_trim,
      List.filter_singleton, hnull]
    rfl
  have hany : (s.trim.any fun ch => ch == '&' || ch == '(' || ch == ')') = false := hcomposite
  rw [resolveType?, bareHint_of_head? hq]
  simp only [List.isEmpty_eq_false_iff.2 hs, hany, hmembers, Bool.or_self, Bool.false_eq_true,
    if_false]
  exact c.resolveMember?_eq_resolve scope hwords

/-- The nullable spellings of a type name the class that the type names. A type that is one name,
and neither builtin nor relative to a class, names the class that a reference of that name does. -/
theorem resolveType?_nullable (c : NameContext) (scope : Option ClassScope) (hint : Text)
    (hne : hint.trim ≠ []) (hplain : hint.trim.head? ≠ some '?') :
    (∀ s ∈ nullableSpellings hint, c.resolveType? s scope = c.resolveType? hint scope) ∧
      ((∀ ch ∈ hint.trim, ch ∉ ['|', '&', '(', ')']) →
        (∀ w ∈ classlessWords, hint.trim.sameWord w = false) →
          ∀ s ∈ hint :: nullableSpellings hint,
            c.resolveType? s scope = some (c.resolve hint.trim)) := by
  have hall : ∀ s ∈ nullableSpellings hint, c.resolveType? s scope = c.resolveType? hint scope := by
    intro s hs
    simp only [nullableSpellings, List.mem_cons, List.not_mem_nil, or_false] at hs
    obtain rfl | rfl | rfl := hs
    · rw [resolveType?, bareHint_question, resolveType?, bareHint_of_head? hplain]
    · exact c.resolveType?_append_null scope hne hplain
    · exact c.resolveType?_null_append scope hne hplain
  refine ⟨hall, ?_⟩
  intro hsigns hwords s hs
  have hhint := c.resolveType?_eq_resolve scope hne hplain hsigns hwords
  rcases List.mem_cons.1 hs with rfl | hs
  · exact hhint
  · rw [hall s hs, hhint]

/-- A context in which a builtin type word is an alias. -/
def aliasedContext : NameContext := ⟨some "App".toList, [("array".toList, "Lib\\Bag".toList)]⟩

/-- A union names no class, with or without `null`; a name between blanks, one of them beyond ASCII,
names the class that it names as a reference. -/
theorem resolveType?_nullable_aliased :
    (Text.trim " array | B\u00A0".toList ≠ [] ∧
      ∀ s ∈ nullableSpellings " array | B\u00A0".toList,
        aliasedContext.resolveType? s none = none) ∧
      ∀ s ∈ "\u3000array\\Sub ".toList :: nullableSpellings "\u3000array\\Sub ".toList,
        aliasedContext.resolveType? s none = some "Lib\\Bag\\Sub".toList := by
  have hunion : aliasedContext.resolveType? " array | B\u00A0".toList none = none := by
    decide +kernel
  have htrim : Text.trim "\u3000array\\Sub ".toList = "array\\Sub".toList := by decide +kernel
  have hresolve : aliasedContext.resolve "array\\Sub".toList = "Lib\\Bag\\Sub".toList := by
    decide +kernel
  refine ⟨⟨by decide +kernel, ?_⟩, ?_⟩
  · have hall := (resolveType?_nullable aliasedContext none " array | B\u00A0".toList
      (by decide +kernel) (by decide +kernel)).1
    rwa [hunion] at hall
  · have hname := (resolveType?_nullable aliasedContext none "\u3000array\\Sub ".toList
      (by decide +kernel) (by decide +kernel)).2
    rw [htrim, hresolve] at hname
    exact hname (by simp) (by decide +kernel)

end NameContext

end PhpOutline
