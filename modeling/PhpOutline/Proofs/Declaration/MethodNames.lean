import PhpOutline.Proofs.Declaration.Naming
import PhpOutline.Proofs.Lookahead
import PhpOutline.Proofs.Outline.Spans

/-!
# Names of methods

The pass over the body of a type lists a method under the name behind the first word `function` that
stands outside all brackets. The method is read from its declaration later, and there only
attributes are passed over. So a word `function` in other brackets in front of the method's own
word, or the beginning of an attribute there, leads the later search astray; in all other cases the
method is read under the name it is listed under.

## Main definitions

* `Entry.hidden`: what stands in such brackets in front of the word.
* `Entry.Passed`: entries that both searches pass over.
* `Member.Begun`: what the pass over a body has behind it, from the first modifier on.

## Main statements

* `Member.Begun.step`, `Member.Begun.reaches`: what one step of the pass keeps, and the whole pass.
* `Member.exists_word_of_method_mem_scan`: the word that a listed method has its name from.
* `SourceFile.name_of_mem_methods`: the name a method is read under.
-/

namespace PhpOutline

namespace Entry

/-! ## In front of the word -/

/-- One step in front of the word `function` of a declaration. -/
def hiddenStep (_ : Unit) (e : Entry) (es : List Entry) : Stride Unit Entry :=
  let n := (groupEnd? (kinds (e :: es))).getD es.length
  match e.kind with
  | .keyword .function => ⟨[], (), es.length⟩
  | .attributeOpener => ⟨[], (), n⟩
  | .opener _ => ⟨es.take n, (), n⟩
  | _ => ⟨[], (), 0⟩

/-- The entries in brackets, other than those of attributes, in front of the first word `function`
outside all brackets. -/
def hidden (es : List Entry) : List Entry := sweep hiddenStep () 0 es

@[simp] theorem hidden_nil : hidden [] = [] := sweep_nil _ _ _

theorem hidden_word {e : Entry} (h : e.kind = .keyword .function) (es : List Entry) :
    hidden (e :: es) = [] := by
  rw [hidden, sweep_cons]
  simp only [hiddenStep, h]
  rw [sweep_eq_drop, List.drop_length, sweep_nil, List.append_nil]

theorem hidden_token {e : Entry} (hopens : e.kind.opens = none)
    (hword : e.kind ≠ .keyword .function) (es : List Entry) : hidden (e :: es) = hidden es := by
  have hstep : hiddenStep () e es = ⟨[], (), 0⟩ := by
    rw [hiddenStep]
    split
    · contradiction
    · rename_i hkind
      simp [hkind, Kind.opens] at hopens
    · rename_i hkind
      simp [hkind, Kind.opens] at hopens
    · rfl
  rw [hidden, sweep_cons, hstep]
  rfl

/-- Some entries are passed over on the way to the word: what they hide does not depend on what
stands behind them, and when that is plain, the search for the word passes over them too. -/
structure Passed (front : List Entry) : Prop where
  hidden : ∀ rest, hidden (front ++ rest) = hidden front ++ hidden rest
  skips : (∀ e ∈ Entry.hidden front, e.Plain) → Callable.Skips front

theorem Passed.nil : Passed [] where
  hidden := fun _ => rfl
  skips := fun _ => .nil

theorem Passed.append {front part : List Entry} (h : Passed front) (hpart : Passed part) :
    Passed (front ++ part) where
  hidden := by
    intro rest
    rw [List.append_assoc, h.hidden, hpart.hidden, h.hidden, List.append_assoc]
  skips := by
    intro hplain
    rw [h.hidden] at hplain
    exact (h.skips fun e he => hplain e (List.mem_append_left _ he)).append
      (hpart.skips fun e he => hplain e (List.mem_append_right _ he))

theorem passed_token {e : Entry} (hopens : e.kind.opens = none)
    (hword : e.kind ≠ .keyword .function) : Passed [e] where
  hidden := by
    intro rest
    rw [List.singleton_append, hidden_token hopens hword, hidden_token hopens hword]
    rfl
  skips := by
    intro _
    refine .singleton ⟨hword, ?_⟩
    intro hkind
    simp [hkind, Kind.opens] at hopens

section Groups

variable {e : Entry} {es : List Entry} {n : Nat} (h : groupEnd? (kinds (e :: es)) = some n)

include h

theorem length_take_group : (es.take n).length = n := by
  have hlt := groupEnd?_lt h
  rw [kinds, List.length_map, List.length_cons] at hlt
  rw [List.length_take]
  omega

/-- A group ends in the same place, whatever stands behind it. -/
theorem groupEnd?_take_append (rest : List Entry) :
    groupEnd? (kinds (e :: (es.take n ++ rest))) = some n := by
  have hsplit : ∀ fs, kinds (e :: (es.take n ++ fs)) = kinds (e :: es.take n) ++ kinds fs := by
    intro fs
    rw [← List.cons_append, kinds_append]
  have hlt : n < (kinds (e :: es.take n)).length := by
    rw [kinds, List.length_map, List.length_cons, length_take_group h]
    exact Nat.lt_succ_self n
  rw [← List.take_append_drop n es, hsplit] at h
  rw [hsplit]
  exact groupEnd?_append_of_lt h hlt _

/-- A group hides all that it holds, unless it is an attribute. -/
theorem hidden_group (rest : List Entry) : hidden (e :: (es.take n ++ rest)) =
    (if e.kind = .attributeOpener then [] else es.take n) ++ hidden rest := by
  have hend := groupEnd?_take_append h rest
  have hlength := length_take_group h
  rw [hidden, sweep_cons]
  cases hkind : e.kind with
  | attributeOpener =>
    simp only [hiddenStep, hkind, hend, Option.getD_some]
    rw [sweep_eq_drop, List.drop_left' hlength]
    rfl
  | opener b =>
    simp only [hiddenStep, hkind, hend, Option.getD_some]
    rw [sweep_eq_drop, List.drop_left' hlength, List.take_left' hlength]
    rfl
  | _ => simp [groupEnd?, kinds, hkind, Kind.opens] at h

/-- A group is passed over as a whole. -/
theorem passed_group : Passed (e :: es.take n) := by
  have hall : hidden (e :: es.take n) = if e.kind = .attributeOpener then [] else es.take n := by
    have hgroup := hidden_group h []
    rwa [List.append_nil, hidden_nil, List.append_nil] at hgroup
  constructor
  case hidden =>
    intro rest
    rw [List.cons_append, hidden_group h, hall]
  case skips =>
    intro hplain
    by_cases hkind : e.kind = .attributeOpener
    · -- both searches pass over an attribute as a whole
      intro l
      refine ⟨l, ?_⟩
      intro rest
      rw [List.cons_append, settle_cons]
      simp only [Callable.leadInStep, hkind, groupEnd?_take_append h, Option.getD_some]
      rw [settle_eq_drop, List.drop_left' (length_take_group h)]
    · rw [hall, if_neg hkind] at hplain
      refine .of_forall ?_
      intro a ha
      rcases List.mem_cons.1 ha with rfl | ha
      · refine ⟨?_, hkind⟩
        intro hword
        simp [groupEnd?, kinds, hword, Kind.opens] at h
      · exact hplain a ha

end Groups

end Entry

/-! ## The pass over a body -/

namespace Member

open Entry

variable {t : TokenTable} {context : NameContext} {stop : Nat} {all : List Entry}

/-- A step forgets where the declaration begins that is being read, or passes over a group, or over
a token that is no word `function`. -/
theorem state_cases (start : Option Nat) (e : Entry) (es : List Entry) :
    (step t context stop start e es).state = none ∨
    ((step t context stop start e es).state = start ∧
      (step t context stop start e es).claims =
        (groupEnd? (kinds (e :: es))).getD es.length) ∨
    (e.kind.opens = none ∧ e.kind ≠ .keyword .function ∧
      (∀ i ∈ (step t context stop start e es).state, i = start.getD e.index) ∧
      (step t context stop start e es).claims = 0) := by
  have hstart : ∀ i ∈ start, i = start.getD e.index := by
    intro i hi
    simp [Option.mem_def.1 hi]
  rw [step]
  split
  case h_1 => exact .inr (.inl ⟨rfl, rfl⟩)
  case h_2 => exact .inr (.inl ⟨rfl, rfl⟩)
  case h_3 hkind =>
    rw [hkind]
    exact .inr (.inr ⟨rfl, by simp, by simp, rfl⟩)
  case h_4 hkind =>
    split
    · exact .inl rfl
    · rw [hkind]
      exact .inr (.inr ⟨rfl, by simp, hstart, rfl⟩)
  case h_5 => exact .inl rfl
  case h_6 =>
    split
    · exact .inl rfl
    · exact .inl rfl
  case h_7 => exact .inl rfl
  case h_8 => exact .inl rfl
  case h_9 => exact .inl rfl
  case h_10 hkind =>
    split
    · exact .inl rfl
    · rw [hkind]
      exact .inr (.inr ⟨rfl, by simp, hstart, rfl⟩)
  case h_11 hattribute hopener _ _ _ hword _ _ _ _ =>
    have hopens : e.kind.opens = none := by
      cases hkind : e.kind with
      | attributeOpener => exact absurd hkind hattribute
      | opener b => exact absurd hkind (hopener b)
      | _ => rfl
    exact .inr (.inr ⟨hopens, hword, hstart, rfl⟩)

/-- What the pass over a body has behind it when it comes to `s`: a declaration that is being read
has begun with its first modifier, and from there on both searches pass over what stands before
`s`. -/
def Begun (all : List Entry) (start : Option Nat) (s : List Entry) : Prop :=
  ∀ i ∈ start, s ≠ [] → ∃ a front, a.index = i ∧ a :: front ++ s <:+ all ∧ Passed (a :: front)

theorem Begun.step {start : Option Nat} {e : Entry} {es : List Entry}
    (h : Begun all start (e :: es)) (hsuffix : e :: es <:+ all) :
    Begun all (step t context stop start e es).state
      (es.drop (step t context stop start e es).claims) := by
  -- the entries `e :: part` are passed over, and begin a declaration unless there is one already
  have hpast : ∀ i part rest, e :: es = e :: part ++ rest → Passed (e :: part) →
      i = start.getD e.index →
      ∃ a front, a.index = i ∧ a :: front ++ rest <:+ all ∧ Passed (a :: front) := by
    intro i part rest hsplit hpart hi
    cases start with
    | none => exact ⟨e, part, hi.symm, hsplit ▸ hsuffix, hpart⟩
    | some j =>
      obtain ⟨a, front, ha, hall, hfront⟩ := h j rfl (List.cons_ne_nil e es)
      refine ⟨a, front ++ e :: part, ha.trans hi.symm, ?_, hfront.append hpart⟩
      rw [hsplit] at hall
      simpa using hall
  intro i hi hrest
  rcases state_cases start e es with hnone | ⟨hstate, hclaims⟩ | ⟨hopens, hword, hstate, hclaims⟩
  · rw [hnone] at hi
    cases hi
  · rw [hclaims] at hrest ⊢
    rw [hstate] at hi
    cases hend : groupEnd? (kinds (e :: es)) with
    | none => simp [hend] at hrest
    | some n =>
      refine hpast i (es.take n) _ ?_ (passed_group hend) (by simp [Option.mem_def.1 hi])
      rw [Option.getD_some, List.cons_append, List.take_append_drop]
  · rw [hclaims]
    exact hpast i [] _ rfl (passed_token hopens hword) (hstate i hi)

theorem Begun.reaches {start start' : Option Nat} {s s' : List Entry}
    (h : Reaches (Member.step t context stop) start s start' s') (hsuffix : s <:+ all)
    (hbegun : Begun all start s) : Begun all start' s' := by
  induction h with
  | refl => exact hbegun
  | @head start start' e s s' _ ih =>
    have hrest : s <:+ all := (List.suffix_cons e s).trans hsuffix
    exact ih ((List.drop_suffix _ s).trans hrest) (hbegun.step hsuffix)

/-- The declaration of a method reaches to its name at least. -/
theorem exists_name_of_method? {i first : Nat} {word : Entry} {es : List Entry} {s : Slot}
    (h : word :: es <:+ t.window i stop) (hs : method? t stop first es = some s) :
    ∃ name behind, (Callable.naming es).2 = name :: behind ∧ s.name = name.text ∧
      s.decl.first = first ∧ name.index ≤ s.decl.last := by
  rw [method?] at hs
  split at hs
  case h_2 => cases hs
  case h_1 name rest hnaming =>
    cases hs
    refine ⟨name, rest, hnaming, rfl, rfl, Nat.le_trans ?_ (Nat.le_max_right _ _)⟩
    have hmem : name ∈ t.window i stop :=
      h.subset (List.mem_cons_of_mem word
        ((Callable.naming_suffix es).subset (hnaming ▸ List.mem_cons_self)))
    have hlt := (TokenTable.bounds_of_mem_window hmem).2
    cases methodEnd? t stop rest with
    | none => exact Nat.le_sub_one_of_lt hlt
    | some n =>
      change name.index ≤ name.index + 1 + n
      omega

/-- A method is listed under the name behind a word `function` of its declaration, up to which both
searches pass over all that the declaration holds. -/
theorem exists_word_of_method_mem_scan {body : Span} {s : Slot}
    (h : .method s ∈ scan t context body) :
    ∃ front word rest name behind, t.within s.decl = front ++ word :: rest ∧ Passed front ∧
      word.kind = .keyword .function ∧ (Callable.naming rest).2 = name :: behind ∧
      s.name = name.text := by
  obtain ⟨start, word, es, hreaches, hm⟩ := exists_reaches_of_mem_sweep h
  have hsuffix := hreaches.suffix
  have hes := TokenTable.eq_window_of_suffix hsuffix
  obtain ⟨hword, hslot⟩ := comesFrom_of_mem_emitted hm
  obtain ⟨front, hfront, hwindow⟩ : ∃ front, Passed front ∧
      t.window (start.getD word.index) body.last = front ++ word :: es := by
    cases start with
    | none => exact ⟨[], .nil, TokenTable.window_eq_of_suffix hsuffix⟩
    | some i =>
      have hbegun : Begun (t.window (body.first + 1) body.last) (some i) (word :: es) :=
        Begun.reaches hreaches (List.suffix_refl _) (by intro i hi; cases hi)
      obtain ⟨a, front, rfl, hall, hfront⟩ := hbegun i rfl (List.cons_ne_nil word es)
      exact ⟨a :: front, hfront, TokenTable.window_eq_of_suffix hall⟩
  obtain ⟨name, behind, hnaming, hname, hfirst, hlast⟩ := exists_name_of_method? hsuffix hslot
  have hlt : word.index < name.index := by
    have hmem : name ∈ es := (Callable.naming_suffix es).subset (hnaming ▸ List.mem_cons_self)
    rw [hes] at hmem
    exact (TokenTable.bounds_of_mem_window hmem).1
  rw [hes] at hnaming
  refine ⟨front, word, _, name, _, ?_, hfront, hword,
    Callable.naming_window_of_lt hnaming (Nat.lt_succ_of_le hlast), hname⟩
  rw [TokenTable.within, hfirst]
  exact TokenTable.window_eq_append hwindow (by omega)

end Member

/-! ## Methods of a type -/

namespace SourceFile

/-- A method is read under the name that it is listed under, if all is plain that stands in
brackets, other than those of attributes, in front of its word `function`. -/
theorem name_of_mem_methods (f : SourceFile) (d : Declared) {m : Listed Callable}
    (hm : m ∈ (f.readType d).methods)
    (hplain : ∀ e ∈ Entry.hidden (f.table.within m.decl), e.Plain) : m.record.name = m.name := by
  obtain ⟨scope, inInterface, hrecord⟩ := ClassLike.record_of_mem_methods hm
  obtain ⟨front, word, rest, name, behind, hwithin, hfront, hword, hnaming, hname⟩ :=
    Member.exists_word_of_method_mem_scan (ClassLike.method_mem_scan (List.mem_map_of_mem hm))
  rw [hwithin, hfront.hidden, Entry.hidden_word hword, List.append_nil] at hplain
  rw [hrecord, Callable.name_read hwithin (hfront.skips hplain) hword hnaming]
  exact hname.symm

/-- A word in an attribute, and a name in parentheses, in front of a method. -/
def bracketedFront : Text :=
  "<?php class A { public #[B(function c)] (D) static function &f() {} }".toList

/-- The method is listed, and read, as `f`. -/
theorem name_behind_bracketedFront :
    ∃ d ∈ (ofSource {} bracketedFront).outline.types,
      ∃ m ∈ ((ofSource {} bracketedFront).readType d).methods,
        m.name = "f".toList ∧ m.record.name = m.name := by
  have hclass : ∃ d ∈ (ofSource {} bracketedFront).outline.types,
      ∃ m ∈ ((ofSource {} bracketedFront).readType d).methods, m.name = "f".toList ∧
        ∀ e ∈ Entry.hidden ((ofSource {} bracketedFront).table.within m.decl), e.Plain := by
    decide +kernel
  obtain ⟨d, hd, m, hm, hname, hplain⟩ := hclass
  exact ⟨d, hd, m, hm, hname, name_of_mem_methods _ d hm hplain⟩

/-- The names of the methods of a file, as they are listed and as they are read. -/
def methodNames (f : SourceFile) : List (Text × Text) :=
  f.outline.types.flatMap fun d => (f.readType d).methods.map fun m => (m.name, m.record.name)

/-- A word `function` in parentheses is taken for that of the method, and an attribute that begins
in them hides it. -/
theorem method_read_under_other_name :
    (¬ ∀ (o : Options) (source : Text), ∀ d ∈ (ofSource o source).outline.types,
      ∀ m ∈ ((ofSource o source).readType d).methods, m.record.name = m.name) ∧
    methodNames (ofSource {}
      "<?php class A { public (function x) function f() {} }".toList) =
        [("f".toList, "x".toList)] ∧
    methodNames (ofSource {} "<?php class A { public (#[) function f() {} }".toList) =
      [("f".toList, [])] := by
  have hword : methodNames (ofSource {}
      "<?php class A { public (function x) function f() {} }".toList) =
        [("f".toList, "x".toList)] := by
    decide +kernel
  refine ⟨?_, hword, by decide +kernel⟩
  intro h
  have hmem : ("f".toList, "x".toList) ∈ methodNames (ofSource {}
      "<?php class A { public (function x) function f() {} }".toList) := by
    rw [hword]
    exact List.mem_singleton.2 rfl
  obtain ⟨d, hd, hm⟩ := List.mem_flatMap.1 hmem
  obtain ⟨m, hm, hnames⟩ := List.mem_map.1 hm
  obtain ⟨hlisted, hread⟩ := Prod.mk.inj hnames
  have hsame := h _ _ d hd m hm
  rw [hlisted, hread] at hsame
  cases hsame

end SourceFile

end PhpOutline
