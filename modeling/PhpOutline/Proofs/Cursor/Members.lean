import PhpOutline.Proofs.Cursor.Callables
import PhpOutline.Proofs.Cursor.Ends
import PhpOutline.Proofs.Cursor.Properties

/-!
# Members of a type, place by place

The body of a type is cut into its members by a loop over the places between its braces. A turn may
jump over a bracket group, over a statement or over a method, and each jump ends behind the place at
which it began: the group is closed behind its opener, and a statement and a method end at their
first token or behind it.

## Main definitions

* `Cursor.memberTurn` and `Cursor.scanMembers`.

## Main statements

* `Cursor.proceeds_memberTurn`: what one turn does.
* `Cursor.scanMembers_eq`: the members of a body.
-/

namespace PhpOutline.Cursor

open TokenTable

variable {t : TokenTable} {context : NameContext} {i j stop : Nat} {x : Token}

/-! ## Parts of a turn -/

/-- The members among the pieces of a declaration, each read from its piece. -/
def pieceMembers (t : TokenTable) (list : Span) (read : Span → Guarded (Option Member)) :
    Guarded (List Member) := do
  let pieces ← splitTopLevel t list
  let found ← pieces.mapM read
  return found.filterMap id

theorem pieceMembers_eq {list : Span} (hlist : list.last ≤ t.size)
    {read : Span → Guarded (Option Member)} {g : Span → Option Member}
    (h : ∀ item, read item = .ok (g item)) :
    pieceMembers t list read = .ok ((t.splitTopLevel list).filterMap g) := by
  rw [pieceMembers, splitTopLevel_eq hlist, ok_bind, mapM_eq_ok fun item _ => h item, ok_bind,
    List.filterMap_map]
  rfl

/-- The constants of a declaration. -/
def constants (t : TokenTable) (decl list : Span) : Guarded (List Member) :=
  pieceMembers t list fun item => do
    let sign ← findKind t item.first item.last .equals
    let name ← constantName t item sign
    return name.map fun i => .constant ⟨t.text i, decl, item⟩

theorem constants_eq {list : Span} (h : 0 < t.size) (hlist : list.last ≤ t.size) (decl : Span) :
    constants t decl list =
      .ok (Member.constants t decl (t.window (list.first + 1) list.last)) := by
  refine pieceMembers_eq hlist ?_
  intro item
  rw [findKind_eq h, ok_bind, constantName_eq]
  rfl

/-- The properties of a declaration. -/
def properties (t : TokenTable) (decl list : Span) : Guarded (List Member) :=
  pieceMembers t list fun item => do
    let name ← findKind t item.first item.last .variableName
    return name.map fun i => .property ⟨(t.text i).drop 1, decl, item⟩

theorem properties_eq {list : Span} (h : 0 < t.size) (hlist : list.last ≤ t.size) (decl : Span) :
    properties t decl list =
      .ok (Member.properties t decl (t.window (list.first + 1) list.last)) := by
  refine pieceMembers_eq hlist ?_
  intro item
  rw [findKind_eq h, ok_bind, Property.named, within, dropWhile_findKind?]
  cases hname : t.findKind? item.first item.last .variableName with
  | none => rfl
  | some i =>
    obtain ⟨e, he, rfl⟩ := Option.map_eq_some_iff.1 hname
    have hmem := mem_startingAt_of_mem_window (List.mem_of_find?_eq_some he)
    have hlt := (bounds_of_mem_window (List.mem_of_find?_eq_some he)).2
    rw [Option.map_some, Option.map_some, Option.getD_some, window_index hmem hlt, text_index hmem]
    rfl

/-- The place of the name of a method whose word `function` stands at place `i`, in a body that ends
at place `stop`. -/
def methodName (t : TokenTable) (stop i : Nat) : Guarded (Option Nat) := do
  let first ← nextSignificant t (i + 1)
  let name ← match first with
    | none => pure none
    | some j =>
      if t.kind? j = some .ampersand then nextSignificant t (j + 1) else pure (some j)
  return name.filter (· < stop)

theorem methodName_eq (t : TokenTable) (stop i : Nat) :
    methodName t stop i =
      .ok ((Callable.naming (t.window (i + 1) stop)).2.head?.map Entry.index) := by
  have hfilter := filter_nextSignificant? t (i + 1) stop
  rw [methodName, nextSignificant_eq, ok_bind, Callable.naming]
  cases hskip : Entry.skipTrivia (t.window (i + 1) stop) with
  | nil =>
    rw [hskip] at hfilter
    cases hnext : t.nextSignificant? (i + 1) with
    | none => rfl
    | some j =>
      rw [hnext] at hfilter
      have hj : stop ≤ j := by simpa using hfilter
      simp only
      split
      · rw [nextSignificant_eq, ok_bind, filter_nextSignificant?, window_of_le (by omega)]
        rfl
      · rw [pure_eq_ok, ok_bind, hfilter]
        rfl
  | cons e rest =>
    have hsuffix : e :: rest <:+ t.window (i + 1) stop := hskip ▸ Entry.skipTrivia_suffix _
    have hmem := mem_startingAt_of_mem_window (hsuffix.subset List.mem_cons_self)
    rw [hskip] at hfilter
    have hnext := (Option.filter_eq_some_iff.1 hfilter).1
    rw [hnext] at hfilter ⊢
    simp only [kind?_index hmem, Option.some.injEq]
    split
    · rw [nextSignificant_eq, ok_bind, filter_nextSignificant?, ← eq_window_of_suffix hsuffix]
      rfl
    · rw [pure_eq_ok, ok_bind, hfilter]
      rfl

/-! ## Turns -/

/-- What has been read of a body: where the modifiers of the next member begin, and the members. -/
abbrev BodyState := Option Nat × List Member

/-- A turn over a method whose word `function` stands at place `i`. Its declaration begins at place
`first`. -/
def passMethod (t : TokenTable) (stop first : Nat) (members : List Member) (i : Nat) :
    Guarded (Turn BodyState (List Member)) := do
  match ← methodName t stop i with
  | none => return .goOn (none, members) stop
  | some name =>
    let last ← methodEnd t stop (name + 1)
    let span := Span.ofBounds first last
    return .goOn (none, members ++ [.method ⟨t.text name, span, span⟩]) (last + 1)

/-- One turn over the body of a type that ends at place `stop`. -/
def memberTurn (t : TokenTable) (context : NameContext) (stop : Nat) (s : BodyState) (i : Nat) :
    Guarded (Turn BodyState (List Member)) := do
  let (start, members) := s
  let first := start.getD i
  match t.get? i with
  | none => return .done members
  | some x =>
    match x.kind with
    | .attributeOpener | .opener _ => return .goOn (start, members) (skipGroup t stop i)
    | .keyword (.modifier _) => return .goOn (some first, members) (i + 1)
    | .keyword .use =>
      if start.isNone then
        let last ← statementEnd t stop i
        return .goOn (none, members ++ Member.traitUses context (t.window (i + 1) last)) (last + 1)
      else return .goOn (start, members) (i + 1)
    | .keyword .const =>
      let last ← statementEnd t stop i
      let found ← constants t (.ofBounds first last) (.ofBounds i last)
      return .goOn (none, members ++ found) (last + 1)
    | .keyword .function => passMethod t stop first members i
    | .variableName =>
      let last ← statementEnd t stop i
      let front ← back i 1
      let found ← properties t (.ofBounds first last) (.ofBounds front last)
      return .goOn (none, members ++ found) (last + 1)
    | .semicolon | .closer .brace => return .goOn (none, members) (i + 1)
    | .name =>
      if start.isNone then return .goOn (none, members) ((← statementEnd t stop i) + 1)
      else return .goOn (start, members) (i + 1)
    | _ => return .goOn (start, members) (i + 1)

/-- The members that have been read, and those that a pass finds from a place on. -/
def membersFrom (t : TokenTable) (context : NameContext) (stop : Nat) (s : BodyState) (i : Nat) :
    List Member :=
  s.2 ++ sweep (Member.step t context stop) s.1 0 (t.window i stop)

/-- The cursor stands behind the brace of the body and behind the modifiers that have been read. -/
structure Started (s : BodyState) (i : Nat) : Prop where
  pos : 0 < i
  start : ∀ k ∈ s.1, k ≤ i

/-- A turn that does what a step over the body does. -/
abbrev Splits (t : TokenTable) (context : NameContext) (stop : Nat) (s : BodyState) (i : Nat) :
    Guarded (Turn BodyState (List Member)) → Prop :=
  Proceeds Started (fun s i r => r = membersFrom t context stop s i) s i

section Turns

variable {start start' : Option Nat} {members emitted : List Member} {n : Nat}

/-- The turn goes on where the body goes on behind what the step claims. -/
theorem splits_goOn (hx : t.get? i = some x) (hi : i < stop)
    (hstep : Member.step t context stop start ⟨x, i⟩ (t.window (i + 1) stop) = ⟨emitted, start', n⟩)
    (hj : i < j) (hstart : ∀ k ∈ start', k ≤ j)
    (hwindow : t.window j stop = t.window (i + 1 + n) stop) :
    Splits t context stop (start, members) i (.ok (.goOn (start', members ++ emitted) j)) := by
  refine .goOn hj ⟨Nat.zero_lt_of_lt hj, hstart⟩ ?_
  rw [membersFrom, membersFrom, sweep_window hx hi hstep, hwindow, List.append_assoc]

theorem splits_succ (hx : t.get? i = some x) (hi : i < stop)
    (hstep : Member.step t context stop start ⟨x, i⟩ (t.window (i + 1) stop) = ⟨[], start', 0⟩)
    (hstart : ∀ k ∈ start', k ≤ i) :
    Splits t context stop (start, members) i (.ok (.goOn (start', members) (i + 1))) := by
  have hgoOn := @splits_goOn t context i (i + 1) stop x start start' members [] 0 hx hi hstep
    (Nat.lt_succ_self i) (fun k hk => Nat.le_succ_of_le (hstart k hk)) rfl
  rwa [List.append_nil] at hgoOn

/-- The turn passes over a bracket group. -/
theorem splits_group (hx : t.get? i = some x) (hi : i < stop)
    (hstep : Member.step t context stop start ⟨x, i⟩ (t.window (i + 1) stop) =
      ⟨[], start, (groupEnd? (Entry.kinds (⟨x, i⟩ :: t.window (i + 1) stop))).getD
        (t.window (i + 1) stop).length⟩)
    (hstart : ∀ k ∈ start, k ≤ i) :
    Splits t context stop (start, members) i
      (.ok (.goOn (start, members) (skipGroup t stop i))) := by
  have hlt := @lt_skipGroup t i stop hi
  rw [← window_of_get? hx hi] at hstep
  have hgoOn := @splits_goOn t context i _ stop x start start members [] _ hx hi hstep hlt
    (fun k hk => Nat.le_trans (hstart k hk) (Nat.le_of_lt hlt)) (window_skipGroup hi)
  rwa [List.append_nil] at hgoOn

/-- The turn passes over a statement. -/
theorem splits_statement (hx : t.get? i = some x) (hi : i < stop)
    (hstep : Member.step t context stop start ⟨x, i⟩ (t.window (i + 1) stop) = ⟨emitted, none, n⟩) :
    Splits t context stop (start, members) i (.ok (.goOn (none, members ++ emitted) (i + n + 1))) :=
  splits_goOn hx hi hstep (by omega) (by simp) (by rw [Nat.add_right_comm])

/-- The turn passes over a method. -/
theorem splits_method (hstop : stop < t.size) (hx : t.get? i = some x) (hi : i < stop)
    (hstart : ∀ k ∈ start, k ≤ i)
    (hstep : Member.step t context stop start ⟨x, i⟩ (t.window (i + 1) stop) =
      match Member.method? t stop (start.getD i) (t.window (i + 1) stop) with
      | some slot => ⟨[.method slot], none, slot.decl.last - i⟩
      | none => ⟨[], none, (t.window (i + 1) stop).length⟩) :
    Splits t context stop (start, members) i (passMethod t stop (start.getD i) members i) := by
  have hfirst : start.getD i ≤ i := by
    cases start with
    | none => exact Nat.le_refl i
    | some k => exact hstart k rfl
  have hsuffix := Callable.naming_suffix (t.window (i + 1) stop)
  rw [passMethod, methodName_eq, ok_bind]
  rw [Member.method?] at hstep
  cases hnamed : (Callable.naming (t.window (i + 1) stop)).2 with
  | nil =>
    rw [hnamed] at hstep
    have hgoOn := @splits_goOn t context i stop stop x start none members [] _ hx hi hstep hi
      (by simp) ((window_of_le (Nat.le_refl _)).trans (window_length_add t (i + 1) stop).symm)
    rwa [List.append_nil] at hgoOn
  | cons name rest =>
    rw [hnamed] at hstep hsuffix
    have hbounds := bounds_of_mem_window (hsuffix.subset List.mem_cons_self)
    have hmem := mem_startingAt_of_mem_window (hsuffix.subset List.mem_cons_self)
    simp only [List.head?_cons, Option.map_some]
    rw [methodEnd_eq (Nat.le_of_lt hstop) (by omega), ok_bind, text_index hmem]
    simp only [eq_window_of_suffix hsuffix] at hstep
    generalize hlast : ((Member.methodEnd? t stop (t.window (name.index + 1) stop)).map
      (name.index + 1 + ·)).getD (stop - 1) = last at hstep ⊢
    have hle : i ≤ last := by
      rw [← hlast]
      cases Member.methodEnd? t stop (t.window (name.index + 1) stop) with
      | none => exact Nat.le_sub_one_of_lt hi
      | some n =>
        simp only [Option.map_some, Option.getD_some]
        omega
    refine splits_goOn hx hi hstep (Nat.lt_succ_of_le hle) (by simp)
      (congrArg (t.window · stop) ?_)
    rw [Span.last_ofBounds, Nat.max_eq_right (Nat.le_trans hfirst hle)]
    omega

theorem proceeds_memberTurn {s : BodyState} (hstop : stop < t.size) (hs : Started s i)
    (hi : i < stop) : Splits t context stop s i (memberTurn t context stop s i) := by
  obtain ⟨start, members⟩ := s
  obtain ⟨x, hx⟩ := exists_token (Nat.lt_trans hi hstop)
  have hstep := Member.step.eq_1 t context stop start ⟨x, i⟩ (t.window (i + 1) stop)
  have hend := statementEnd_eq (Nat.le_of_lt hstop) hx hi
  have hn := Member.statementLength_le ⟨x, i⟩ (t.window (i + 1) stop)
  rw [length_window (Nat.le_of_lt hstop)] at hn
  simp only [memberTurn, hx]
  simp only at hstep
  generalize hkind : x.kind = k at hstep
  generalize Member.statementLength ⟨x, i⟩ (t.window (i + 1) stop) = n at hstep hend hn
  -- the entries of a statement, with its first one and without it
  have hwhole : (⟨x, i⟩ :: t.window (i + 1) stop).take n = t.window i (i + n) := by
    have htake := @take_window t i (i + n) stop (by omega)
    rwa [Nat.add_sub_cancel_left, window_of_get? hx hi] at htake
  have hbehind : (t.window (i + 1) stop).take (n - 1) = t.window (i + 1) (i + n) := by
    have htake := @take_window t (i + 1) (i + n) stop (by omega)
    rwa [show i + n - (i + 1) = n - 1 by omega] at htake
  cases k with
  | attributeOpener => exact splits_group hx hi hstep hs.start
  | opener b => exact splits_group hx hi hstep hs.start
  | semicolon => exact splits_succ hx hi hstep (by simp)
  | closer b =>
    cases b with
    | brace => exact splits_succ hx hi hstep (by simp)
    | paren | square => exact splits_succ hx hi hstep hs.start
  | variableName =>
    have hfirst : i - 1 + 1 = i := Nat.sub_add_cancel hs.pos
    have hlast : max (i - 1) (i + n) = i + n := Nat.max_eq_right (by omega)
    simp only
    rw [hend, ok_bind, back_of_le hs.pos, ok_bind,
      properties_eq (by omega) (by rw [Span.last_ofBounds]; omega), ok_bind, Span.first_ofBounds,
      Span.last_ofBounds, hfirst, hlast, ← hwhole]
    exact splits_statement hx hi hstep
  | name =>
    cases start with
    | none =>
      simp only [Option.isNone_none, if_true] at hstep ⊢
      rw [hend, ok_bind]
      have hpassed := @splits_statement t context i stop x none members [] n hx hi hstep
      rwa [List.append_nil] at hpassed
    | some k => exact splits_succ hx hi hstep hs.start
  | keyword w =>
    cases w with
    | modifier m =>
      refine splits_succ hx hi hstep ?_
      cases start with
      | none => simp
      | some k => exact hs.start
    | use =>
      cases start with
      | none =>
        simp only [Option.isNone_none, if_true] at hstep ⊢
        rw [hend, ok_bind, ← hbehind]
        exact splits_statement hx hi hstep
      | some k => exact splits_succ hx hi hstep hs.start
    | const =>
      have hlast : max i (i + n) = i + n := Nat.max_eq_right (by omega)
      simp only
      rw [hend, ok_bind, constants_eq (by omega) (by rw [Span.last_ofBounds]; omega), ok_bind,
        Span.first_ofBounds, Span.last_ofBounds, hlast, ← hbehind]
      exact splits_statement hx hi hstep
    | function => exact splits_method hstop hx hi hs.start hstep
    | _ => exact splits_succ hx hi hstep hs.start
  | _ => exact splits_succ hx hi hstep hs.start

end Turns

/-- The members of a type with the given body, from brace to brace. -/
def scanMembers (t : TokenTable) (context : NameContext) (body : Span) : Guarded (List Member) :=
  loop body.last (memberTurn t context body.last) (fun s _ => .ok s.2) (none, []) (body.first + 1)

theorem scanMembers_eq {body : Span} (h : body.last < t.size) (context : NameContext) :
    scanMembers t context body = .ok (Member.scan t context body) := by
  refine loop_eq_ok Started (membersFrom t context body.last)
    (fun s i hs hi => proceeds_memberTurn h hs hi) ?_ ⟨Nat.succ_pos _, by simp⟩
  intro s i _ hi
  rw [membersFrom, window_of_le hi, sweep_nil, List.append_nil]

end PhpOutline.Cursor
