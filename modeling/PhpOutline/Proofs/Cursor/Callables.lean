import PhpOutline.Proofs.Cursor.Parameters

/-!
# Functions and methods, place by place

A function is read by two loops and by searches between them. The first loop goes over the modifiers
up to the word `function`; behind it the name and the parameter list are looked for. The second loop
reads the return type and the body behind the list. The cursor stays in the table when the
declaration does.

## Main definitions

* `Cursor.leadTurn`, `Cursor.naming`, `Cursor.parameterList`, `Cursor.tailTurn`: the parts in order.
* `Cursor.readCallable`: the function or method in a span.

## Main statements

* `Cursor.exists_lead`, `Cursor.follows_tailTurn`: the two loops.
* `Cursor.readCallable_eq`: what is read as a whole.
-/

namespace PhpOutline.Cursor

open TokenTable

variable {t : TokenTable} {i last : Nat}

/-! ## In front of the name -/

/-- One turn over the modifiers. The loop ends at the word `function`. -/
def leadTurn (t : TokenTable) (m : Modifiers) (i : Nat) :
    Guarded (Turn Modifiers (Modifiers × Nat)) :=
  match t.get? i with
  | none => .ok (.done (m, i))
  | some x =>
    if x.kind = .keyword .function then .ok (.done (m, i))
    else if x.kind = .attributeOpener then .ok (.goOn m (t.matchingCloseOrLast i + 1))
    else .ok (.goOn (m.apply x.kind) (i + 1))

/-- The modifiers of a declaration, and the place at which they end. -/
def lead (t : TokenTable) (span : Span) : Guarded (Modifiers × Nat) :=
  loop (span.last + 1) (leadTurn t) (fun m i => .ok (m, i)) {} span.first

theorem leadInStep_eq (l : Callable.LeadIn) (e : Entry) (es : List Entry) :
    Callable.leadInStep l e es =
      if e.kind = .keyword .function then ({ l with rest := es }, es.length)
      else if e.kind = .attributeOpener then
        (l, (groupEnd? (Entry.kinds (e :: es))).getD es.length)
      else ({ l with modifiers := l.modifiers.apply e.kind }, 0) := by
  rw [Callable.leadInStep]
  split <;> simp_all

/-- With the modifiers `m` before place `i`, all of them are `r.1`, and they end at place `r.2`. -/
def LeadsTo (t : TokenTable) (stop : Nat) (m : Modifiers) (i : Nat) (r : Modifiers × Nat) : Prop :=
  settle Callable.leadInStep ⟨m, []⟩ 0 (t.window i stop) = ⟨r.1, t.window (r.2 + 1) stop⟩

theorem exists_lead {span : Span} (h : span.last < t.size) :
    ∃ r, lead t span = .ok r ∧
      Callable.leadIn (t.within span) = ⟨r.1, t.window (r.2 + 1) (span.last + 1)⟩ := by
  refine exists_loop_eq_ok (fun _ _ => True) (LeadsTo t (span.last + 1)) ?_ ?_ trivial
  · intro m i _ hi
    obtain ⟨x, hx⟩ := exists_token (Nat.lt_of_lt_of_le hi h)
    simp only [leadTurn, hx]
    split_ifs with hword hattribute
    · rw [Proceeds, LeadsTo, settle_window hx hi (by rw [leadInStep_eq, if_pos hword]),
        window_length_add, settle_nil]
    · refine ⟨?_, trivial, ?_⟩
      · exact Nat.lt_succ_of_le (Callable.le_matchingClose? (by rw [lastIndex]; omega))
      · intro r hr
        rw [LeadsTo, settle_window hx hi (by rw [leadInStep_eq, if_neg hword, if_pos hattribute]),
          ← window_of_get? hx hi, window_group hi (d := t.lastIndex) (by rw [lastIndex]; omega)]
        exact hr
    · refine ⟨Nat.lt_succ_self i, trivial, ?_⟩
      intro r hr
      rw [LeadsTo, settle_window hx hi (by rw [leadInStep_eq, if_neg hword, if_neg hattribute])]
      exact hr
  · intro m i _ hi
    refine ⟨(m, i), rfl, ?_⟩
    rw [LeadsTo, window_of_le hi, window_of_le (Nat.le_succ_of_le hi), settle_nil]

/-- Whether an ampersand stands behind place `i`, and the place of the name. -/
def naming (t : TokenTable) (i last : Nat) : Guarded (Bool × Option Nat) := do
  match ← nextBefore t (i + 1) (last + 1) with
  | none => return (false, none)
  | some first =>
    if t.kind? first = some .ampersand then return (true, ← nextBefore t (first + 1) (last + 1))
    else return (false, some first)

theorem naming_eq (t : TokenTable) (i last : Nat) :
    naming t i last =
      .ok ((Callable.naming (t.window (i + 1) (last + 1))).1,
        (Callable.naming (t.window (i + 1) (last + 1))).2.head?.map Entry.index) := by
  rw [naming, nextBefore_eq, ok_bind, Callable.naming]
  cases hskip : Entry.skipTrivia (t.window (i + 1) (last + 1)) with
  | nil => rfl
  | cons e rest =>
    have hsuffix : e :: rest <:+ t.window (i + 1) (last + 1) := hskip ▸ Entry.skipTrivia_suffix _
    have hmem := mem_startingAt_of_mem_window (hsuffix.subset List.mem_cons_self)
    simp only [List.head?_cons, Option.map_some, kind?_index hmem, Option.some.injEq]
    split
    · rw [nextBefore_eq, ok_bind, eq_window_of_suffix hsuffix]
      rfl
    · rfl

/-! ## Behind the name -/

/-- The parentheses of the first parameter list behind place `name`. -/
def parameterList (t : TokenTable) (last name : Nat) : Guarded (Option Span) := do
  let first ← findKind t name last (.opener .paren)
  return first.map fun i => .ofBounds i (min ((t.matchingClose? i).getD last) last)

theorem groupLast_window {x : Token} (hx : t.get? i = some x) (hi : i < last + 1) :
    Callable.groupLast last (⟨x, i⟩ :: t.window (i + 1) (last + 1)) =
      min ((t.matchingClose? i).getD last) last := by
  rw [Callable.groupLast, ← window_of_get? hx hi]
  rcases groupEnd?_window_cases hi with ⟨n, hend, hclose⟩ | ⟨hend, hclose⟩
  · rw [hend, hclose]
    rfl
  · rw [hend, hclose]
    rfl

theorem parameterList_eq (h : 0 < t.size) (last name : Nat) :
    parameterList t last name =
      .ok (Callable.parameterList? last (t.window name (last + 1))) := by
  rw [parameterList, findKind_eq h, ok_bind, Callable.parameterList?, dropWhile_findKind?]
  cases hfind : t.findKind? name last (.opener .paren) with
  | none => rfl
  | some i =>
    obtain ⟨e, he, rfl⟩ := Option.map_eq_some_iff.1 hfind
    have hmem := mem_startingAt_of_mem_window (List.mem_of_find?_eq_some he)
    have hlt := (bounds_of_mem_window (List.mem_of_find?_eq_some he)).2
    rw [Option.map_some, Option.map_some, Option.getD_some, window_index hmem hlt]
    simp only [← groupLast_window (get?_index hmem) hlt]
    rfl

/-- One turn behind the parameter list of a declaration that ends at place `last`. -/
def tailTurn (t : TokenTable) (last : Nat) (d : Callable.Tail) (i : Nat) :
    Guarded (Turn Callable.Tail Callable.Tail) := do
  match t.get? i with
  | none => return .done d
  | some x =>
    if x.kind = .opener .brace then
      let close := min ((t.matchingClose? i).getD last) last
      return .done { d with body := some (.ofBounds i close) }
    else if x.kind = .semicolon then return .done d
    else if d.typeFirst.isNone then
      if x.kind = .colon then
        let first ← nextBefore t (i + 1) (last + 1)
        return .goOn { d with typeFirst := first } (i + 1)
      else return .goOn d (i + 1)
    else if x.kind = .opener .paren then
      let close := (t.matchingClose? i).getD last
      return .goOn { d with typeLast := some close } (close + 1)
    else if x.kind.isInsignificant then return .goOn d (i + 1)
    else return .goOn { d with typeLast := some i } (i + 1)

theorem follows_tailTurn (d : Callable.Tail) (hi : i < last + 1) :
    Follows (Callable.tailStep t last) t (last + 1) d i (tailTurn t last d i) := by
  rw [tailTurn]
  cases hx : t.get? i with
  | none => exact follows_behind hx
  | some x =>
    simp only
    have hstep := Callable.tailStep_eq t last d ⟨x, i⟩ (t.window (i + 1) (last + 1))
    split_ifs at hstep ⊢ with hbrace hsemicolon htype hcolon hparen hspace
    · refine follows_done hx hi (hstep.trans ?_)
      rw [groupLast_window hx hi]
    · exact follows_done hx hi hstep
    · rw [nextBefore_eq, ok_bind]
      exact follows_succ hx hi hstep
    · exact follows_succ hx hi hstep
    · have hle := @Callable.le_matchingClose? t i last (Nat.le_of_lt_succ hi)
      refine follows_goOn hx hi hstep (Nat.lt_succ_of_le hle) (congrArg (t.window · (last + 1)) ?_)
      change (t.matchingClose? i).getD last + 1 = i + 1 + ((t.matchingClose? i).getD last - i)
      omega
    · exact follows_succ hx hi hstep
    · exact follows_succ hx hi hstep

/-! ## The whole function -/

/-- The parameters in a parameter list. -/
def readParameters (t : TokenTable) (context : NameContext) (scope : Option ClassScope)
    (list : Span) : Guarded (List Parameter) := do
  let pieces ← splitTopLevel t list
  pieces.zipIdx.mapM fun (piece, position) => readParameter t context scope piece position

theorem readParameters_eq (context : NameContext) (scope : Option ClassScope) {list : Span}
    (h : list.last ≤ t.size) :
    readParameters t context scope list = .ok (Callable.readParameters t context scope list) := by
  rw [readParameters, splitTopLevel_eq h, ok_bind, Callable.readParameters,
    List.mapIdx_eq_zipIdx_map]
  exact mapM_eq_ok fun p _ => readParameter_eq t context scope p.1 p.2

/-- The function or method in a span. -/
def readCallable (t : TokenTable) (context : NameContext) (scope : Option ClassScope)
    (inInterface : Bool) (span : Span) : Guarded Callable := do
  let (modifiers, word) ← lead t span
  let (returnsReference, name) ← naming t word span.last
  let list ← match name with
    | none => pure none
    | some i => parameterList t span.last i
  let tail ← match list with
    | none => pure {}
    | some l =>
      loop (span.last + 1) (tailTurn t span.last) (fun d _ => .ok d) {} (l.last + 1)
  let parameters ← match list with
    | none => pure []
    | some l => readParameters t context scope l
  let doc ← docComment t span.first
  return {
    span
    name := (name.map t.text).getD []
    modifiers
    inInterface
    returnsReference
    parameterList := list
    parameters
    returnSpan := tail.typeSpan
    returnType := tail.typeSpan.map t.sourceOf
    bodySpan := tail.body
    body := (tail.body.map fun b => t.sourceBetween b.first b.last).getD []
    declaringClass := scope.map ClassScope.name
    lineFirst := t.line span.first
    lineLast := t.line span.last
    doc }

theorem readCallable_eq {span : Span} (h : span.last < t.size) (context : NameContext)
    (scope : Option ClassScope) (inInterface : Bool) :
    readCallable t context scope inInterface span =
      .ok (Callable.read t context scope inInterface span) := by
  obtain ⟨⟨modifiers, word⟩, hlead, hrest⟩ := exists_lead h
  have hfirst := span.ordered
  have hsuffix := Callable.naming_suffix (t.window (word + 1) (span.last + 1))
  have hwithin := Callable.rest_leadIn_suffix (t.within span)
  rw [hrest] at hwithin
  rw [readCallable, hlead, ok_bind, Callable.read, hrest]
  simp only
  rw [naming_eq, ok_bind]
  generalize Callable.naming (t.window (word + 1) (span.last + 1)) = named at hsuffix ⊢
  obtain ⟨returnsReference, named⟩ := named
  cases named with
  | nil =>
    simp only [List.head?_nil, Option.map_none]
    rw [docComment_eq (by omega)]
    rfl
  | cons e es =>
    have hmem := mem_startingAt_of_mem_window (hsuffix.subset List.mem_cons_self)
    have hwindow := window_eq_of_suffix hsuffix
    simp only [List.head?_cons, Option.map_some]
    rw [parameterList_eq (by omega), ok_bind, hwindow, text_index hmem]
    cases hlist : Callable.parameterList? span.last (e :: es) with
    | none =>
      simp only
      rw [docComment_eq (by omega)]
      rfl
    | some l =>
      have hlast : l.last ≤ span.last :=
        (Callable.inside_of_parameterList? (hsuffix.trans hwithin) hlist).2
      simp only
      rw [loop_eq_passFrom fun d _ hi => follows_tailTurn d hi, ok_bind,
        readParameters_eq context scope (by omega), ok_bind, docComment_eq (by omega)]
      rfl

end PhpOutline.Cursor
