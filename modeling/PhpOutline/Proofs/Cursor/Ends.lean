import PhpOutline.Declaration.Member
import PhpOutline.Proofs.Cursor.Searches

/-!
# Ends of members, place by place

Where a member of a type ends is found by a loop that passes over brackets. The place behind a
bracket group, or behind the body when the bracket is not closed in it, lies behind the bracket; and
the last place of a body is there, since the body has a place that is read.

## Main definitions

* `Cursor.skipGroup`: the place behind a bracket group in a body.
* `Cursor.statementEnd`, `Cursor.methodEnd`: where a statement and a method end.

## Main statements

* `Cursor.lt_skipGroup`: the cursor moves forward over a bracket group.
* `Cursor.statementEnd_eq`, `Cursor.methodEnd_eq`: the places that are found.
-/

namespace PhpOutline.Cursor

open TokenTable

variable {t : TokenTable} {i stop : Nat} {x : Token}

/-! ## Bracket groups -/

/-- The place behind the bracket group that begins at `i`, in a body that ends at place `stop`. -/
def skipGroup (t : TokenTable) (stop i : Nat) : Nat :=
  match t.matchingClose? i with
  | some c => min c stop + 1
  | none => stop

theorem lt_skipGroup (hi : i < stop) : i < skipGroup t stop i := by
  rw [skipGroup]
  split
  · rename_i c hc
    have := lt_of_matchingClose? hc
    omega
  · exact hi

theorem window_skipGroup (hi : i < stop) :
    t.window (skipGroup t stop i) stop =
      t.window (i + 1 + (groupEnd? (Entry.kinds (t.window i stop))).getD
        (t.window (i + 1) stop).length) stop := by
  rw [window_group hi (Nat.le_succ stop), skipGroup]
  cases t.matchingClose? i with
  | none => exact (window_of_le (Nat.le_refl _)).trans (window_of_le (Nat.le_succ _)).symm
  | some c =>
    simp only [Option.getD_some]
    rcases Nat.le_total c stop with hc | hc
    · rw [Nat.min_eq_left hc]
    · rw [Nat.min_eq_right hc, window_of_le (Nat.le_succ _), window_of_le (by omega)]

/-! ## Searches for an end -/

/-- The place at which the search `f` among the entries from place `i` on ends, or the last place
before `stop`. -/
def endFrom (f : List Entry → Option Nat) (t : TokenTable) (stop i : Nat) : Nat :=
  ((f (t.window i stop)).map (i + ·)).getD (stop - 1)

variable {f : List Entry → Option Nat}

theorem endFrom_of_le (hf : f [] = none) (hi : stop ≤ i) : endFrom f t stop i = stop - 1 := by
  rw [endFrom, window_of_le hi, hf]
  rfl

theorem endFrom_add {n : Nat}
    (hf : f (t.window i stop) = (f (t.window (i + 1 + n) stop)).map (· + n + 1)) :
    endFrom f t stop (i + 1 + n) = endFrom f t stop i := by
  rw [endFrom, endFrom, hf, Option.map_map]
  congr 2
  funext m
  simp only [Function.comp_apply]
  omega

theorem endFrom_succ (hf : f (t.window i stop) = (f (t.window (i + 1) stop)).map (· + 1)) :
    endFrom f t stop (i + 1) = endFrom f t stop i :=
  @endFrom_add t i stop f 0 hf

/-- A search goes on behind a bracket group. -/
theorem endFrom_skipGroup (hnil : f [] = none) (hi : i < stop)
    (hf : f (t.window i stop) = (groupEnd? (Entry.kinds (t.window i stop))).bind fun n =>
      (f (t.window (i + 1 + n) stop)).map (· + n + 1)) :
    endFrom f t stop (skipGroup t stop i) = endFrom f t stop i := by
  have hwindow := @window_skipGroup t i stop hi
  cases hend : groupEnd? (Entry.kinds (t.window i stop)) with
  | none =>
    rw [hend, Option.getD_none, window_length_add] at hwindow
    rw [hend] at hf
    rw [endFrom, endFrom, hwindow, hnil, hf]
    rfl
  | some n =>
    rw [hend] at hf
    have hskip : skipGroup t stop i = i + 1 + n := by
      rw [groupEnd?_window hi, Option.map_eq_some_iff] at hend
      obtain ⟨c, hc, rfl⟩ := hend
      obtain ⟨hc, hlt⟩ := Option.filter_eq_some_iff.1 hc
      have := lt_of_matchingClose? hc
      simp only [decide_eq_true_eq] at hlt
      simp only [skipGroup, hc]
      omega
    rw [hskip]
    exact endFrom_add hf

theorem drop_kinds_window (t : TokenTable) (i stop n : Nat) :
    (Entry.kinds (t.window i stop)).drop n = Entry.kinds (t.window (i + n) stop) := by
  rw [← drop_window, Entry.kinds, Entry.kinds, List.map_drop]

/-- Where a search passes over the group that `k` opens, it goes on behind it. -/
theorem look_passGroup {α : Type} (look : α → List α → Look) (k : Kind) (ks : List Kind)
    (s : List α) :
    (match passGroup k ks with
      | .ends n => some n
      | .passes n => (seek look n s).map (· + 1)
      | .fails => none) =
      (groupEnd? (k :: ks)).bind fun n => (seek look 0 (s.drop n)).map (· + n + 1) := by
  rw [passGroup]
  cases groupEnd? (k :: ks) with
  | none => rfl
  | some n =>
    simp only [Option.bind_some]
    rw [seek_eq_drop, Option.map_map]
    rfl

/-! ## Statements -/

theorem statementEnd?_cons (k : Kind) (ks : List Kind) :
    statementEnd? (k :: ks) =
      match k with
      | .semicolon => some 0
      | .opener .brace => groupEnd? (k :: ks)
      | .opener .paren | .opener .square | .attributeOpener =>
        (groupEnd? (k :: ks)).bind fun n => (statementEnd? (ks.drop n)).map (· + n + 1)
      | _ => (statementEnd? ks).map (· + 1) := by
  cases k with
  | opener b =>
    cases b with
    | brace =>
      rw [statementEnd?, seek]
      simp only [endWithGroup]
      cases groupEnd? (.opener .brace :: ks) <;> rfl
    | paren | square => exact look_passGroup _ _ ks ks
  | attributeOpener => exact look_passGroup _ _ ks ks
  | _ => rfl

theorem statementEnd?_window (hx : t.get? i = some x) (hi : i < stop) :
    statementEnd? (Entry.kinds (t.window i stop)) =
      match x.kind with
      | .semicolon => some 0
      | .opener .brace => groupEnd? (Entry.kinds (t.window i stop))
      | .opener .paren | .opener .square | .attributeOpener =>
        (groupEnd? (Entry.kinds (t.window i stop))).bind fun n =>
          (statementEnd? (Entry.kinds (t.window (i + 1 + n) stop))).map (· + n + 1)
      | _ => (statementEnd? (Entry.kinds (t.window (i + 1) stop))).map (· + 1) := by
  have hkinds : Entry.kinds (t.window i stop) = x.kind :: Entry.kinds (t.window (i + 1) stop) := by
    rw [window_of_get? hx hi]
    rfl
  rw [hkinds, statementEnd?_cons]
  simp only [drop_kinds_window]

/-- One turn over a statement in a body that ends at place `stop`. -/
def statementTurn (t : TokenTable) (stop : Nat) (_ : Unit) (i : Nat) : Guarded (Turn Unit Nat) := do
  match t.kind? i with
  | some .semicolon | none => return .done i
  | some (.opener .brace) =>
    let final ← back stop 1
    return .done (min ((t.matchingClose? i).getD final) final)
  | some (.opener .paren) | some (.opener .square) | some .attributeOpener =>
    return .goOn () (skipGroup t stop i)
  | _ => return .goOn () (i + 1)

/-- The place at which the statement ends that begins at place `i`: at a semicolon or with a group
in braces, or with the body. -/
def statementEnd (t : TokenTable) (stop i : Nat) : Guarded Nat :=
  loop stop (statementTurn t stop) (fun _ _ => back stop 1) () i

theorem proceeds_statementTurn (hstop : stop ≤ t.size) (hi : i < stop) :
    Proceeds (fun _ _ => True)
      (fun _ i r => r = endFrom (fun es => statementEnd? (Entry.kinds es)) t stop i) () i
      (statementTurn t stop () i) := by
  obtain ⟨x, hx⟩ := exists_token (Nat.lt_of_lt_of_le hi hstop)
  have hstep := statementEnd?_window hx hi
  rw [statementTurn, kind?_of_get? hx]
  generalize x.kind = k at hstep
  cases k with
  | semicolon =>
    change i = endFrom _ t stop i
    rw [endFrom, hstep]
    rfl
  | opener b =>
    cases b with
    | brace =>
      simp only
      rw [back_of_le (by omega), ok_bind]
      change min _ _ = endFrom _ t stop i
      rw [endFrom, hstep, groupEnd?_window hi]
      cases hclose : t.matchingClose? i with
      | none => exact Nat.min_self _
      | some c =>
        have hlt := lt_of_matchingClose? hclose
        rw [Option.filter_some]
        by_cases hc : c < stop
        · rw [if_pos (decide_eq_true hc)]
          simp only [Option.getD_some, Option.map_some]
          omega
        · rw [if_neg (by simpa using hc)]
          simp only [Option.getD_some, Option.map_none, Option.getD_none]
          omega
    | paren | square =>
      exact .goOn (lt_skipGroup hi) trivial (endFrom_skipGroup rfl hi hstep)
  | attributeOpener => exact .goOn (lt_skipGroup hi) trivial (endFrom_skipGroup rfl hi hstep)
  | _ => exact .goOn (Nat.lt_succ_self i) trivial (endFrom_succ hstep)

theorem length_window (hstop : stop ≤ t.size) (i : Nat) : (t.window i stop).length = stop - i := by
  rw [window, Entry.length_number, List.length_take, List.length_drop]
  exact Nat.min_eq_left (Nat.sub_le_sub_right hstop i)

theorem statementEnd_eq (hstop : stop ≤ t.size) (hx : t.get? i = some x) (hi : i < stop) :
    statementEnd t stop i =
      .ok (i + Member.statementLength ⟨x, i⟩ (t.window (i + 1) stop)) := by
  have hloop := @loop_eq_ok _ _ stop (statementTurn t stop) (fun _ _ => back stop 1) () i
    (fun _ _ => True) _ (fun _ _ _ hi => proceeds_statementTurn hstop hi)
    (fun _ i _ hle => (back_of_le (by omega)).trans (by rw [endFrom_of_le rfl hle])) trivial
  rw [statementEnd, hloop, endFrom, Member.statementLength, ← window_of_get? hx hi,
    length_window hstop]
  cases statementEnd? (Entry.kinds (t.window i stop)) with
  | none =>
    simp only [Option.map_none, Option.getD_none, Except.ok.injEq]
    omega
  | some n => rfl

/-! ## Methods -/

theorem methodEnd?_window (hx : t.get? i = some x) (hi : i < stop) :
    Member.methodEnd? t stop (t.window i stop) =
      match x.kind with
      | .semicolon => some 0
      | .opener .brace => (t.matchingClose? i).map fun c => min c stop - i
      | .opener .paren | .opener .square | .attributeOpener =>
        (groupEnd? (Entry.kinds (t.window i stop))).bind fun n =>
          (Member.methodEnd? t stop (t.window (i + 1 + n) stop)).map (· + n + 1)
      | _ => (Member.methodEnd? t stop (t.window (i + 1) stop)).map (· + 1) := by
  have hkinds : Entry.kinds (t.window i stop) = x.kind :: Entry.kinds (t.window (i + 1) stop) := by
    rw [window_of_get? hx hi]
    rfl
  rw [hkinds, window_of_get? hx hi, Member.methodEnd?, seek]
  simp only [← drop_window]
  generalize x.kind = k
  cases k with
  | opener b =>
    cases b with
    | brace =>
      simp only
      cases t.matchingClose? i <;> rfl
    | paren | square => exact look_passGroup _ _ _ _
  | attributeOpener => exact look_passGroup _ _ _ _
  | _ => rfl

/-- One turn behind the name of a method in a body that ends at place `stop`. -/
def methodTurn (t : TokenTable) (stop : Nat) (_ : Unit) (i : Nat) : Guarded (Turn Unit Nat) := do
  match t.kind? i with
  | some .semicolon => return .done i
  | some (.opener .brace) => return .done (← back (skipGroup t stop i) 1)
  | some (.opener .paren) | some (.opener .square) | some .attributeOpener =>
    return .goOn () (skipGroup t stop i)
  | _ => return .goOn () (i + 1)

/-- The place at which the method ends whose name stands before place `i`. -/
def methodEnd (t : TokenTable) (stop i : Nat) : Guarded Nat := do
  let final ← back stop 1
  loop stop (methodTurn t stop) (fun _ _ => .ok final) () i

theorem proceeds_methodTurn (hstop : stop ≤ t.size) (hi : i < stop) :
    Proceeds (fun _ _ => True) (fun _ i r => r = endFrom (Member.methodEnd? t stop) t stop i) () i
      (methodTurn t stop () i) := by
  obtain ⟨x, hx⟩ := exists_token (Nat.lt_of_lt_of_le hi hstop)
  have hstep := methodEnd?_window hx hi
  rw [methodTurn, kind?_of_get? hx]
  generalize x.kind = k at hstep
  cases k with
  | semicolon =>
    change i = endFrom _ t stop i
    rw [endFrom, hstep]
    rfl
  | opener b =>
    cases b with
    | brace =>
      have hskip := @lt_skipGroup t i stop hi
      simp only
      rw [back_of_le (by omega), ok_bind]
      change skipGroup t stop i - 1 = endFrom _ t stop i
      rw [endFrom, hstep, skipGroup]
      cases hclose : t.matchingClose? i with
      | none => rfl
      | some c =>
        have hlt := lt_of_matchingClose? hclose
        simp only [Option.map_some, Option.getD_some]
        omega
    | paren | square =>
      exact .goOn (lt_skipGroup hi) trivial (endFrom_skipGroup rfl hi hstep)
  | attributeOpener => exact .goOn (lt_skipGroup hi) trivial (endFrom_skipGroup rfl hi hstep)
  | _ => exact .goOn (Nat.lt_succ_self i) trivial (endFrom_succ hstep)

theorem methodEnd_eq (hstop : stop ≤ t.size) (hpos : 0 < stop) (i : Nat) :
    methodEnd t stop i =
      .ok (((Member.methodEnd? t stop (t.window i stop)).map (i + ·)).getD (stop - 1)) := by
  rw [methodEnd, back_of_le hpos, ok_bind]
  exact loop_eq_ok (fun _ _ => True) (fun _ i => endFrom (Member.methodEnd? t stop) t stop i)
    (fun _ _ _ hi => proceeds_methodTurn hstop hi)
    (fun _ i _ hle => by rw [endFrom_of_le rfl hle]) trivial

end PhpOutline.Cursor
