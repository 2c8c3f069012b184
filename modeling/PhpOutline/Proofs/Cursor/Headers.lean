import PhpOutline.Proofs.Cursor.Searches
import PhpOutline.Proofs.Discovery.Headers
import PhpOutline.Proofs.Outline.Depth

/-!
# Headers, place by place

The discovery of declarations goes over the significant tokens of a file. The end of the header of a
type, and that of a function or of a type without a name, is found by a loop from one significant
place to the next that passes over groups in parentheses.

## Main definitions

* `TokenTable.ahead`: the significant entries from a place on.
* `Cursor.headerEnd`: the brace behind the header of a type.
* `Cursor.declarationEnd`, `Cursor.skipUnnamed`: where a function and a type without a name end.

## Main statements

* `Cursor.headerEnd_eq`, `exists_declarationEnd`, `exists_skipUnnamed`: what they find.
-/

namespace PhpOutline

variable {t : TokenTable} {i j : Nat} {e : Entry} {es : List Entry}

namespace TokenTable

/-! ## From one significant place to the next -/

/-- The significant entries from a place on. -/
def ahead (t : TokenTable) (i : Nat) : List Entry := Entry.significant (t.startingAt i)

theorem ahead_append (t : TokenTable) (h : i ≤ j) :
    Entry.significant (t.window i j) ++ t.ahead j = t.ahead i := by
  rw [ahead, ahead, ← window_append_drop t i j, Entry.significant_append, drop_startingAt,
    Nat.add_sub_cancel' h]

theorem ahead_suffix (t : TokenTable) (i : Nat) : t.ahead i <:+ t.ahead 0 :=
  ⟨_, ahead_append t (Nat.zero_le i)⟩

theorem ahead_of_le (h : t.size ≤ i) : t.ahead i = [] := by
  rw [ahead, startingAt_of_le h]
  rfl

theorem ahead_lastIndex_succ (t : TokenTable) : t.ahead (t.lastIndex + 1) = [] :=
  ahead_of_le (by rw [lastIndex]; omega)

/-- An entry that stands ahead. -/
structure Ahead (t : TokenTable) (i : Nat) (e : Entry) : Prop where
  le : i ≤ e.index
  mem : e ∈ t.startingAt 0
  significant : e.kind.isInsignificant = false

theorem ahead_of_suffix (h : e :: es <:+ t.ahead i) : t.Ahead i e ∧ es = t.ahead (e.index + 1) := by
  obtain ⟨hstarting, hsig⟩ := List.mem_filter.1 (h.subset List.mem_cons_self)
  refine ⟨⟨le_of_mem_startingAt hstarting, ?_, by simpa [Entry.isSignificant_eq] using hsig⟩, ?_⟩
  · exact List.mem_of_mem_drop (startingAt_eq_drop t i ▸ hstarting)
  · exact (significant_startingAt (h.trans (ahead_suffix t i))).symm

theorem ahead_of_eq_cons (h : t.ahead i = e :: es) : t.Ahead i e ∧ es = t.ahead (e.index + 1) :=
  ahead_of_suffix (h ▸ List.suffix_rfl)

theorem Ahead.ahead_eq (h : t.Ahead i e) : t.ahead e.index = e :: t.ahead (e.index + 1) := by
  rw [ahead, startingAt_index h.mem, Entry.significant_cons_of_significant h.significant]
  rfl

theorem Ahead.get? (h : t.Ahead i e) : t.get? e.index = some e.toToken := get?_index h.mem

theorem Ahead.lt_size (h : t.Ahead i e) : e.index < t.size := by
  have := index_le_lastIndex h.mem
  omega

theorem nextSignificant?_eq_ahead (t : TokenTable) (i : Nat) :
    t.nextSignificant? i = (t.ahead i).head?.map Entry.index := by
  rw [nextSignificant?, Entry.skipTrivia, ← List.find?_not_eq_head?_dropWhile, ahead,
    Entry.significant, List.head?_filter]
  rfl

/-- Behind a group that the discovery passes over. -/
theorem ahead_behind_group (h : t.ahead i = e :: es) :
    (e :: es).drop (((groupEnd? (Entry.kinds (e :: es))).map (· + 1)).getD (e :: es).length) =
      t.ahead (t.matchingCloseOrLast e.index + 1) :=
  drop_group (h ▸ ahead_suffix t i)

end TokenTable

namespace Cursor

open TokenTable

/-- The next significant place from `i` on, with the kind of its token. -/
def significantKind (t : TokenTable) (i : Nat) : Guarded (Option (Nat × Kind)) := do
  return (← nextSignificant t i).bind fun j => (t.kind? j).map fun k => (j, k)

theorem significantKind_eq (t : TokenTable) (i : Nat) :
    significantKind t i = .ok ((t.ahead i).head?.map fun e => (e.index, e.kind)) := by
  rw [significantKind, nextSignificant_eq, ok_bind, nextSignificant?_eq_ahead]
  cases hahead : t.ahead i with
  | nil => rfl
  | cons e es =>
    rw [List.head?_cons, Option.map_some, Option.bind_some,
      kind?_index (ahead_of_eq_cons hahead).1.mem]
    rfl

/-! ## The header of a type -/

/-- One turn over the header of a type. -/
def headerTurn (t : TokenTable) (_ : Unit) (i : Nat) : Guarded (Turn Unit (Option Nat)) := do
  match ← significantKind t i with
  | none => return .done none
  | some (j, k) =>
    if k = .opener .brace then return .done (some j)
    else if k.isHeader then return .goOn () (j + 1)
    else return .done none

/-- The place of the brace behind a header, when only words of a header stand before it. -/
def headerEnd (t : TokenTable) (i : Nat) : Guarded (Option Nat) :=
  loop t.size (headerTurn t) (fun _ _ => .ok none) () i

/-- The brace behind a header. -/
def headerBrace? (es : List Entry) : Option Nat :=
  (headerEnd? (Entry.kinds es)).bind fun n => es[n]?.map Entry.index

theorem headerBrace?_cons (e : Entry) (es : List Entry) :
    headerBrace? (e :: es) =
      if e.kind = .opener .brace then some e.index
      else if e.kind.isHeader then headerBrace? es else none := by
  rw [headerBrace?, Entry.kinds, List.map_cons, headerEnd?_cons]
  split
  · rfl
  · split
    · rw [headerBrace?, Entry.kinds]
      cases headerEnd? (es.map fun e => e.kind) <;> rfl
    · rfl

theorem proceeds_headerTurn (t : TokenTable) (i : Nat) :
    Proceeds (fun _ _ => True) (fun _ i r => r = headerBrace? (t.ahead i)) () i
      (headerTurn t () i) := by
  rw [headerTurn, significantKind_eq, ok_bind]
  cases hahead : t.ahead i with
  | nil => exact (congrArg headerBrace? hahead).symm
  | cons e es =>
    obtain ⟨he, hes⟩ := ahead_of_eq_cons hahead
    have hcons := headerBrace?_cons e es
    rw [← hahead] at hcons
    simp only [List.head?_cons, Option.map_some]
    split_ifs at hcons ⊢ with hbrace hheader
    · exact hcons.symm
    · exact .goOn (Nat.lt_succ_of_le he.le) trivial (by rw [hcons, hes])
    · exact hcons.symm

theorem headerEnd_eq (t : TokenTable) (i : Nat) :
    headerEnd t i = .ok (headerBrace? (t.ahead i)) :=
  loop_eq_ok (fun _ _ => True) (fun _ i => headerBrace? (t.ahead i))
    (fun _ i _ _ => proceeds_headerTurn t i)
    (fun _ i _ hi => by rw [ahead_of_le hi]; rfl) trivial

/-! ## Behind a declaration -/

/-- What is left behind a declaration. -/
def behindDeclaration (es : List Entry) : List Entry :=
  es.drop (((declarationEnd? (Entry.kinds es)).map (· + 1)).getD es.length)

/-- In front of place `j` stands a token that is not the word `new`, unless nothing is ahead. -/
def Lands (t : TokenTable) (j : Nat) : Prop :=
  t.ahead j = [] ∨ (t.prevSignificant? j).bind t.kind? ≠ some (.keyword .new)

theorem prevSignificant?_succ {x : Token} (hx : t.get? i = some x)
    (hsig : x.kind.isInsignificant = false) : t.prevSignificant? (i + 1) = some i := by
  rw [prevSignificant?, window_succ hx (Nat.zero_le i), Entry.significant_append,
    Entry.significant_cons_of_significant hsig, List.getLast?_append]
  rfl

theorem lands_succ {x : Token} (hx : t.get? i = some x) (hsig : x.kind.isInsignificant = false)
    (hnew : x.kind ≠ .keyword .new) : Lands t (i + 1) := by
  refine .inr ?_
  rw [prevSignificant?_succ hx hsig, Option.bind_some, kind?_of_get? hx]
  simpa using hnew

theorem lands_lastIndex_succ (t : TokenTable) : Lands t (t.lastIndex + 1) :=
  .inl (ahead_lastIndex_succ t)

/-- Behind a bracket group stands no `new`. -/
theorem lands_group (t : TokenTable) (i : Nat) : Lands t (t.matchingCloseOrLast i + 1) := by
  rw [matchingCloseOrLast]
  cases hclose : t.matchingClose? i with
  | none => exact lands_lastIndex_succ t
  | some c =>
    obtain ⟨b, henc⟩ := matchingClose?_iff_encloses.1 hclose
    obtain ⟨x, hx, hkind⟩ := get?_of_kind? henc.closes
    exact lands_succ hx (by rw [hkind]; rfl) (by rw [hkind]; simp)

/-- Where a search passes over some entries, the declaration ends behind them. -/
def PassesOver (n : Nat) (e : Entry) (es : List Entry) : Prop :=
  declarationEnd? (Entry.kinds (e :: es)) =
    (declarationEnd? (Entry.kinds (es.drop n))).map (· + n + 1)

theorem passesOver_paren (he : e.kind = .opener .paren) (es : List Entry) :
    PassesOver ((groupEnd? (Entry.kinds (e :: es))).getD es.length) e es := by
  have hcons := declarationEnd?_cons e.kind (Entry.kinds es)
  rw [he, if_neg (by simp), if_neg (by simp), if_pos rfl, ← he] at hcons
  refine Eq.trans hcons ?_
  change (groupEnd? (Entry.kinds (e :: es))).bind _ = _
  cases groupEnd? (Entry.kinds (e :: es)) with
  | some n =>
    rw [Option.bind_some, Option.getD_some, Entry.kinds, Entry.kinds, List.map_drop]
  | none =>
    rw [Option.getD_none, List.drop_length]
    rfl

theorem passesOver_succ (hsemicolon : e.kind ≠ .semicolon) (hbrace : e.kind ≠ .opener .brace)
    (hparen : e.kind ≠ .opener .paren) (es : List Entry) : PassesOver 0 e es := by
  rw [PassesOver, Entry.kinds, List.map_cons, declarationEnd?_cons, if_neg hsemicolon,
    if_neg hbrace, if_neg hparen]
  rfl

theorem PassesOver.behindDeclaration_eq {n : Nat} (h : PassesOver n e es) :
    behindDeclaration (e :: es) = behindDeclaration (es.drop n) := by
  rw [behindDeclaration, behindDeclaration, h]
  cases declarationEnd? (Entry.kinds (es.drop n)) with
  | none =>
    rw [Option.map_none, Option.map_none, Option.getD_none, Option.getD_none, List.drop_length,
      List.drop_length]
  | some m =>
    rw [Option.map_some, Option.map_some, Option.map_some, Option.getD_some, Option.getD_some,
      List.drop_succ_cons, List.drop_drop]
    congr 1
    omega

theorem PassesOver.lastPlace_eq {n : Nat} (h : PassesOver n e es) (last : Nat) :
    Event.lastPlace last (e :: es) (declarationEnd? (Entry.kinds (e :: es))) =
      Event.lastPlace last (es.drop n) (declarationEnd? (Entry.kinds (es.drop n))) := by
  rw [h, Event.lastPlace, Event.lastPlace]
  cases declarationEnd? (Entry.kinds (es.drop n)) with
  | none => rfl
  | some m =>
    simp only [Option.map_some, Option.bind_some, List.getElem?_cons_succ, List.getElem?_drop,
      Nat.add_comm n m]

/-- The discovery goes on at place `r` behind a declaration whose end is looked for from place `i`
on. -/
structure Skipped (t : TokenTable) (i r : Nat) : Prop where
  rest : t.ahead r = behindDeclaration (t.ahead i)
  lands : Lands t r

/-- The declaration ends at place `r`. -/
structure EndsAt (t : TokenTable) (i r : Nat) : Prop extends Skipped t i (r + 1) where
  place : r = Event.lastPlace t.lastIndex (t.ahead i) (declarationEnd? (Entry.kinds (t.ahead i)))

theorem skipped_nil (hahead : t.ahead i = []) (hj : t.ahead j = []) : Skipped t i j :=
  ⟨by rw [hj, hahead]; rfl, .inl hj⟩

theorem endsAt_lastIndex (hahead : t.ahead i = []) : EndsAt t i t.lastIndex :=
  ⟨skipped_nil hahead (ahead_lastIndex_succ t), by rw [hahead]; rfl⟩

theorem endsAt_semicolon (hahead : t.ahead i = e :: es) (he : e.kind = .semicolon) :
    EndsAt t i e.index := by
  obtain ⟨hmem, hes⟩ := ahead_of_eq_cons hahead
  have hend : declarationEnd? (Entry.kinds (e :: es)) = some 0 := by
    rw [Entry.kinds, List.map_cons, declarationEnd?_cons, if_pos he]
  refine ⟨⟨?_, lands_succ hmem.get? hmem.significant (by simp [he])⟩, ?_⟩
  · rw [hahead, behindDeclaration, hend, hes]
    rfl
  · rw [hahead, hend]
    rfl

theorem endsAt_brace (hahead : t.ahead i = e :: es) (he : e.kind = .opener .brace) :
    EndsAt t i (t.matchingCloseOrLast e.index) := by
  have hend : declarationEnd? (Entry.kinds (e :: es)) = groupEnd? (Entry.kinds (e :: es)) := by
    rw [Entry.kinds, List.map_cons, declarationEnd?_cons, if_neg (by simp [he]), if_pos he]
  refine ⟨⟨?_, lands_group t e.index⟩, ?_⟩
  · rw [hahead, behindDeclaration, hend]
    exact (ahead_behind_group hahead).symm
  · rw [hahead, hend]
    exact (lastPlace_group (hahead ▸ ahead_suffix t i)).symm

/-- Behind the entries that a search passes over, the same is left of the table. -/
theorem PassesOver.skipped {n r : Nat} (hpass : PassesOver n e es) (hahead : t.ahead i = e :: es)
    (hdrop : t.ahead j = es.drop n) (h : Skipped t j r) : Skipped t i r :=
  ⟨by rw [h.rest, hdrop, hahead, hpass.behindDeclaration_eq], h.lands⟩

theorem PassesOver.endsAt {n r : Nat} (hpass : PassesOver n e es) (hahead : t.ahead i = e :: es)
    (hdrop : t.ahead j = es.drop n) (h : EndsAt t j r) : EndsAt t i r :=
  ⟨hpass.skipped hahead hdrop h.toSkipped, by rw [h.place, hdrop, hahead, hpass.lastPlace_eq]⟩

/-- Behind a group, as the search for the end of a declaration counts. -/
theorem ahead_group_eq_drop (hahead : t.ahead i = e :: es) :
    t.ahead (t.matchingCloseOrLast e.index + 1) =
      es.drop ((groupEnd? (Entry.kinds (e :: es))).getD es.length) := by
  rw [← ahead_behind_group hahead]
  cases groupEnd? (Entry.kinds (e :: es)) <;> rfl

/-! ## The end of a function -/

/-- One turn over a function, in search of its end. -/
def endTurn (t : TokenTable) (_ : Unit) (i : Nat) : Guarded (Turn Unit Nat) := do
  match ← significantKind t i with
  | none => return .done t.lastIndex
  | some (j, k) =>
    if k = .opener .brace then return .done (t.matchingCloseOrLast j)
    else if k = .semicolon then return .done j
    else if k = .opener .paren then return .goOn () (t.matchingCloseOrLast j + 1)
    else return .goOn () (j + 1)

/-- The last place of a function, in search from place `i` on. -/
def declarationEnd (t : TokenTable) (i : Nat) : Guarded Nat :=
  loop t.size (endTurn t) (fun _ _ => .ok t.lastIndex) () i

theorem exists_declarationEnd (t : TokenTable) (i : Nat) :
    ∃ r, declarationEnd t i = .ok r ∧ (i ≤ r ∨ r = t.lastIndex) ∧ EndsAt t i r := by
  refine exists_loop_eq_ok (fun _ _ => True)
    (fun _ i r => (i ≤ r ∨ r = t.lastIndex) ∧ EndsAt t i r) ?_ ?_ trivial
  · intro _ i _ _
    rw [endTurn, significantKind_eq, ok_bind]
    cases hahead : t.ahead i with
    | nil => exact ⟨.inr rfl, endsAt_lastIndex hahead⟩
    | cons e es =>
      obtain ⟨he, hes⟩ := ahead_of_eq_cons hahead
      have hclose := le_matchingCloseOrLast he.mem
      have hle := he.le
      simp only [List.head?_cons, Option.map_some]
      split_ifs with hbrace hsemicolon hparen
      · exact ⟨by omega, endsAt_brace hahead hbrace⟩
      · exact ⟨by omega, endsAt_semicolon hahead hsemicolon⟩
      · exact ⟨by omega, trivial, fun r hr => ⟨by omega,
          (passesOver_paren hparen es).endsAt hahead (ahead_group_eq_drop hahead) hr.2⟩⟩
      · exact ⟨by omega, trivial, fun r hr => ⟨by omega,
          (passesOver_succ hsemicolon hbrace hparen es).endsAt hahead hes.symm hr.2⟩⟩
  · intro _ i _ hi
    exact ⟨t.lastIndex, rfl, .inr rfl, endsAt_lastIndex (ahead_of_le hi)⟩

/-! ## The end of a type without a name -/

/-- One turn over a type without a name. -/
def skipTurn (t : TokenTable) (_ : Unit) (i : Nat) : Guarded (Turn Unit Nat) := do
  match ← significantKind t i with
  | none => return .done i
  | some (j, k) =>
    if k = .opener .paren then return .goOn () (t.matchingCloseOrLast j + 1)
    else if k = .opener .brace then return .done (t.matchingCloseOrLast j + 1)
    else if k = .semicolon then return .done (j + 1)
    else return .goOn () (j + 1)

/-- The place behind a type without a name whose keyword stands before place `i`. -/
def skipUnnamed (t : TokenTable) (i : Nat) : Guarded Nat :=
  loop t.size (skipTurn t) (fun _ i => .ok i) () i

theorem exists_skipUnnamed (t : TokenTable) (i : Nat) :
    ∃ r, skipUnnamed t i = .ok r ∧ i ≤ r ∧ Skipped t i r := by
  refine exists_loop_eq_ok (fun _ _ => True) (fun _ i r => i ≤ r ∧ Skipped t i r) ?_ ?_ trivial
  · intro _ i _ _
    rw [skipTurn, significantKind_eq, ok_bind]
    cases hahead : t.ahead i with
    | nil => exact ⟨Nat.le_refl i, skipped_nil hahead hahead⟩
    | cons e es =>
      obtain ⟨he, hes⟩ := ahead_of_eq_cons hahead
      have hclose := le_matchingCloseOrLast he.mem
      have hle := he.le
      simp only [List.head?_cons, Option.map_some]
      split_ifs with hparen hbrace hsemicolon
      · exact ⟨by omega, trivial, fun r hr => ⟨by omega,
          (passesOver_paren hparen es).skipped hahead (ahead_group_eq_drop hahead) hr.2⟩⟩
      · exact ⟨by omega, (endsAt_brace hahead hbrace).toSkipped⟩
      · exact ⟨by omega, (endsAt_semicolon hahead hsemicolon).toSkipped⟩
      · exact ⟨by omega, trivial, fun r hr => ⟨by omega,
          (passesOver_succ hsemicolon hbrace hparen es).skipped hahead hes.symm hr.2⟩⟩
  · intro _ i _ hi
    exact ⟨i, rfl, Nat.le_refl i, skipped_nil (ahead_of_le hi) (ahead_of_le hi)⟩

end Cursor

end PhpOutline
