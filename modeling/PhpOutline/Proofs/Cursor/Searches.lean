import PhpOutline.Proofs.Cursor.Loop
import PhpOutline.Proofs.Declaration.Parts
import PhpOutline.Proofs.TokenTable.DocComments
import PhpOutline.Proofs.TokenTable.Passes
import PhpOutline.Proofs.TokenTable.Significant

/-!
# Searches that keep a cursor

The searches of a token table, from place to place. Each asks for the tokens themselves and so has
to stay in the table. They find what the searches on the entries of the table find.

## Main definitions

* `Cursor.tokenAt`: the token at a place that the table has to have.
* `Cursor.nextSignificant`, `prevSignificant`, `findKind`: the searches forwards and backwards.
* `Cursor.splitTopLevel`: the pieces of a comma-separated list.
* `Cursor.docComment`: the doc comment that belongs to a place.

## Main statements

* `Cursor.nextSignificant_eq`, `prevSignificant_eq`, `findKind_eq`, `splitTopLevel_eq`,
  `docComment_eq`: each of them has a result, and the same one.
-/

namespace PhpOutline

variable {t : TokenTable} {i j stop : Nat} {x : Token}

namespace Cursor

open TokenTable

/-- The token at a place that the table has to have. -/
def tokenAt (t : TokenTable) (i : Nat) : Guarded Token :=
  match t.get? i with
  | some x => .ok x
  | none => .error .outOfRange

theorem tokenAt_eq (hx : t.get? i = some x) : tokenAt t i = .ok x := by
  rw [tokenAt, hx]

/-! ## Forwards -/

/-- The first place from `i` on and before `stop` with a token of a kind in `p`. -/
def findFrom (t : TokenTable) (p : Kind → Bool) (stop i : Nat) : Guarded (Option Nat) :=
  loop stop
    (fun _ i => do
      let x ← tokenAt t i
      if p x.kind then return .done (some i) else return .goOn () (i + 1))
    (fun _ _ => .ok none) () i

theorem findFrom_eq (p : Kind → Bool) (hstop : stop ≤ t.size) (i : Nat) :
    findFrom t p stop i = .ok (((t.window i stop).find? fun e => p e.kind).map Entry.index) := by
  refine loop_eq_ok (fun _ _ => True)
    (fun _ i => ((t.window i stop).find? fun e => p e.kind).map Entry.index) ?_ ?_ trivial
  · intro _ i _ hi
    obtain ⟨x, hx⟩ := exists_token (Nat.lt_of_lt_of_le hi hstop)
    have hwindow := window_of_get? hx hi
    rw [tokenAt_eq hx, ok_bind]
    split
    · rename_i hp
      simp [Proceeds, hwindow, hp]
    · rename_i hp
      refine .goOn (Nat.lt_succ_self i) trivial ?_
      simp [hwindow, hp]
  · intro _ i _ hi
    rw [window_of_le hi]
    rfl

/-- The first significant place at or behind `i`. -/
def nextSignificant (t : TokenTable) (i : Nat) : Guarded (Option Nat) :=
  findFrom t (fun k => !k.isInsignificant) t.size i

theorem nextSignificant_eq (t : TokenTable) (i : Nat) :
    nextSignificant t i = .ok (t.nextSignificant? i) := by
  rw [nextSignificant, findFrom_eq _ (Nat.le_refl _),
    window_of_size_le (Nat.le_refl _), List.find?_not_eq_head?_dropWhile]
  rfl

/-- The first place of a kind from `first` through `last`, or through the end of the table. -/
def findKind (t : TokenTable) (first last : Nat) (k : Kind) : Guarded (Option Nat) :=
  findFrom t (· == k) (min last (t.size - 1) + 1) first

theorem findKind_eq (h : 0 < t.size) (first last : Nat) (k : Kind) :
    findKind t first last k = .ok (t.findKind? first last k) := by
  have hstop : min last (t.size - 1) + 1 = min (last + 1) t.size := by omega
  rw [findKind, hstop, findFrom_eq _ (Nat.min_le_right _ _), window_min_size]
  rfl

/-! ## Backwards -/

/-- The last place before `i` with a token of a kind in `p`. -/
def findBelow (t : TokenTable) (p : Kind → Bool) : (i : Nat) → Guarded (Option Nat)
  | 0 => .ok none
  | i + 1 => do
    let x ← tokenAt t i
    if p x.kind then return some i else findBelow t p i

theorem findBelow_eq (p : Kind → Bool) (hi : i ≤ t.size) :
    findBelow t p i =
      .ok (((t.window 0 i).filter fun e => p e.kind).getLast?.map Entry.index) := by
  induction i with
  | zero => rfl
  | succ i ih =>
    obtain ⟨x, hx⟩ := exists_token hi
    rw [findBelow, tokenAt_eq hx, ok_bind, window_succ hx (Nat.zero_le i), List.filter_append]
    split
    · rename_i hp
      simp [hp]
    · rename_i hp
      rw [ih (Nat.le_of_succ_le hi)]
      simp [hp]

/-- The last significant place before `i`. -/
def prevSignificant (t : TokenTable) (i : Nat) : Guarded (Option Nat) :=
  findBelow t (fun k => !k.isInsignificant) (min i t.size)

theorem prevSignificant_eq (t : TokenTable) (i : Nat) :
    prevSignificant t i = .ok (t.prevSignificant? i) := by
  rw [prevSignificant, findBelow_eq _ (Nat.min_le_right _ _), window_min_size]
  rfl

/-! ## Pieces of a list -/

/-- The first significant place from `i` on and before `stop`. -/
def nextBefore (t : TokenTable) (i stop : Nat) : Guarded (Option Nat) := do
  return (← nextSignificant t i).filter (· < stop)

theorem nextBefore_eq (t : TokenTable) (i stop : Nat) :
    nextBefore t i stop = .ok ((Entry.skipTrivia (t.window i stop)).head?.map Entry.index) := by
  rw [nextBefore, nextSignificant_eq, ok_bind, filter_nextSignificant?]
  rfl

/-- The span of the significant places from `first` on and before `stop`. -/
def trim (t : TokenTable) (first stop : Nat) : Guarded (Option Span) := do
  match ← nextBefore t first stop with
  | none => return none
  | some a => return ((← prevSignificant t stop).filter (a ≤ ·)).map (.ofBounds a)

theorem trim_eq (t : TokenTable) (first stop : Nat) :
    trim t first stop = .ok (Entry.extent? (Entry.significant (t.window first stop))) := by
  rw [trim, nextBefore_eq, ok_bind, ← Entry.significant_skipTrivia]
  cases hskip : Entry.skipTrivia (t.window first stop) with
  | nil => rfl
  | cons a rest =>
    have hwindow := window_eq_of_suffix (hskip ▸ Entry.skipTrivia_suffix (t.window first stop))
    have ha : a.kind.isInsignificant = false := by
      have hhead := List.head?_dropWhile_not (fun e : Entry => e.kind.isInsignificant)
        (t.window first stop)
      rw [← Entry.skipTrivia, hskip] at hhead
      simpa using hhead
    rw [List.head?_cons, Option.map_some]
    simp only
    rw [prevSignificant_eq, ok_bind, filter_prevSignificant?, hwindow, Entry.extent?,
      Entry.significant_cons_of_significant ha, List.head?_cons]
    cases (a :: Entry.significant rest).getLast? <;> rfl

/-- What has been cut off a list. -/
structure Cut where
  /-- The number of brackets that are open. -/
  depth : Nat := 0
  /-- Where the piece begins that is being read. -/
  first : Nat
  pieces : List Span := []
deriving DecidableEq, Repr

/-- One turn over a list. A comma outside of all brackets ends a piece. -/
def splitTurn (t : TokenTable) (c : Cut) (i : Nat) : Guarded (Turn Cut (List Span)) := do
  let x ← tokenAt t i
  if x.kind = .comma ∧ c.depth = 0 then
    let piece ← trim t c.first i
    return .goOn { c with first := i + 1, pieces := c.pieces ++ piece.toList } (i + 1)
  else return .goOn { c with depth := depthAfter c.depth x.kind } (i + 1)

/-- The pieces between top-level commas strictly inside a span. -/
def splitTopLevel (t : TokenTable) (s : Span) : Guarded (List Span) :=
  loop s.last (splitTurn t)
    (fun c _ => do
      let piece ← trim t c.first s.last
      return c.pieces ++ piece.toList)
    { first := s.first + 1 } (s.first + 1)

/-- The first of some parts begins with what has been read of it. -/
def resumeFirst (front : List Entry) : List (List Entry) → List (List Entry)
  | [] => []
  | g :: gs => (front ++ g) :: gs

/-- The pieces of a list that has been cut up to place `i`. -/
def Cut.all (t : TokenTable) (stop : Nat) (c : Cut) (i : Nat) : List Span :=
  c.pieces ++ (resumeFirst (t.window c.first (min i stop))
    (Entry.splitCommas c.depth (t.window i stop))).filterMap fun g =>
      Entry.extent? (Entry.significant g)

theorem filterMap_cons_toList {α β : Type} (f : α → Option β) (a : α) (l : List α) :
    (a :: l).filterMap f = (f a).toList ++ l.filterMap f := by
  cases h : f a <;> simp [h]

theorem proceeds_splitTurn {c : Cut} (hstop : stop ≤ t.size) (hc : c.first ≤ i) (hi : i < stop) :
    Proceeds (fun c i => c.first ≤ i) (fun c i r => r = c.all t stop i) c i (splitTurn t c i) := by
  obtain ⟨x, hx⟩ := exists_token (Nat.lt_of_lt_of_le hi hstop)
  have hmin : min i stop = i := Nat.min_eq_left (Nat.le_of_lt hi)
  have hmin' : min (i + 1) stop = i + 1 := Nat.min_eq_left hi
  rw [splitTurn, tokenAt_eq hx, ok_bind]
  split
  · rename_i hcomma
    rw [trim_eq, ok_bind]
    refine .goOn (Nat.lt_succ_self i) (Nat.le_refl _) ?_
    obtain ⟨g, gs, hparts⟩ :=
      List.exists_cons_of_ne_nil (Entry.splitCommas_ne_nil 0 (t.window (i + 1) stop))
    rw [Cut.all, Cut.all, hmin, hmin', window_of_get? hx hi, window_self, hcomma.2,
      Entry.splitCommas_cons_comma hcomma.1, hparts, resumeFirst, resumeFirst, List.nil_append,
      List.append_nil, filterMap_cons_toList _ (t.window c.first i), List.append_assoc]
  · rename_i hcomma
    refine .goOn (Nat.lt_succ_self i) (Nat.le_succ_of_le hc) ?_
    obtain ⟨g, gs, hparts, hall⟩ :=
      @Entry.splitCommas_cons ⟨x, i⟩ c.depth hcomma (t.window (i + 1) stop)
    rw [Cut.all, Cut.all, hmin, hmin', window_of_get? hx hi, hall, hparts, window_succ hx hc,
      resumeFirst, resumeFirst, List.append_assoc, List.singleton_append]

theorem splitTopLevel_eq {s : Span} (h : s.last ≤ t.size) :
    splitTopLevel t s = .ok (t.splitTopLevel s) := by
  have hloop := @loop_eq_ok _ _ s.last (splitTurn t)
    (fun c _ => do
      let piece ← trim t c.first s.last
      return c.pieces ++ piece.toList)
    { first := s.first + 1 } (s.first + 1) (fun c i => c.first ≤ i) (Cut.all t s.last)
    (fun c i hc hi => proceeds_splitTurn h hc hi) ?_ (Nat.le_refl _)
  · rw [splitTopLevel, hloop]
    obtain ⟨g, gs, hparts⟩ :=
      List.exists_cons_of_ne_nil (Entry.splitCommas_ne_nil 0 (t.window (s.first + 1) s.last))
    have hfront : t.window (s.first + 1) (min (s.first + 1) s.last) = [] :=
      window_of_le (Nat.min_le_left _ _)
    simp only [Cut.all, TokenTable.splitTopLevel, Entry.pieces, hparts, hfront, resumeFirst,
      List.nil_append]
  · intro c i _ hi
    rw [trim_eq, ok_bind, Cut.all, Nat.min_eq_right hi, window_of_le hi, Entry.splitCommas,
      resumeFirst, List.append_nil, filterMap_cons_toList, List.filterMap_nil, List.append_nil]
    rfl

/-! ## Doc comments -/

/-- The opener of an attribute group among the places before `i`, when `depth` square brackets are
to be opened there. -/
def attributeStartFrom (t : TokenTable) : (depth i : Nat) → Guarded (Option Nat)
  | _, 0 => .ok none
  | depth, i + 1 => do
    let x ← tokenAt t i
    if x.kind.closes = some .square then attributeStartFrom t (depth + 1) i
    else if x.kind.opens = some .square then
      let depth ← back depth 1
      if depth = 0 then return if x.kind = .attributeOpener then some i else none
      else attributeStartFrom t depth i
    else attributeStartFrom t depth i

theorem attributeStartFrom_eq {depth : Nat} (hdepth : 0 < depth) (hi : i ≤ t.size) :
    attributeStartFrom t depth i =
      .ok ((attributeOffset? depth ((t.tokens.take i).reverse.map Token.kind)).map
        (i - 1 - ·)) := by
  induction i generalizing depth with
  | zero => rfl
  | succ i ih =>
    obtain ⟨x, hx⟩ := exists_token hi
    have hshift : ∀ r : Option Nat, (r.map (· + 1)).map (i + 1 - 1 - ·) = r.map (i - 1 - ·) := by
      intro r
      rw [Option.map_map]
      congr 1
      funext n
      simp only [Function.comp_apply]
      omega
    rw [attributeStartFrom, tokenAt_eq hx, ok_bind, reverse_take_succ hx, List.map_cons,
      attributeOffset?]
    split
    · rw [ih (Nat.succ_pos depth) (Nat.le_of_succ_le hi), hshift]
    · split
      · rw [back_of_le hdepth, ok_bind]
        by_cases hone : depth ≤ 1
        · rw [if_pos (by omega), if_pos hone]
          split <;> rfl
        · rw [if_neg (by omega), if_neg hone, ih (by omega) (Nat.le_of_succ_le hi), hshift]
      · rw [ih hdepth (Nat.le_of_succ_le hi), hshift]

/-- The opener of the attribute group that the bracket at place `c` closes. -/
def attributeStart (t : TokenTable) (c : Nat) : Guarded (Option Nat) :=
  attributeStartFrom t 0 (c + 1)

theorem attributeStart_eq {c : Nat} (hc : t.kind? c = some (.closer .square)) :
    attributeStart t c = .ok (t.attributeStart? c) := by
  obtain ⟨x, hx, hkind⟩ := get?_of_kind? hc
  have hcloses : (Kind.closer .square).closes = some .square := rfl
  rw [attributeStart, attributeStartFrom, tokenAt_eq hx, ok_bind, hkind, if_pos hcloses,
    attributeStartFrom_eq Nat.one_pos (Nat.le_of_lt (lt_size_of_kind? hc)), attributeStart?,
    kindsBack, reverse_take_succ hx, List.map_cons, hkind, attributeOffset?, if_pos hcloses,
    Option.map_map]
  congr 2
  funext n
  simp only [Function.comp_apply]
  omega

/-- The doc comment that belongs to the declaration at place `i`. -/
def docComment (t : TokenTable) : (i : Nat) → Guarded (Option Text)
  | 0 => .ok none
  | i + 1 => do
    let x ← tokenAt t i
    match x.kind with
    | .docComment => return some x.text
    | .whitespace | .comment => docComment t i
    | .closer .square =>
      match ← attributeStart t i with
      | none => return none
      | some o => if o ≤ i then docComment t o else .error .stalled
    | _ => return none

theorem docComment_eq (hi : i ≤ t.size) : docComment t i = .ok (t.docComment? i) := by
  induction i using Nat.strong_induction_on with
  | _ i ih =>
    cases i with
    | zero => rw [docComment]; rfl
    | succ i =>
      obtain ⟨x, hx⟩ := exists_token hi
      have hkind := kind?_of_get? hx
      have hrest := ih i (Nat.lt_succ_self i) (Nat.le_of_succ_le hi)
      rw [docComment, tokenAt_eq hx, ok_bind, docComment?_succ hx]
      generalize x.kind = k at hkind
      cases k with
      | docComment => rfl
      | whitespace | comment => exact hrest
      | closer b =>
        cases b with
        | square =>
          simp only
          rw [attributeStart_eq hkind, ok_bind]
          cases hstart : t.attributeStart? i with
          | none => rfl
          | some o =>
            obtain ⟨ho, hclose⟩ := (attributeStart?_eq_some_iff hkind).1 hstart
            have hlt := (kind?_of_matchingClose?_attribute ho hclose).1
            simp only [if_pos (Nat.le_of_lt hlt), Option.bind_some]
            exact ih o (by omega) (by omega)
        | brace | paren => rfl
      | _ => rfl

/-! ## Turns that follow a pass -/

section Passes

variable {σ : Type} {step : σ → Entry → List Entry → σ × Nat} {s s' : σ} {n : Nat}

/-- The state in which a pass over the entries from place `i` on ends. -/
def passFrom (step : σ → Entry → List Entry → σ × Nat) (t : TokenTable) (stop : Nat) (s : σ)
    (i : Nat) : σ :=
  settle step s 0 (t.window i stop)

/-- A turn that does what a step of a pass does. -/
abbrev Follows (step : σ → Entry → List Entry → σ × Nat) (t : TokenTable) (stop : Nat) (s : σ)
    (i : Nat) : Guarded (Turn σ σ) → Prop :=
  Proceeds (fun _ _ => True) (fun s i r => r = passFrom step t stop s i) s i

/-- The turn goes on where the window goes on behind what the step claims. -/
theorem follows_goOn (hx : t.get? i = some x) (hi : i < stop)
    (hstep : step s ⟨x, i⟩ (t.window (i + 1) stop) = (s', n)) (hj : i < j)
    (hwindow : t.window j stop = t.window (i + 1 + n) stop) :
    Follows step t stop s i (.ok (.goOn s' j)) := by
  refine .goOn hj trivial ?_
  rw [passFrom, passFrom, settle_window hx hi hstep, hwindow]

theorem follows_succ (hx : t.get? i = some x) (hi : i < stop)
    (hstep : step s ⟨x, i⟩ (t.window (i + 1) stop) = (s', 0)) :
    Follows step t stop s i (.ok (.goOn s' (i + 1))) :=
  follows_goOn hx hi hstep (Nat.lt_succ_self i) rfl

/-- The turn passes over a bracket group. -/
theorem follows_group (hx : t.get? i = some x) (hi : i < stop) {d : Nat} (hd : stop ≤ d + 1)
    (hstep : step s ⟨x, i⟩ (t.window (i + 1) stop) =
      (s', (groupEnd? (Entry.kinds (⟨x, i⟩ :: t.window (i + 1) stop))).getD
        (t.window (i + 1) stop).length)) :
    Follows step t stop s i (.ok (.goOn s' ((t.matchingClose? i).getD d + 1))) := by
  have hle : i ≤ (t.matchingClose? i).getD d := Callable.le_matchingClose? (by omega)
  rw [← window_of_get? hx hi] at hstep
  exact follows_goOn hx hi hstep (Nat.lt_succ_of_le hle) (window_group hi hd).symm

/-- The turn ends a loop where the step claims all that is left. -/
theorem follows_done (hx : t.get? i = some x) (hi : i < stop)
    (hstep : step s ⟨x, i⟩ (t.window (i + 1) stop) = (s', (t.window (i + 1) stop).length)) :
    Follows step t stop s i (.ok (.done s')) := by
  change s' = passFrom step t stop s i
  rw [passFrom, settle_window hx hi hstep, window_length_add, settle_nil]

/-- The turn ends a loop behind the table. -/
theorem follows_behind (hx : t.get? i = none) : Follows step t stop s i (.ok (.done s)) := by
  change s = passFrom step t stop s i
  rw [passFrom, window_of_get?_eq_none hx, settle_nil]

/-- A loop of such turns does what the pass does. -/
theorem loop_eq_passFrom {turn : σ → Nat → Guarded (Turn σ σ)}
    (h : ∀ s i, i < stop → Follows step t stop s i (turn s i)) (s : σ) (i : Nat) :
    loop stop turn (fun s _ => .ok s) s i = .ok (settle step s 0 (t.window i stop)) := by
  refine loop_eq_ok (fun _ _ => True) (passFrom step t stop) (fun s i _ => h s i) ?_ trivial
  intro s i _ hi
  rw [passFrom, window_of_le hi, settle_nil]

end Passes

end Cursor

end PhpOutline
