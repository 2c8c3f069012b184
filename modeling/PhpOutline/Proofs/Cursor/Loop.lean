/-!
# Loops that keep a cursor

A reader can also go from place to place: it keeps a cursor, asks for the token that stands there,
and moves on. Nothing in the shape of such a reader says that it comes to an end or stays in its
table. Here a reader has no result where it asks for a token that the table does not have, lowers a
number below zero, or goes on at a place that is not behind the one it has read.

## Main definitions

* `Breach`: what goes wrong in a reader, and `Guarded`, its result.
* `Cursor.back`: the place some places before another one.
* `Cursor.loop`: turns at one place after the other, and `Cursor.Runs`: the turns of a loop.

## Main statements

* `Cursor.loop_eq_ok_iff`: a loop has a result when every turn moves the cursor forward until one
  ends the loop.
* `Cursor.exists_loop_eq_ok`, `Cursor.loop_eq_ok`: the result of a loop, out of what one turn does.
-/

namespace PhpOutline

/-- What goes wrong in a reader that keeps a cursor. -/
inductive Breach where
  /-- A token is asked for at a place that the table does not have. -/
  | outOfRange
  /-- A place or a counter is lowered below zero. -/
  | belowZero
  /-- A loop goes on at a place that is not behind the one that it has read. -/
  | stalled
deriving DecidableEq, Repr

/-- The result of a reader that keeps a cursor. -/
abbrev Guarded (α : Type) := Except Breach α

namespace Cursor

/-- How a turn of a loop ends. -/
inductive Turn (σ ρ : Type) where
  /-- The loop goes on at another place. -/
  | goOn (state : σ) (cursor : Nat)
  | done (result : ρ)
deriving DecidableEq, Repr

variable {α β σ ρ : Type}

/-- The place `n` places before `i`. -/
def back (i n : Nat) : Guarded Nat := if n ≤ i then .ok (i - n) else .error .belowZero

/-- A loop over the places before `stop`. Where the cursor comes to stand at `stop` or behind it,
`exit` gives the result. -/
def loop (stop : Nat) (turn : σ → Nat → Guarded (Turn σ ρ)) (exit : σ → Nat → Guarded ρ) (s : σ)
    (i : Nat) : Guarded ρ :=
  if i < stop then
    match turn s i with
    | .error b => .error b
    | .ok (.done r) => .ok r
    | .ok (.goOn s' j) => if i < j then loop stop turn exit s' j else .error .stalled
  else exit s i
termination_by stop - i

theorem back_of_le {i n : Nat} (h : n ≤ i) : back i n = .ok (i - n) := if_pos h

@[simp] theorem ok_bind (a : α) (f : α → Guarded β) : ((.ok a : Guarded α) >>= f) = f a := rfl

@[simp] theorem pure_eq_ok (a : α) : (pure a : Guarded α) = .ok a := rfl

/-- One reader after the other, each of which has a result. -/
theorem mapM_eq_ok {f : α → Guarded β} {g : α → β} {l : List α} (h : ∀ a ∈ l, f a = .ok (g a)) :
    l.mapM f = .ok (l.map g) := by
  induction l with
  | nil => rfl
  | cons a l ih =>
    rw [List.mapM_cons, h a List.mem_cons_self, ok_bind,
      ih fun b hb => h b (List.mem_cons_of_mem a hb)]
    rfl

variable {stop : Nat} {turn : σ → Nat → Guarded (Turn σ ρ)} {exit : σ → Nat → Guarded ρ} {s : σ}
  {i : Nat} {r : ρ}

/-- The turns of a loop up to its result. Each one but the last moves the cursor forward. -/
inductive Runs (stop : Nat) (turn : σ → Nat → Guarded (Turn σ ρ)) (exit : σ → Nat → Guarded ρ) :
    σ → Nat → ρ → Prop
  | exit {s : σ} {i : Nat} {r : ρ} : stop ≤ i → exit s i = .ok r → Runs stop turn exit s i r
  | done {s : σ} {i : Nat} {r : ρ} : i < stop → turn s i = .ok (.done r) → Runs stop turn exit s i r
  | goOn {s s' : σ} {i j : Nat} {r : ρ} : i < stop → turn s i = .ok (.goOn s' j) → i < j →
      Runs stop turn exit s' j r → Runs stop turn exit s i r

/-- A loop has a result exactly when each of its turns moves the cursor forward until one of them
ends the loop or the cursor stands behind the places of the loop. -/
theorem loop_eq_ok_iff : loop stop turn exit s i = .ok r ↔ Runs stop turn exit s i r := by
  constructor
  · intro h
    induction hleft : stop - i using Nat.strongRecOn generalizing s i with
    | ind left ih =>
      rw [loop] at h
      split at h
      · rename_i hi
        split at h
        · cases h
        · rename_i hturn
          cases h
          exact .done hi hturn
        · rename_i s' j hturn
          split at h
          · rename_i hj
            exact .goOn hi hturn hj (ih (stop - j) (by omega) h rfl)
          · cases h
      · exact .exit (by omega) h
  · intro h
    induction h with
    | exit hi hexit => rw [loop, if_neg (by omega), hexit]
    | done hi hturn => rw [loop, if_pos hi, hturn]
    | goOn hi hturn hj _ ih => rw [loop, if_pos hi, hturn]; exact (if_pos hj).trans ih

/-! ## What one turn does -/

/-- A turn at place `i` ends the loop as it should, or goes on behind `i` with what leads to an end
as it should be. -/
def Proceeds (Ready : σ → Nat → Prop) (Post : σ → Nat → ρ → Prop) (s : σ) (i : Nat) :
    Guarded (Turn σ ρ) → Prop
  | .ok (.done r) => Post s i r
  | .ok (.goOn s' j) => i < j ∧ Ready s' j ∧ ∀ r, Post s' j r → Post s i r
  | .error _ => False

/-- From where every turn proceeds, a loop has a result, and the one that it should have. -/
theorem exists_loop_eq_ok (Ready : σ → Nat → Prop) (Post : σ → Nat → ρ → Prop)
    (hturn : ∀ s i, Ready s i → i < stop → Proceeds Ready Post s i (turn s i))
    (hexit : ∀ s i, Ready s i → stop ≤ i → ∃ r, exit s i = .ok r ∧ Post s i r) (h : Ready s i) :
    ∃ r, loop stop turn exit s i = .ok r ∧ Post s i r := by
  simp only [loop_eq_ok_iff]
  induction hleft : stop - i using Nat.strongRecOn generalizing s i with
  | ind left ih =>
    rcases Nat.lt_or_ge i stop with hi | hi
    · have hproceeds := hturn s i h hi
      cases hresult : turn s i with
      | error b =>
        rw [hresult] at hproceeds
        exact hproceeds.elim
      | ok next =>
        rw [hresult] at hproceeds
        cases next with
        | done r => exact ⟨r, .done hi hresult, hproceeds⟩
        | goOn s' j =>
          obtain ⟨hj, hready, hpost⟩ := hproceeds
          obtain ⟨r, hruns, hr⟩ := ih (stop - j) (by omega) hready rfl
          exact ⟨r, .goOn hi hresult hj hruns, hpost r hr⟩
    · obtain ⟨r, hresult, hr⟩ := hexit s i h hi
      exact ⟨r, .exit hi hresult, hr⟩

/-- A turn goes on behind `i` to the same result. -/
theorem Proceeds.goOn {Ready : σ → Nat → Prop} {expected : σ → Nat → ρ} {s' : σ} {j : Nat}
    (hj : i < j) (hready : Ready s' j) (h : expected s' j = expected s i) :
    Proceeds Ready (fun s i r => r = expected s i) s i (.ok (.goOn s' j)) :=
  ⟨hj, hready, fun _ hr => hr.trans h⟩

/-- A loop of which every turn leaves the result as it is has that result. -/
theorem loop_eq_ok (Ready : σ → Nat → Prop) (expected : σ → Nat → ρ)
    (hturn : ∀ s i, Ready s i → i < stop →
      Proceeds Ready (fun s i r => r = expected s i) s i (turn s i))
    (hexit : ∀ s i, Ready s i → stop ≤ i → exit s i = .ok (expected s i)) (h : Ready s i) :
    loop stop turn exit s i = .ok (expected s i) := by
  obtain ⟨r, hloop, rfl⟩ :=
    exists_loop_eq_ok Ready _ hturn (fun s i hs hi => ⟨expected s i, hexit s i hs hi, rfl⟩) h
  exact hloop

end Cursor

end PhpOutline
