/-!
# Passes from left to right

Every reader of this library passes over a list once, from left to right. At an item the reader
looks at what follows and may *claim* further items: they belong to what it has just read, and the
pass goes on behind them. A pass is recursive in the list itself, so it always ends, however the
claims are chosen.

## Main definitions

* `sweep` collects what the steps of a pass emit.
* `settle` carries a state along and returns its last value.
* `seek` finds the place where something ends.

## Main statements

* `sweep_eq_drop`, `settle_eq_drop`, `seek_eq_drop`: claimed items are passed over, whatever they
  are.
-/

namespace PhpOutline

/-- The outcome of one step of a pass. -/
structure Stride (σ β : Type) where
  /-- What the step adds to the result. -/
  emitted : List β
  /-- The state for the step that follows. -/
  state : σ
  /-- How many of the following items the step claims. -/
  claims : Nat

variable {α β σ : Type}

/-- Everything that the steps emit, in order, when the first `k` items are claimed already. -/
def sweep (step : σ → α → List α → Stride σ β) : σ → Nat → List α → List β
  | _, _, [] => []
  | st, k + 1, _ :: s => sweep step st k s
  | st, 0, a :: s =>
    let r := step st a s
    r.emitted ++ sweep step r.state r.claims s

/-- The state after the last step, when the first `k` items are claimed already. -/
def settle (step : σ → α → List α → σ × Nat) : σ → Nat → List α → σ
  | st, _, [] => st
  | st, k + 1, _ :: s => settle step st k s
  | st, 0, a :: s =>
    let r := step st a s
    settle step r.1 r.2 s

/-- What an item means to the search for an end. -/
inductive Look where
  /-- The end stands `extra` places behind this item. -/
  | ends (extra : Nat)
  /-- The search goes on behind this item and `extra` further ones. -/
  | passes (extra : Nat)
  /-- There is no end. -/
  | fails

/-- The position at which the search ends, when the first `k` items are claimed already. -/
def seek (look : α → List α → Look) : Nat → List α → Option Nat
  | _, [] => none
  | k + 1, _ :: s => (seek look k s).map (· + 1)
  | 0, a :: s =>
    match look a s with
    | .ends n => some n
    | .passes n => (seek look n s).map (· + 1)
    | .fails => none

/-! ## Claimed items are passed over -/

@[simp] theorem sweep_nil (step : σ → α → List α → Stride σ β) (st : σ) (k : Nat) :
    sweep step st k [] = [] := by
  simp [sweep]

theorem sweep_cons (step : σ → α → List α → Stride σ β) (st : σ) (a : α) (s : List α) :
    sweep step st 0 (a :: s) =
      (step st a s).emitted ++ sweep step (step st a s).state (step st a s).claims s := by
  simp [sweep]

theorem sweep_eq_drop (step : σ → α → List α → Stride σ β) (st : σ) (k : Nat) (s : List α) :
    sweep step st k s = sweep step st 0 (s.drop k) := by
  induction k generalizing s with
  | zero => simp
  | succ k ih =>
    cases s with
    | nil => simp
    | cons a s => simpa [sweep] using ih s

@[simp] theorem settle_nil (step : σ → α → List α → σ × Nat) (st : σ) (k : Nat) :
    settle step st k [] = st := by
  simp [settle]

theorem settle_cons (step : σ → α → List α → σ × Nat) (st : σ) (a : α) (s : List α) :
    settle step st 0 (a :: s) = settle step (step st a s).1 (step st a s).2 s := by
  simp [settle]

theorem settle_eq_drop (step : σ → α → List α → σ × Nat) (st : σ) (k : Nat) (s : List α) :
    settle step st k s = settle step st 0 (s.drop k) := by
  induction k generalizing s with
  | zero => simp
  | succ k ih =>
    cases s with
    | nil => simp
    | cons a s => simpa [settle] using ih s

@[simp] theorem seek_nil (look : α → List α → Look) (k : Nat) : seek look k [] = none := by
  simp [seek]

theorem seek_eq_drop (look : α → List α → Look) (k : Nat) (s : List α) :
    seek look k s = (seek look 0 (s.drop k)).map (· + k) := by
  induction k generalizing s with
  | zero => simp
  | succ k ih =>
    cases s with
    | nil => simp
    | cons a s =>
      rw [seek, ih s, Option.map_map, List.drop_succ_cons]
      rfl

end PhpOutline
