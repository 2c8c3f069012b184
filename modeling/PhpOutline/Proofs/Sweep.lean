import Mathlib.Data.List.Forall2
import PhpOutline.Sweep

/-!
# What a whole pass does

Facts about the steps of a pass, carried over to the pass.

## Main definitions

* `Reaches`: the places that a pass comes to, with the states in which it does.
* `Stride.Alike`: two steps that emit alike, leave like states and claim equally many items.

## Main statements

* `sweep_induction`: induction along a pass.
* `exists_step_of_mem_sweep`, `exists_reaches_of_mem_sweep`: what a pass emits was emitted by one of
  its steps.
* `sweep_ordered`: where every step goes on behind what it emits, a pass emits in order.
* `sweep_forall₂`: two passes whose steps are alike emit alike.
* `sweep_map`, `settle_map`, `seek_map`: passes over the images of items.
* `settle_induction`, `settle_invariant`: what the steps of a pass keep holds at its end.
* `exists_ends_of_seek`, `lt_of_seek`: what a search finds was found at one of the items, and ends
  within them.
-/

namespace PhpOutline

variable {α β σ : Type}

/-- Induction along a pass: what holds in front of no items, and in front of some when it holds
behind a step, holds wherever a pass may begin. -/
@[elab_as_elim]
theorem sweep_induction (step : σ → α → List α → Stride σ β) {motive : σ → List α → Prop}
    (nil : ∀ st, motive st [])
    (cons : ∀ st a s, motive (step st a s).state (s.drop (step st a s).claims) →
      motive st (a :: s)) (st : σ) (s : List α) : motive st s := by
  induction hn : s.length using Nat.strongRecOn generalizing st s with
  | ind n ih =>
    cases s with
    | nil => exact nil st
    | cons a s =>
      refine cons st a s (ih _ ?_ _ _ rfl)
      rw [← hn, List.length_cons, List.length_drop]
      omega

/-- What a pass emits was emitted at some item by a step that saw the items behind it. -/
theorem exists_step_of_mem_sweep {step : σ → α → List α → Stride σ β} {st : σ} {k : Nat}
    {s : List α} {x : β} (h : x ∈ sweep step st k s) :
    ∃ st' a rest, a :: rest <:+ s ∧ x ∈ (step st' a rest).emitted := by
  induction s generalizing st k with
  | nil => simp at h
  | cons a s ih =>
    cases k with
    | zero =>
      rw [sweep_cons, List.mem_append] at h
      rcases h with h | h
      · exact ⟨st, a, s, List.suffix_refl _, h⟩
      · obtain ⟨st', b, rest, hs, hx⟩ := ih h
        exact ⟨st', b, rest, hs.trans (List.suffix_cons a s), hx⟩
    | succ k =>
      rw [sweep] at h
      obtain ⟨st', b, rest, hs, hx⟩ := ih h
      exact ⟨st', b, rest, hs.trans (List.suffix_cons a s), hx⟩

/-- The pass that begins in state `st` in front of `s` comes to stand in state `st'` in front of
`s'`. -/
inductive Reaches (step : σ → α → List α → Stride σ β) : σ → List α → σ → List α → Prop where
  | refl {st : σ} {s : List α} : Reaches step st s st s
  | head {st st' : σ} {a : α} {s s' : List α}
    (h : Reaches step (step st a s).state (s.drop (step st a s).claims) st' s') :
    Reaches step st (a :: s) st' s'

theorem Reaches.suffix {step : σ → α → List α → Stride σ β} {st st' : σ} {s s' : List α}
    (h : Reaches step st s st' s') : s' <:+ s := by
  induction h with
  | refl => exact List.suffix_refl _
  | @head st st' a s s' _ ih => exact (ih.trans (List.drop_suffix _ s)).trans (List.suffix_cons a s)

/-- What a pass emits was emitted by a step at an item that the pass comes to. -/
theorem exists_reaches_of_mem_sweep {step : σ → α → List α → Stride σ β} {st : σ} {s : List α}
    {x : β} (h : x ∈ sweep step st 0 s) :
    ∃ st' a rest, Reaches step st s st' (a :: rest) ∧ x ∈ (step st' a rest).emitted := by
  induction st, s using sweep_induction step with
  | nil st => simp at h
  | cons st a s ih =>
    rw [sweep_cons, List.mem_append, sweep_eq_drop] at h
    rcases h with h | h
    · exact ⟨st, a, s, .refl, h⟩
    · obtain ⟨st', b, rest, hreaches, hx⟩ := ih h
      exact ⟨st', b, rest, .head hreaches, hx⟩

/-- Where every step goes on behind what it emits, a pass emits in order. Places are numbers:
`Ready st lo s` says that a step may be taken in state `st` in front of the items `s` and from place
`lo` on, and `From lo x` that `x` lies from place `lo` on. -/
theorem sweep_ordered {step : σ → α → List α → Stride σ β} (Ready : σ → Nat → List α → Prop)
    (From : Nat → β → Prop) {R : β → β → Prop}
    (hfrom : ∀ lo hi x, lo ≤ hi → From hi x → From lo x)
    (hstep : ∀ st lo a s, Ready st lo (a :: s) → ∃ hi, lo ≤ hi ∧
      (∀ x ∈ (step st a s).emitted, From lo x ∧ ∀ y, From hi y → R x y) ∧
      (step st a s).emitted.Pairwise R ∧
      Ready (step st a s).state hi (s.drop (step st a s).claims))
    {st : σ} {lo : Nat} {s : List α} (h : Ready st lo s) :
    (∀ x ∈ sweep step st 0 s, From lo x) ∧ (sweep step st 0 s).Pairwise R := by
  induction st, s using sweep_induction step generalizing lo with
  | nil st => simp
  | cons st a s ih =>
    obtain ⟨hi, hle, hemitted, hpairwise, hready⟩ := hstep st lo a s h
    obtain ⟨hbehind, hordered⟩ := ih hready
    rw [sweep_cons, sweep_eq_drop]
    constructor
    · intro x hx
      rcases List.mem_append.1 hx with hx | hx
      · exact (hemitted x hx).1
      · exact hfrom lo hi x hle (hbehind x hx)
    · rw [List.pairwise_append]
      refine ⟨hpairwise, hordered, ?_⟩
      intro x hx y hy
      exact (hemitted x hx).2 y (hbehind y hy)

/-! ## Two passes side by side -/

section Alike

variable {α' β' σ' : Type}

/-- Two steps that emit alike, leave like states and claim equally many items. -/
structure Stride.Alike (R : σ → σ' → Prop) (E : β → β' → Prop) (r : Stride σ β)
    (r' : Stride σ' β') : Prop where
  emitted : List.Forall₂ E r.emitted r'.emitted
  state : R r.state r'.state
  claims : r.claims = r'.claims

/-- Two passes over like items whose steps are alike emit alike. -/
theorem sweep_forall₂ {step : σ → α → List α → Stride σ β}
    {step' : σ' → α' → List α' → Stride σ' β'} {R : σ → σ' → Prop} {A : α → α' → Prop}
    {E : β → β' → Prop}
    (hstep : ∀ st st' a a' s s', R st st' → A a a' → List.Forall₂ A s s' →
      (step st a s).Alike R E (step' st' a' s'))
    {st : σ} {st' : σ'} (hst : R st st') (k : Nat) {s : List α} {s' : List α'}
    (hs : List.Forall₂ A s s') : List.Forall₂ E (sweep step st k s) (sweep step' st' k s') := by
  induction hs generalizing st st' k with
  | nil =>
    rw [sweep_nil, sweep_nil]
    exact .nil
  | @cons a a' s s' ha hs ih =>
    cases k with
    | succ k => exact ih hst k
    | zero =>
      obtain ⟨hemitted, hstate, hclaims⟩ := hstep st st' a a' s s' hst ha hs
      rw [sweep_cons, sweep_cons, ← hclaims]
      exact List.rel_append hemitted (ih hstate _)

end Alike

/-! ## Passes over the images of items -/

section Images

variable {α' β' σ' : Type} {f : α → α'} {g : σ → σ'} {all : List α}

/-- A pass over the images of items, whose steps are the images of steps, emits images. -/
theorem sweep_map {step : σ → α → List α → Stride σ β} {step' : σ' → α' → List α' → Stride σ' β'}
    {m : β → β'}
    (hstep : ∀ st a s, a :: s <:+ all → step' (g st) (f a) (s.map f) =
      ⟨(step st a s).emitted.map m, g (step st a s).state, (step st a s).claims⟩)
    {st : σ} {st' : σ'} (hst : st' = g st) {k : Nat} {s : List α} (hs : s <:+ all) :
    sweep step' st' k (s.map f) = (sweep step st k s).map m := by
  subst hst
  induction s generalizing st k with
  | nil => simp
  | cons a s ih =>
    have hrest : s <:+ all := (List.suffix_cons a s).trans hs
    cases k with
    | succ k => exact ih hrest
    | zero =>
      rw [List.map_cons, sweep_cons, sweep_cons, hstep st a s hs, List.map_append, ih hrest]

/-- So does the state at its end. -/
theorem settle_map {step : σ → α → List α → σ × Nat} {step' : σ' → α' → List α' → σ' × Nat}
    (hstep : ∀ st a s, a :: s <:+ all →
      step' (g st) (f a) (s.map f) = (g (step st a s).1, (step st a s).2))
    {st : σ} {st' : σ'} (hst : st' = g st) {k : Nat} {s : List α} (hs : s <:+ all) :
    settle step' st' k (s.map f) = g (settle step st k s) := by
  subst hst
  induction s generalizing st k with
  | nil => simp
  | cons a s ih =>
    have hrest : s <:+ all := (List.suffix_cons a s).trans hs
    cases k with
    | succ k => exact ih hrest
    | zero => rw [List.map_cons, settle_cons, settle_cons, hstep st a s hs, ih hrest]

/-- A search among the images of items ends where the search among the items does. -/
theorem seek_map {look : α → List α → Look} {look' : α' → List α' → Look}
    (hlook : ∀ a s, a :: s <:+ all → look' (f a) (s.map f) = look a s) {k : Nat} {s : List α}
    (hs : s <:+ all) : seek look' k (s.map f) = seek look k s := by
  induction s generalizing k with
  | nil => simp
  | cons a s ih =>
    have hrest : s <:+ all := (List.suffix_cons a s).trans hs
    cases k with
    | succ k => rw [List.map_cons, seek, seek, ih hrest]
    | zero => simp only [List.map_cons, seek, hlook a s hs, ih hrest]

end Images

/-- What every step keeps holds of the state at the end. -/
theorem settle_induction {step : σ → α → List α → σ × Nat} {P : σ → Prop} {all : List α}
    (hstep : ∀ st a s, a :: s <:+ all → P st → P (step st a s).1) {st : σ} {k : Nat} {s : List α}
    (hs : s <:+ all) (h : P st) : P (settle step st k s) := by
  induction s generalizing st k with
  | nil => simpa using h
  | cons a s ih =>
    have hrest : s <:+ all := (List.suffix_cons a s).trans hs
    cases k with
    | zero =>
      rw [settle_cons]
      exact ih hrest (hstep st a s hs h)
    | succ k =>
      rw [settle]
      exact ih hrest h

/-- What every step keeps, of the state and of the items in front of the pass, holds at the end. -/
theorem settle_invariant {step : σ → α → List α → σ × Nat} {P : σ → List α → Prop}
    (hstep : ∀ st a s, P st (a :: s) → P (step st a s).1 (s.drop (step st a s).2)) {st : σ}
    {k : Nat} {s : List α} (h : P st (s.drop k)) : P (settle step st k s) [] := by
  induction s generalizing st k with
  | nil => simpa using h
  | cons a s ih =>
    cases k with
    | zero =>
      rw [settle_cons]
      exact ih (hstep st a s h)
    | succ k =>
      rw [settle]
      exact ih h

/-- What a search finds was found at some item, by a look at the items behind it. -/
theorem exists_ends_of_seek {look : α → List α → Look} {k n : Nat} {s : List α}
    (h : seek look k s = some n) :
    ∃ before a rest m, s = before ++ a :: rest ∧ look a rest = .ends m ∧
      n = before.length + m := by
  induction s generalizing k n with
  | nil => simp at h
  | cons a s ih =>
    have hbehind : ∀ {k}, (seek look k s).map (· + 1) = some n →
        ∃ before b rest m, a :: s = before ++ b :: rest ∧ look b rest = .ends m ∧
          n = before.length + m := by
      intro k hk
      obtain ⟨i, hi, rfl⟩ := Option.map_eq_some_iff.1 hk
      obtain ⟨before, b, rest, m, rfl, hlook, rfl⟩ := ih hi
      exact ⟨a :: before, b, rest, m, rfl, hlook, by simp [Nat.add_right_comm]⟩
    cases k with
    | succ k => exact hbehind h
    | zero =>
      rw [seek] at h
      cases hlook : look a s with
      | ends m =>
        rw [hlook] at h
        exact ⟨[], a, s, m, rfl, hlook, by simpa using (Option.some.inj h).symm⟩
      | passes m =>
        rw [hlook] at h
        exact hbehind h
      | fails =>
        rw [hlook] at h
        cases h

/-- A search whose looks end within what they see ends within its items. -/
theorem lt_of_seek {look : α → List α → Look} {k n : Nat} {s : List α}
    (hlook : ∀ a rest m, look a rest = .ends m → m < rest.length + 1)
    (h : seek look k s = some n) : n < s.length := by
  obtain ⟨before, a, rest, m, rfl, hends, rfl⟩ := exists_ends_of_seek h
  have hm := hlook a rest m hends
  rw [List.length_append, List.length_cons]
  omega

end PhpOutline
