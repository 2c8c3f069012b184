import PhpOutline.Declaration.Member
import PhpOutline.Proofs.Nesting
import PhpOutline.Proofs.TokenTable.Windows

/-!
# Modifiers in front of a member

The pass over the body of a type goes over the modifiers of a member one by one, and remembers the
place of the first of them.

## Main definitions

* `IsLead`: the modifiers in front of a member.

## Main statements

* `Member.exists_sweep_lead`: the pass remembers where the modifiers begin.
-/

namespace PhpOutline

/-- The kinds of modifiers, and of white space behind them. -/
structure IsLead (ks : List Kind) : Prop where
  mem : ∀ k ∈ ks, k.modifier? ≠ none ∨ k = .whitespace
  head : ∀ k ∈ ks.head?, k.modifier? ≠ none

theorem IsLead.nil : IsLead [] := ⟨by simp, by simp⟩

theorem Kind.exists_of_modifier? {k : Kind} (h : k.modifier? ≠ none) :
    ∃ m, k = .keyword (.modifier m) := by
  cases k with
  | keyword w =>
    cases w with
    | modifier m => exact ⟨m, rfl⟩
    | _ => simp [Kind.modifier?] at h
  | _ => simp [Kind.modifier?] at h

/-- A lead has no brackets. -/
theorem IsLead.nested {ks : List Kind} (h : IsLead ks) : Nested (fun _ => True) ks := by
  obtain ⟨hmem, -⟩ := h
  induction ks with
  | nil => exact .nil
  | cons k ks ih =>
    have hks := ih fun j hj => hmem j (List.mem_cons_of_mem k hj)
    rcases hmem k List.mem_cons_self with hm | rfl
    · obtain ⟨m, rfl⟩ := Kind.exists_of_modifier? hm
      exact .plain trivial rfl rfl hks
    · exact .plain trivial rfl rfl hks

theorem IsLead.mem_token {lead : List Token} (h : IsLead (lead.map Token.kind)) :
    ∀ x ∈ lead, x.kind.modifier? ≠ none ∨ x.kind = .whitespace :=
  fun _ hx => h.mem _ (List.mem_map_of_mem hx)

/-- No token of a lead is of another kind. -/
theorem IsLead.ne {lead : List Token} (h : IsLead (lead.map Token.kind)) {k : Kind}
    (hk : k.modifier? = none) (hblank : k ≠ .whitespace) : ∀ x ∈ lead, x.kind ≠ k := by
  rintro x hx rfl
  rcases h.mem_token x hx with hm | hw
  · exact hm hk
  · exact hblank hw

namespace Member

variable {t : TokenTable} {context : NameContext} {stop : Nat}

theorem step_modifier {x : Token} (hx : x.kind.modifier? ≠ none) (start : Option Nat) (i : Nat)
    (es : List Entry) : step t context stop start ⟨x, i⟩ es = ⟨[], some (start.getD i), 0⟩ := by
  obtain ⟨m, hm⟩ := Kind.exists_of_modifier? hx
  simp only [step, hm]

theorem step_whitespace {x : Token} (hx : x.kind = .whitespace) (start : Option Nat) (i : Nat)
    (es : List Entry) : step t context stop start ⟨x, i⟩ es = ⟨[], start, 0⟩ := by
  simp only [step, hx]

theorem sweep_whitespace {x : Token} (hx : x.kind = .whitespace) (start : Option Nat) (i : Nat)
    (rest : List Token) :
    sweep (step t context stop) start 0 (Entry.number i (x :: rest)) =
      sweep (step t context stop) start 0 (Entry.number (i + 1) rest) := by
  rw [Entry.number_cons, sweep_cons, step_whitespace hx]
  rfl

/-- Behind the first modifier the pass keeps its place. -/
theorem sweep_lead_tail {lead : List Token}
    (h : ∀ x ∈ lead, x.kind.modifier? ≠ none ∨ x.kind = .whitespace) (first i : Nat)
    (rest : List Token) :
    sweep (step t context stop) (some first) 0 (Entry.number i (lead ++ rest)) =
      sweep (step t context stop) (some first) 0 (Entry.number (i + lead.length) rest) := by
  induction lead generalizing i with
  | nil => simp
  | cons x lead ih =>
    have htail := ih (fun y hy => h y (by simp [hy])) (i + 1)
    have hlen : i + 1 + lead.length = i + (x :: lead).length := by
      simp only [List.length_cons]
      omega
    rw [List.cons_append, ← hlen, ← htail]
    rcases h x (by simp) with hm | hw
    · rw [Entry.number_cons, sweep_cons, step_modifier hm]
      rfl
    · exact sweep_whitespace hw _ _ _

/-- The pass remembers where the modifiers begin. -/
theorem exists_sweep_lead {lead : List Token} (h : IsLead (lead.map Token.kind)) (i : Nat)
    (rest : List Token) :
    ∃ start : Option Nat, start.getD (i + lead.length) = i ∧ (lead ≠ [] → start = some i) ∧
      sweep (step t context stop) none 0 (Entry.number i (lead ++ rest)) =
        sweep (step t context stop) start 0 (Entry.number (i + lead.length) rest) := by
  cases lead with
  | nil => exact ⟨none, by simp, by simp, by simp⟩
  | cons x lead =>
    refine ⟨some i, rfl, fun _ => rfl, ?_⟩
    have hx : x.kind.modifier? ≠ none := h.head x.kind (by simp)
    have htail := @sweep_lead_tail t context stop lead
      (fun y hy => h.mem_token y (List.mem_cons_of_mem x hy)) i (i + 1) rest
    have hlen : i + 1 + lead.length = i + (x :: lead).length := by
      simp only [List.length_cons]
      omega
    rw [List.cons_append, Entry.number_cons, sweep_cons, step_modifier hx, ← hlen, ← htail]
    rfl

end Member

end PhpOutline
