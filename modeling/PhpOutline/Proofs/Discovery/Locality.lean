import PhpOutline.Proofs.Discovery.Alike
import PhpOutline.Proofs.Lookahead

/-!
# How far the discovery looks ahead

While the discovery has a word before it that will declare something, each of its steps depends on
what stands in front of that word only. So whatever follows the word may be replaced without any
change to what was found before it.

## Main definitions

* `Kind.isDeclaring`: the words that begin the declaration of a type or a function.

## Main statements

* `Event.step_local`: a step that leaves a declaring word unread does not look behind it.
* `Event.exists_sweep_of_reaches`: how the pass comes to such a word does not depend on what follows
  it.
-/

namespace PhpOutline

/-- The words that begin the declaration of a type or a function. -/
def Kind.isDeclaring : Kind → Bool
  | .keyword (.declares _) | .keyword .function => true
  | _ => false

theorem Kind.isHeader_of_isDeclaring {k : Kind} (h : k.isDeclaring = true) :
    k.isHeader = false := by
  unfold isDeclaring at h
  split at h
  · rfl
  · rfl
  · cases h

namespace Event

variable {last last' : Nat} {st : State} {e w : Entry} {s x : List Entry}

/-- The same events, wherever they stand. -/
abbrev Same : Event → Event → Prop := Alike (fun _ _ => True) (fun _ _ => True)

theorem Same.refl (ev : Event) : ev.Same ev := by
  cases ev with
  | entersNamespace name => exact .entersNamespace name
  | imports i => exact .imports i
  | declaresType site => exact .declaresType ⟨rfl, trivial, trivial, trivial⟩
  | declaresFunction site => exact .declaresFunction ⟨rfl, trivial, trivial, trivial⟩

/-- Two steps that find the same and go on in the same way. -/
abbrev SameStride (r r' : Stride State Event) : Prop := r.Alike Eq Same r'

theorem SameStride.of_eq {r r' : Stride State Event} (h : r = r') : SameStride r r' := by
  subst h
  exact ⟨List.forall₂_same.2 fun ev _ => .refl ev, rfl, rfl⟩

theorem SameStride.declaresType {site site' : Site} (h : site.shortName = site'.shortName)
    (n : Nat) : SameStride (resume [.declaresType site] n) (resume [.declaresType site'] n) :=
  ⟨.cons (.declaresType ⟨h, trivial, trivial, trivial⟩) .nil, rfl, rfl⟩

theorem SameStride.declaresFunction {site site' : Site} (h : site.shortName = site'.shortName)
    (n : Nat) :
    SameStride (resume [.declaresFunction site] n) (resume [.declaresFunction site'] n) :=
  ⟨.cons (.declaresFunction ⟨h, trivial, trivial, trivial⟩) .nil, rfl, rfl⟩

/-! ## Statements -/

/-- The semicolon of a statement that leaves something of the first part stands in that part. -/
theorem statementSize_local (hx : x ≠ []) (h : statementSize (s ++ x) ≤ s.length)
    (y : List Entry) : statementSize (s ++ y) = statementSize (s ++ x) ∧
      (s ++ y).take (statementSize (s ++ x)) = (s ++ x).take (statementSize (s ++ x)) := by
  have hlt : s.length < (s ++ x).length := by
    rw [List.length_append]
    have := List.length_pos_iff.2 hx
    omega
  constructor
  · simp only [statementSize, Entry.kinds, List.map_append, List.findIdx?_append] at h ⊢
    cases hs : (s.map fun e => e.kind).findIdx? (· == .semicolon) with
    | some n => simp
    | none =>
      rw [hs, Option.none_or] at h
      cases hfound : (x.map fun e => e.kind).findIdx? (· == .semicolon) with
      | some n =>
        simp only [hfound, Option.map_some, Option.getD_some, List.length_map] at h
        omega
      | none =>
        simp only [hfound, Option.map_none, Option.getD_none] at h
        omega
  · rw [List.take_append_of_le_length h, List.take_append_of_le_length h]

theorem head?_kinds_append (hw : w ∈ s) (x y : List Entry) :
    (Entry.kinds (s ++ x)).head? = (Entry.kinds (s ++ y)).head? := by
  cases s with
  | nil => simp at hw
  | cons f s => rfl

theorem readUse_local (hx : x ≠ []) (hw : w ∈ s) (h : (readUse (s ++ x)).claims ≤ s.length)
    (y : List Entry) : readUse (s ++ x) = readUse (s ++ y) := by
  rw [readUse] at h ⊢
  rw [readUse, head?_kinds_append hw y x]
  split
  case h_1 heq =>
    simp only [heq, resume] at h
    rw [(statementSize_local hx h y).1]
  case h_2 heq =>
    simp only [heq, resume] at h
    rw [(statementSize_local hx h y).1]
  case h_3 => rfl
  case h_4 hfunction hconst hparen =>
    have hsize : statementSize (s ++ x) ≤ s.length := by
      split at h
      · exact absurd ‹_› hfunction
      · exact absurd ‹_› hconst
      · exact absurd ‹_› hparen
      · exact h
    obtain ⟨hsame, htaken⟩ := statementSize_local hx hsize y
    simp only [hsame, htaken]

/-! ## Declarations -/

theorem unnamed_local (hx : x ≠ []) {kind : TypeKind}
    (h : (readType.unnamed kind (s ++ x)).claims ≤ s.length) (y : List Entry) :
    readType.unnamed kind (s ++ x) = readType.unnamed kind (s ++ y) := by
  rw [readType.unnamed] at h ⊢
  rw [readType.unnamed]
  split
  · rfl
  · rename_i hkind
    rw [if_neg hkind] at h
    simp only [resume, Entry.kinds_append] at h ⊢
    cases hend : declarationEnd? (Entry.kinds s ++ Entry.kinds x) with
    | none =>
      have := List.length_pos_iff.2 hx
      simp only [hend, Option.map_none, Option.getD_none, List.length_append] at h
      omega
    | some n =>
      simp only [hend, Option.map_some, Option.getD_some] at h
      rw [declarationEnd?_append_of_lt hend (by rw [Entry.kinds, List.length_map]; omega)]
      rfl

theorem readType_local (hx : x ≠ []) (hw : w ∈ s) (hdeclaring : w.kind.isDeclaring = true)
    {kind : TypeKind} (h : (readType last st kind e (s ++ x)).claims ≤ s.length)
    (y : List Entry) :
    SameStride (readType last st kind e (s ++ x)) (readType last' st kind e (s ++ y)) := by
  cases s with
  | nil => simp at hw
  | cons name s =>
    have hpos := List.length_pos_iff.2 hx
    simp only [List.cons_append, readType] at h ⊢
    by_cases hnamed : name.kind = .name ∧ st.afterNew = false
    case neg =>
      rw [if_neg hnamed] at h ⊢
      rw [if_neg hnamed]
      exact .of_eq (@unnamed_local (name :: s) x hx kind h y)
    case pos =>
      rw [if_pos hnamed] at h ⊢
      rw [if_pos hnamed]
      -- the declaring word is not the name, so it stands where the header is sought
      have hmem : w.kind ∈ Entry.kinds s := by
        rcases List.mem_cons.1 hw with rfl | hw
        · rw [hnamed.1] at hdeclaring
          cases hdeclaring
        · exact List.mem_map_of_mem hw
      have hsame := headerEnd?_append_of_mem hmem (Kind.isHeader_of_isDeclaring hdeclaring)
        (Entry.kinds x) (Entry.kinds y)
      rw [← Entry.kinds_append, ← Entry.kinds_append] at hsame
      rw [← hsame]
      cases hheader : headerEnd? (Entry.kinds (s ++ x)) with
      | none => exact .of_eq rfl
      | some n =>
        rw [hheader] at h
        simp only at h ⊢
        cases hend : groupEnd? (Entry.kinds ((s ++ x).drop n)) with
        | none =>
          simp only [hend, resume, Option.map_none, Option.getD_none, List.length_cons,
            List.length_append] at h
          omega
        | some m =>
          simp only [hend, resume, Option.map_some, Option.getD_some, List.length_cons] at h
          have hdrop : ∀ z, (s ++ z).drop n = s.drop n ++ z := by
            intro z
            exact List.drop_append_of_le_length (by omega)
          have hclose : groupEnd? (Entry.kinds ((s ++ y).drop n)) = some m := by
            rw [hdrop, Entry.kinds_append] at hend ⊢
            refine groupEnd?_append_of_lt hend ?_ _
            rw [Entry.kinds, List.length_map, List.length_drop]
            omega
          rw [hclose]
          simp only [Option.map_some, Option.getD_some]
          exact SameStride.declaresType (by rfl) _

/-- Behind the ampersand, if there is one, the declaring word still stands in the first part. -/
theorem exists_drop_ampersands (hw : w ∈ s) (hdeclaring : w.kind.isDeclaring = true) :
    ∃ k named, w ∈ named ∧ s.length = k + named.length ∧
      ∀ z, ampersands (s ++ z) = k ∧ (s ++ z).drop k = named ++ z := by
  cases s with
  | nil => simp at hw
  | cons f s =>
    by_cases hf : f.kind = .ampersand
    · refine ⟨1, s, ?_, by rw [List.length_cons, Nat.add_comm], ?_⟩
      · rcases List.mem_cons.1 hw with rfl | hw
        · rw [hf] at hdeclaring
          cases hdeclaring
        · exact hw
      · intro z
        exact ⟨by simp [ampersands, hf], rfl⟩
    · refine ⟨0, f :: s, hw, (Nat.zero_add _).symm, ?_⟩
      intro z
      exact ⟨by simp [ampersands, hf], rfl⟩

theorem readFunction_of_ne_name {es rest : List Entry} {name : Entry}
    (hes : es.drop (ampersands es) = name :: rest) (hname : name.kind ≠ .name) :
    readFunction last e es = resume [] 0 := by
  simp only [readFunction, hes]
  cases rest with
  | nil => rfl
  | cons list rest => simp [hname]

theorem readFunction_local (hx : x ≠ []) (hw : w ∈ s) (hdeclaring : w.kind.isDeclaring = true)
    (h : (readFunction last e (s ++ x)).claims ≤ s.length) (y : List Entry) :
    SameStride (readFunction last e (s ++ x)) (readFunction last' e (s ++ y)) := by
  have hpos := List.length_pos_iff.2 hx
  obtain ⟨k, named, hnamed, hlength, hdrop⟩ := exists_drop_ampersands hw hdeclaring
  have hskip : ∀ z, (s ++ z).drop (ampersands (s ++ z)) = named ++ z := by
    intro z
    rw [(hdrop z).1, (hdrop z).2]
  cases named with
  | nil => simp at hnamed
  | cons name rest =>
    by_cases hname : name.kind = .name
    case neg =>
      rw [readFunction_of_ne_name (hskip x) hname, readFunction_of_ne_name (hskip y) hname]
      exact .of_eq rfl
    case pos =>
      have hrest : w ∈ rest := by
        rcases List.mem_cons.1 hnamed with rfl | hrest
        · rw [hname] at hdeclaring
          cases hdeclaring
        · exact hrest
      cases rest with
      | nil => simp at hrest
      | cons list rest =>
        simp only [readFunction, (hdrop _).1, (hdrop _).2, List.cons_append] at h ⊢
        by_cases hlist : name.kind = .name ∧ list.kind = .opener .paren
        case neg =>
          rw [if_neg hlist, if_neg hlist]
          exact .of_eq rfl
        case pos =>
          rw [if_pos hlist] at h ⊢
          rw [if_pos hlist]
          have hkinds : ∀ z, Entry.kinds (list :: (rest ++ z)) =
              Entry.kinds (list :: rest) ++ Entry.kinds z := by
            intro z
            exact Entry.kinds_append (list :: rest) z
          cases hend : declarationEnd? (Entry.kinds (list :: (rest ++ x))) with
          | none =>
            simp only [hend, resume, Option.map_none, Option.getD_none, List.length_append] at h
            omega
          | some n =>
            simp only [hend, resume, Option.map_some, Option.getD_some] at h
            have hsame : declarationEnd? (Entry.kinds (list :: (rest ++ y))) = some n := by
              rw [hkinds] at hend ⊢
              refine declarationEnd?_append_of_lt hend ?_ _
              simp only [List.length_cons] at hlength
              rw [Entry.kinds, List.length_map, List.length_cons]
              omega
            rw [hsame]
            simp only [Option.map_some, Option.getD_some]
            exact SameStride.declaresFunction (by rfl) _

/-! ## Steps -/

theorem readNamespace_local (hw : w ∈ s) (x y : List Entry) :
    readNamespace (s ++ x) = readNamespace (s ++ y) := by
  cases s with
  | nil => simp at hw
  | cons f s => rfl

/-- A step that leaves a declaring word of the first part unread finds the same, whatever follows
that part. -/
theorem step_local (hx : x ≠ []) (hw : w ∈ s) (hdeclaring : w.kind.isDeclaring = true)
    (h : (step last st e (s ++ x)).claims ≤ s.length) (y : List Entry) :
    SameStride (step last st e (s ++ x)) (step last' st e (s ++ y)) := by
  rw [step] at h ⊢
  rw [step]
  split
  case h_4 => exact .of_eq (readNamespace_local hw x y)
  case h_5 heq =>
    simp only [heq] at h
    exact .of_eq (readUse_local hx hw h y)
  case h_6 kind heq =>
    simp only [heq] at h
    exact readType_local hx hw hdeclaring h y
  case h_7 heq =>
    simp only [heq] at h
    exact readFunction_local hx hw hdeclaring h y
  all_goals exact .of_eq rfl

/-- The pass comes to a declaring word in the same way, and has found the same before it, whatever
follows the word. -/
theorem exists_sweep_of_reaches {st' : State} {m : List Entry} (hx : x ≠ [])
    (hdeclaring : w.kind.isDeclaring = true)
    (h : Reaches (step last) st (s ++ x) st' (w :: (m ++ x))) (y : List Entry) :
    ∃ events events', List.Forall₂ Same events events' ∧
      sweep (step last) st 0 (s ++ x) = events ++ sweep (step last) st' 0 (w :: (m ++ x)) ∧
      sweep (step last') st 0 (s ++ y) = events' ++ sweep (step last') st' 0 (w :: (m ++ y)) := by
  generalize hall : s ++ x = all at h
  generalize hrest : w :: (m ++ x) = rest at h
  induction h generalizing s with
  | refl =>
    obtain rfl : s = w :: m := by
      rw [← hrest, ← List.cons_append] at hall
      exact List.append_cancel_right hall
    exact ⟨[], [], .nil, by rw [← hrest]; rfl, rfl⟩
  | @head st st' a all' rest h ih =>
    subst hrest
    have hsuffix := h.suffix
    cases s with
    | nil =>
      -- what is left of the pass is longer than `x`
      have hlen := (hsuffix.trans (List.drop_suffix _ _)).length_le
      rw [List.nil_append] at hall
      simp only [hall, List.length_cons, List.length_append] at hlen
      omega
    | cons b s =>
      rw [List.cons_append, List.cons.injEq] at hall
      obtain ⟨rfl, rfl⟩ := hall
      have hclaims : (step last st b (s ++ x)).claims ≤ s.length := by
        have hlen := hsuffix.length_le
        simp only [List.length_cons, List.length_append, List.length_drop] at hlen
        omega
      have hdrop : ∀ z, (s ++ z).drop (step last st b (s ++ x)).claims =
          s.drop (step last st b (s ++ x)).claims ++ z := by
        intro z
        exact List.drop_append_of_le_length hclaims
      have hw : w ∈ s := by
        rw [hdrop] at hsuffix
        obtain ⟨before, hbefore⟩ := hsuffix
        have hcancel : before ++ w :: m = s.drop (step last st b (s ++ x)).claims :=
          List.append_cancel_right (by rw [List.append_assoc, List.cons_append]; exact hbefore)
        apply List.mem_of_mem_drop
        rw [← hcancel]
        simp
      obtain ⟨hemitted, hstate, hsame⟩ :=
        @step_local last last' st b w s x hx hw hdeclaring hclaims y
      obtain ⟨events, events', hevents, hleft, hright⟩ := ih (hdrop x).symm rfl
      refine ⟨(step last st b (s ++ x)).emitted ++ events,
        (step last' st b (s ++ y)).emitted ++ events',
        List.rel_append hemitted hevents, ?_, ?_⟩
      · rw [sweep_cons, sweep_eq_drop, hleft, List.append_assoc]
      · rw [List.cons_append, sweep_cons, sweep_eq_drop, ← hsame, hdrop, ← hstate, hright,
          List.append_assoc]

end Event

end PhpOutline
