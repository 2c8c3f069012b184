import PhpOutline.Proofs.Balance
import PhpOutline.Proofs.Discovery.Locality
import PhpOutline.Proofs.Discovery.Spans
import PhpOutline.Proofs.Discovery.Steps

/-!
# Bodies of declarations

The body of a declaration is passed over as a whole: the step that finds a declaration reads what
stands in front of the body, looks for the closing brace, and goes on behind it. So another body
whose braces are balanced leads to the same declaration, and the pass goes on in the same place.

## Main definitions

* `BracesBalanced`: no brace is closed before it is opened, and all are closed in the end.
* `Event.bodyBrace?`: the place of the brace that opens the body of what an event declares.

## Main statements

* `BracesBalanced.closeOffset?_eq`: balanced braces are passed over.
* `Event.step_type_body`, `Event.step_function_body`: the step that finds a declaration does not
  depend on its body.
-/

namespace PhpOutline

/-- No more braces are closed than have been opened, and in the end as many. -/
structure BracesBalanced (ks : List Kind) : Prop where
  within : ∀ front ∈ ks.inits,
    front.count (.closer .brace) ≤ front.count (.opener .brace)
  total : ks.count (.closer .brace) = ks.count (.opener .brace)

theorem Kind.opens_eq_brace {k : Kind} : k.opens = some .brace ↔ k = .opener .brace := by
  cases k <;> simp [opens]

theorem Kind.closes_eq_some {k : Kind} {b : Bracket} : k.closes = some b ↔ k = .closer b := by
  cases k <;> simp [closes]

/-- Braces are balanced when no more of them are closed than have been opened, and in the end as
many. -/
theorem BracesBalanced.balanced {ks : List Kind} (h : BracesBalanced ks) :
    Bracket.brace.Balanced ks := by
  have hclosings : ∀ ks, Bracket.brace.closings ks = ks.count (.closer .brace) := by
    intro ks
    refine List.countP_congr ?_
    intro k _
    simp [Kind.closes_eq_some]
  have hopenings : ∀ ks, Bracket.brace.openings ks = ks.count (.opener .brace) := by
    intro ks
    refine List.countP_congr ?_
    intro k _
    simp [Kind.opens_eq_brace]
  constructor
  · intro front hmem
    rw [hclosings, hopenings]
    exact h.within front hmem
  · rw [hclosings, hopenings]
    exact h.total

/-- A brace is closed behind balanced braces. -/
theorem BracesBalanced.closeOffset?_eq {ks : List Kind} (h : BracesBalanced ks) (x : List Kind) :
    closeOffset? .brace 1 (ks ++ .closer .brace :: x) = some ks.length :=
  h.balanced.closeOffset?_eq rfl x

theorem groupEnd?_brace (ks : List Kind) :
    groupEnd? (.opener .brace :: ks) = (closeOffset? .brace 1 ks).map (· + 1) := by
  rw [groupEnd?]
  simp only [Kind.opens, Option.bind_some, closeOffset?, if_true]

namespace Event

/-- The brace of the body, in the entries behind the word that declares a type. -/
def typeBrace? (es : List Entry) : Option Entry :=
  (headerEnd? (Entry.kinds (es.drop 1))).bind fun n => (es.drop 1)[n]?

/-- The brace of the body, in the entries behind the word `function`. -/
def functionBrace? (es : List Entry) : Option Entry :=
  let list := es.drop (ampersands es + 1)
  (bodyOffset? (Entry.kinds list)).bind fun n => list[n]?

/-- The brace of the body of what an event declares, in the entries behind its word. -/
def brace? (es : List Entry) : Event → Option Entry
  | declaresType _ => typeBrace? es
  | declaresFunction _ => functionBrace? es
  | entersNamespace _ => none
  | imports _ => none

/-- The place of the brace that opens the body of what an event declares. -/
def bodyBrace? (t : TokenTable) (ev : Event) : Option Nat :=
  ev.site?.bind fun site =>
    (ev.brace? (Entry.significant (t.startingAt (site.keyword + 1)))).map Entry.index

variable {last last' : Nat} {st : State} {w o c c' : Entry} {m b b' r r' : List Entry}

/-! ## The step that declares something -/

/-- What a step needs in order to declare a type. -/
theorem exists_of_declaresType_emitted {es : List Entry} {site : Site}
    (h : .declaresType site ∈ (step last st w es).emitted) :
    (∃ kind, w.kind = .keyword (.declares kind)) ∧ site.keyword = w.index ∧
      st.afterNew = false ∧ ∃ name rest, es = name :: rest ∧ name.kind = .name := by
  rw [step] at h
  split at h
  case h_6 kind hkind =>
    unfold readType at h
    split at h
    case h_2 => exact absurd h notMem_unnamed
    case h_1 name rest =>
      split at h
      case isFalse => exact absurd h notMem_unnamed
      case isTrue hname =>
        split at h
        · simp [resume] at h
        · obtain rfl : site = _ := by simpa [resume] using h
          exact ⟨⟨kind, hkind⟩, rfl, hname.2, name, rest, rfl, hname.1⟩
  case h_4 => exact absurd h not_declaresType_of_mem_readNamespace
  case h_5 => exact absurd h not_declaresType_of_mem_readUse
  case h_7 => exact absurd h not_declaresType_of_mem_readFunction
  all_goals simp [resume] at h

/-- What a step needs in order to declare a function. -/
theorem exists_of_declaresFunction_emitted {es : List Entry} {site : Site}
    (h : .declaresFunction site ∈ (step last st w es).emitted) :
    w.kind = .keyword .function ∧
      ∃ name list rest, es.drop (ampersands es) = name :: list :: rest ∧ name.kind = .name ∧
        list.kind = .opener .paren ∧
        site = ⟨name.text, w.index, .ofBounds w.index
          (lastPlace last (list :: rest) (declarationEnd? (Entry.kinds (list :: rest))))⟩ := by
  rw [step] at h
  split at h
  case h_7 hkind =>
    rw [readFunction] at h
    simp only at h
    split at h
    case h_2 => simp [resume] at h
    case h_1 name list rest hes =>
      split at h
      case isFalse => simp [resume] at h
      case isTrue hname =>
        obtain rfl : site = _ := by simpa [resume] using h
        exact ⟨hkind, name, list, rest, hes, hname.1, hname.2, rfl⟩
  case h_4 => cases site?_of_mem_readNamespace h
  case h_5 => cases site?_of_mem_readUse h
  case h_6 kind _ =>
    rcases readType_cases last st kind w es with ⟨hnone, -⟩ | ⟨_, _, _, _, _, hstep⟩
    · simp [hnone] at h
    · simp [hstep, resume] at h
  all_goals simp [resume] at h

/-- Entries in order of place are told apart by their places. -/
theorem eq_of_getElem?_index {es : List Entry} (hes : es.Pairwise fun a b => a.index < b.index)
    {i j : Nat} (hi : es[i]? = some o) (hj : es[j]? = some o) : i = j := by
  have hnodup : es.Nodup := by
    refine hes.imp ?_
    rintro a _ hlt rfl
    exact Nat.lt_irrefl _ hlt
  obtain ⟨hilt, -⟩ := List.getElem?_eq_some_iff.1 hi
  exact (List.getElem?_inj hilt hnodup).1 (hi.trans hj.symm)

/-- The step that declares a type reads what stands in front of the brace of its body, and goes on
behind the closing brace. -/
theorem step_type_body {kind : TypeKind} {name : Entry}
    (hkind : w.kind = .keyword (.declares kind)) (hnew : st.afterNew = false)
    (hname : name.kind = .name)
    (hheader : headerEnd? (Entry.kinds (m ++ o :: (b ++ c :: r))) = some m.length)
    (hclose : groupEnd? (Entry.kinds (o :: (b ++ c :: r))) = some (b.length + 1)) :
    ∃ span, step last st w (name :: (m ++ o :: (b ++ c :: r))) =
      resume [.declaresType ⟨name.text, w.index, span⟩] (m.length + b.length + 3) := by
  have hdrop : (m ++ o :: (b ++ c :: r)).drop m.length = o :: (b ++ c :: r) := List.drop_left
  refine ⟨.ofBounds (st.start.getD w.index)
    (lastPlace last (o :: (b ++ c :: r)) (some (b.length + 1))), ?_⟩
  simp only [step, hkind, readType, hname, hnew, and_self, if_true, hheader, hdrop, hclose,
    Option.map_some, Option.getD_some]
  congr 1
  omega

/-- So does the step that declares a function. -/
theorem step_function_body {es : List Entry} {name list : Entry}
    (hkind : w.kind = .keyword .function)
    (hes : es.drop (ampersands es) = name :: list :: (m ++ o :: (b ++ c :: r)))
    (hname : name.kind = .name) (hlist : list.kind = .opener .paren)
    (hend : declarationEnd? (Entry.kinds (list :: (m ++ o :: (b ++ c :: r)))) =
      some (m.length + b.length + 2)) :
    ∃ span, step last st w es =
      resume [.declaresFunction ⟨name.text, w.index, span⟩]
        (ampersands es + m.length + b.length + 4) := by
  refine ⟨.ofBounds w.index (lastPlace last (list :: (m ++ o :: (b ++ c :: r)))
    (some (m.length + b.length + 2))), ?_⟩
  simp only [step, hkind, readFunction, hes, hname, hlist, and_self, if_true, hend,
    Option.map_some, Option.getD_some]
  congr 1
  omega

/-! ## Another body -/

/-- Where the brace of the body stands in the entries behind the word that declares a type. -/
theorem exists_of_typeBrace? {x : List Entry}
    (hsorted : (m ++ o :: x).Pairwise fun a b => a.index < b.index)
    (h : typeBrace? (m ++ o :: x) = some o) :
    ∃ name header, m = name :: header ∧
      headerEnd? (Entry.kinds (header ++ o :: x)) = some header.length := by
  obtain ⟨n, hn, ho⟩ := Option.bind_eq_some_iff.1 h
  rw [List.getElem?_drop] at ho
  have hpos : 1 + n = m.length := eq_of_getElem?_index hsorted ho (by simp)
  cases m with
  | nil => simp at hpos
  | cons name header =>
    refine ⟨name, header, rfl, ?_⟩
    rw [List.length_cons, Nat.add_comm, Nat.succ.injEq] at hpos
    rw [← hpos]
    exact hn

/-- Where the brace of the body stands in the entries behind the word `function`. -/
theorem length_of_functionBrace? {x : List Entry}
    (hsorted : (m ++ o :: x).Pairwise fun a b => a.index < b.index)
    (h : functionBrace? (m ++ o :: x) = some o) :
    ampersands (m ++ o :: x) + 1 ≤ m.length ∧
      bodyOffset? (Entry.kinds (m.drop (ampersands (m ++ o :: x) + 1) ++ o :: x)) =
        some (m.drop (ampersands (m ++ o :: x) + 1)).length := by
  obtain ⟨n, hn, ho⟩ := Option.bind_eq_some_iff.1 h
  rw [List.getElem?_drop] at ho
  have hpos : ampersands (m ++ o :: x) + 1 + n = m.length :=
    eq_of_getElem?_index hsorted ho (by simp)
  refine ⟨by omega, ?_⟩
  rw [List.drop_append_of_le_length (by omega)] at hn
  rw [hn, List.length_drop, ← hpos, Nat.add_sub_cancel_left]

/-- With another body, closed by a brace, the same type is declared, and the pass goes on behind the
other body. -/
theorem exists_step_type {site : Site}
    (hev : .declaresType site ∈ (step last st w (m ++ o :: (b ++ c :: r))).emitted)
    (hsorted : (m ++ o :: (b ++ c :: r)).Pairwise fun a b => a.index < b.index)
    (hbrace : typeBrace? (m ++ o :: (b ++ c :: r)) = some o)
    (hclose : groupEnd? (Entry.kinds (o :: (b ++ c :: r))) = some (b.length + 1))
    (hclose' : groupEnd? (Entry.kinds (o :: (b' ++ c' :: r'))) = some (b'.length + 1)) :
    ∃ ev ev', Same ev ev' ∧
      step last st w (m ++ o :: (b ++ c :: r)) = resume [ev] (m.length + b.length + 2) ∧
      step last' st w (m ++ o :: (b' ++ c' :: r')) = resume [ev'] (m.length + b'.length + 2) := by
  obtain ⟨⟨kind, hkind⟩, -, hnew, name, rest, hes, hname⟩ := exists_of_declaresType_emitted hev
  obtain ⟨name', header, rfl, hheader⟩ := exists_of_typeBrace? hsorted hbrace
  rw [List.cons_append, List.cons.injEq] at hes
  obtain ⟨rfl, -⟩ := hes
  have hheader' : headerEnd? (Entry.kinds (header ++ o :: (b' ++ c' :: r'))) =
      some header.length := by
    have hkinds : ∀ x, Entry.kinds (header ++ o :: x) =
        (Entry.kinds header ++ [o.kind]) ++ Entry.kinds x := by
      intro x
      simp [Entry.kinds]
    rw [hkinds] at hheader ⊢
    refine headerEnd?_append_of_lt hheader ?_ _
    simp [Entry.kinds]
  obtain ⟨span, hstep⟩ := @step_type_body last st w o c header b r kind name' hkind hnew hname
    hheader hclose
  obtain ⟨span', hstep'⟩ := @step_type_body last' st w o c' header b' r' kind name' hkind hnew
    hname hheader' hclose'
  refine ⟨.declaresType ⟨name'.text, w.index, span⟩, .declaresType ⟨name'.text, w.index, span'⟩,
    .declaresType ⟨rfl, trivial, trivial, trivial⟩, ?_, ?_⟩
  · rw [List.cons_append, hstep, List.length_cons]
    congr 1
    omega
  · rw [List.cons_append, hstep', List.length_cons]
    congr 1
    omega

/-- With another body, closed by a brace, the same function is declared, and the pass goes on behind
the other body. -/
theorem exists_step_function {site : Site}
    (hev : .declaresFunction site ∈ (step last st w (m ++ o :: (b ++ c :: r))).emitted)
    (ho : o.kind = .opener .brace)
    (hsorted : (m ++ o :: (b ++ c :: r)).Pairwise fun a b => a.index < b.index)
    (hbrace : functionBrace? (m ++ o :: (b ++ c :: r)) = some o)
    (hclose : groupEnd? (Entry.kinds (o :: (b ++ c :: r))) = some (b.length + 1))
    (hclose' : groupEnd? (Entry.kinds (o :: (b' ++ c' :: r'))) = some (b'.length + 1)) :
    ∃ ev ev', Same ev ev' ∧
      step last st w (m ++ o :: (b ++ c :: r)) = resume [ev] (m.length + b.length + 2) ∧
      step last' st w (m ++ o :: (b' ++ c' :: r')) = resume [ev'] (m.length + b'.length + 2) := by
  obtain ⟨hkind, name, list, rest, hes, hname, hlist, -⟩ := exists_of_declaresFunction_emitted hev
  obtain ⟨hlt, hoffset⟩ := length_of_functionBrace? hsorted hbrace
  generalize hk : ampersands (m ++ o :: (b ++ c :: r)) = k at hes hlt hoffset
  -- the ampersand, the name and the parenthesis stand in front of the brace
  have hdrop : ∀ x, (m ++ o :: x).drop k = m.drop k ++ o :: x := by
    intro x
    exact List.drop_append_of_le_length (by omega)
  obtain ⟨front, hfront⟩ : ∃ front, m.drop k = name :: list :: front := by
    have hlen : (m.drop k).length = m.length - k := List.length_drop
    rw [hdrop] at hes
    rcases hm : m.drop k with _ | ⟨name', _ | ⟨list', front⟩⟩
    · rw [hm, List.length_nil] at hlen
      omega
    · rw [hm] at hes
      simp only [List.cons_append, List.nil_append, List.cons.injEq] at hes
      rw [← hes.2.1, ho] at hlist
      cases hlist
    · rw [hm] at hes
      simp only [List.cons_append, List.cons.injEq] at hes
      exact ⟨front, by rw [hes.1, hes.2.1]⟩
  have hlength : m.length = k + front.length + 2 := by
    have hlen := congrArg List.length hfront
    simp only [List.length_drop, List.length_cons] at hlen
    omega
  have hfrom : ∀ x, (m ++ o :: x).drop (ampersands (m ++ o :: x)) =
      name :: list :: (front ++ o :: x)
      ∧ ampersands (m ++ o :: x) = k := by
    intro x
    have hsame : ampersands (m ++ o :: x) = k := by
      rw [← hk]
      cases m with
      | nil => simp at hlength
      | cons f m => rfl
    rw [hsame, hdrop, hfront]
    exact ⟨rfl, rfl⟩
  have hend : ∀ x n, groupEnd? (Entry.kinds (o :: x)) = some (n + 1) →
      declarationEnd? (Entry.kinds (list :: (front ++ o :: x))) = some (front.length + n + 2) := by
    intro x n hn
    have hkinds : ∀ y, Entry.kinds (list :: (front ++ o :: y)) =
        Entry.kinds (list :: front) ++ .opener .brace :: Entry.kinds y := by
      intro y
      simp [Entry.kinds, ho]
    rw [← List.drop_drop, hfront, List.drop_succ_cons, List.drop_zero, List.cons_append,
      hkinds] at hoffset
    have hbody : groupEnd? (.opener .brace :: Entry.kinds x) = some (n + 1) := by
      rw [← ho]
      exact hn
    have hlen : (list :: front).length = (Entry.kinds (list :: front)).length := by
      simp [Entry.kinds]
    rw [hlen] at hoffset
    rw [hkinds, declarationEnd?_of_bodyOffset? hoffset, hbody, ← hlen, List.length_cons,
      Option.map_some, Option.some.injEq]
    omega
  obtain ⟨span, hstep⟩ := @step_function_body last st w o c front b r _ name list hkind
    (hfrom _).1 hname hlist (hend _ _ hclose)
  obtain ⟨span', hstep'⟩ := @step_function_body last' st w o c' front b' r' _ name list hkind
    (hfrom _).1 hname hlist (hend _ _ hclose')
  refine ⟨.declaresFunction ⟨name.text, w.index, span⟩,
    .declaresFunction ⟨name.text, w.index, span'⟩,
    .declaresFunction ⟨rfl, trivial, trivial, trivial⟩, ?_, ?_⟩
  · rw [hstep, (hfrom _).2]
    congr 1
    omega
  · rw [hstep', (hfrom _).2]
    congr 1
    omega

theorem kind_of_typeBrace? {es : List Entry} (h : typeBrace? es = some o) :
    o.kind = .opener .brace := by
  obtain ⟨n, hn, ho⟩ := Option.bind_eq_some_iff.1 h
  have hkind := getElem?_of_headerEnd? hn
  rw [Entry.kinds, List.getElem?_map, ho] at hkind
  exact Option.some.inj hkind

theorem kind_of_functionBrace? {es : List Entry} (h : functionBrace? es = some o) :
    o.kind = .opener .brace := by
  obtain ⟨n, hn, ho⟩ := Option.bind_eq_some_iff.1 h
  have hkind := getElem?_of_bodyOffset? hn
  rw [Entry.kinds, List.getElem?_map, ho] at hkind
  exact Option.some.inj hkind

theorem kind_of_brace? {es : List Entry} {ev : Event} (h : ev.brace? es = some o) :
    o.kind = .opener .brace := by
  cases ev with
  | declaresType site => exact kind_of_typeBrace? h
  | declaresFunction site => exact kind_of_functionBrace? h
  | entersNamespace name => cases h
  | imports i => cases h

theorem mem_of_brace? {es : List Entry} {ev : Event} (h : ev.brace? es = some o) : o ∈ es := by
  cases ev with
  | declaresType site =>
    obtain ⟨n, -, ho⟩ := Option.bind_eq_some_iff.1 h
    exact List.mem_of_mem_drop (List.mem_of_getElem? ho)
  | declaresFunction site =>
    obtain ⟨n, -, ho⟩ := Option.bind_eq_some_iff.1 h
    exact List.mem_of_mem_drop (List.mem_of_getElem? ho)
  | entersNamespace name => cases h
  | imports i => cases h

/-- The word of a declaration is where the step stands that finds it. -/
theorem keyword_of_mem_emitted {es : List Entry} {ev : Event} {site : Site}
    (h : ev ∈ (step last st w es).emitted) (hsite : ev.site? = some site) :
    site.keyword = w.index ∧ w.kind.isDeclaring = true := by
  cases ev with
  | declaresType site =>
    cases hsite
    obtain ⟨⟨kind, hkind⟩, hkeyword, -⟩ := exists_of_declaresType_emitted h
    exact ⟨hkeyword, by rw [hkind]; rfl⟩
  | declaresFunction site =>
    cases hsite
    obtain ⟨hkind, name, list, rest, -, -, -, rfl⟩ := exists_of_declaresFunction_emitted h
    exact ⟨rfl, by rw [hkind]; rfl⟩
  | entersNamespace name => cases hsite
  | imports i => cases hsite

/-- With another body, closed by a brace, the same is declared, and the pass goes on behind the
other body. -/
theorem exists_sweep_body {ev : Event}
    (hev : ev ∈ (step last st w (m ++ o :: (b ++ c :: r))).emitted)
    (hsorted : (m ++ o :: (b ++ c :: r)).Pairwise fun a b => a.index < b.index)
    (hbrace : ev.brace? (m ++ o :: (b ++ c :: r)) = some o)
    (hclose : groupEnd? (Entry.kinds (o :: (b ++ c :: r))) = some (b.length + 1))
    (hclose' : groupEnd? (Entry.kinds (o :: (b' ++ c' :: r'))) = some (b'.length + 1)) :
    ∃ ev ev', Same ev ev' ∧
      sweep (step last) st 0 (w :: (m ++ o :: (b ++ c :: r))) = ev :: sweep (step last) {} 0 r ∧
      sweep (step last') st 0 (w :: (m ++ o :: (b' ++ c' :: r'))) =
        ev' :: sweep (step last') {} 0 r' := by
  have hsweep : ∀ {last ev b c r},
      step last st w (m ++ o :: (b ++ c :: r)) = resume [ev] (m.length + b.length + 2) →
      sweep (step last) st 0 (w :: (m ++ o :: (b ++ c :: r))) = ev :: sweep (step last) {} 0 r := by
    intro last ev b c r hstep
    have hsplit : m ++ o :: (b ++ c :: r) = (m ++ o :: (b ++ [c])) ++ r := by
      simp
    have hlength : (m ++ o :: (b ++ [c])).length = m.length + b.length + 2 := by
      simp only [List.length_append, List.length_cons, List.length_nil]
      omega
    rw [hsplit, ← hlength] at hstep
    rw [hsplit]
    exact sweep_of_step hstep
  have hsteps : ∃ ev ev', Same ev ev' ∧
      step last st w (m ++ o :: (b ++ c :: r)) = resume [ev] (m.length + b.length + 2) ∧
      step last' st w (m ++ o :: (b' ++ c' :: r')) = resume [ev'] (m.length + b'.length + 2) := by
    cases ev with
    | declaresType site => exact exists_step_type hev hsorted hbrace hclose hclose'
    | declaresFunction site =>
      exact exists_step_function hev (kind_of_brace? hbrace) hsorted hbrace hclose hclose'
    | entersNamespace name => cases hbrace
    | imports i => cases hbrace
  obtain ⟨ev, ev', hsame, hstep, hstep'⟩ := hsteps
  exact ⟨ev, ev', hsame, hsweep hstep, hsweep hstep'⟩

end Event

end PhpOutline
