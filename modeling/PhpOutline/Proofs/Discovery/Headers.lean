import PhpOutline.Proofs.Declaration.Naming
import PhpOutline.Proofs.Declaration.Parts
import PhpOutline.Proofs.Discovery.Bodies
import PhpOutline.Proofs.TokenTable.Significant

/-!
# Headers of functions

The discovery passes over the parentheses in the header of a function one group after the other, up
to a semicolon or a brace. So whatever stands in the header, its parentheses are closed in it. A
function whose header has no such end reaches to the end of the file.

## Main definitions

* `ParensClosed`: tokens among which every parenthesis is closed.

## Main statements

* `parensClosed_group`: the parentheses in a group are closed in it.
* `exists_header_of_declarationEnd?`: the header that the discovery passes over.
* `Event.exists_headerEnds`: the header of a function that the discovery finds.
-/

namespace PhpOutline

/-! ## Groups of parentheses -/

/-- Every parenthesis among some tokens is closed among them. -/
def ParensClosed (ks : List Kind) : Prop :=
  ∀ before after, ks = before ++ .opener .paren :: after →
    (groupEnd? (.opener .paren :: after)).isSome

/-- With fewer brackets open, all are closed no later. -/
theorem isSome_closeOffset?_of_succ {b : Bracket} {depth : Nat} {ks : List Kind}
    (hdepth : 1 ≤ depth) (h : (closeOffset? b (depth + 1) ks).isSome) :
    (closeOffset? b depth ks).isSome := by
  induction ks generalizing depth with
  | nil => simp [closeOffset?] at h
  | cons k ks ih =>
    rw [closeOffset?] at h ⊢
    by_cases ho : k.opens = some b
    · rw [if_pos ho, Option.isSome_map] at h ⊢
      exact ih (by omega) h
    · rw [if_neg ho] at h ⊢
      by_cases hc : k.closes = some b
      · rw [if_pos hc, if_neg (by omega), Option.isSome_map, Nat.add_sub_cancel] at h
        rw [if_pos hc]
        by_cases hd : depth ≤ 1
        · rw [if_pos hd]
          rfl
        · rw [if_neg hd, Option.isSome_map]
          refine ih (by omega) ?_
          rwa [Nat.sub_add_cancel (by omega)]
      · rw [if_neg hc, Option.isSome_map] at h ⊢
        exact ih hdepth h

theorem isSome_closeOffset?_one {b : Bracket} {depth : Nat} {ks : List Kind} (hdepth : 1 ≤ depth)
    (h : (closeOffset? b depth ks).isSome) : (closeOffset? b 1 ks).isSome := by
  induction depth, hdepth using Nat.le_induction with
  | base => exact h
  | succ depth hdepth ih => exact ih (isSome_closeOffset?_of_succ hdepth h)

/-- In front of the place at which all brackets are closed, one is open at least. -/
theorem exists_closeOffset?_of_append {b : Bracket} {depth n : Nat} {ks x : List Kind}
    (hdepth : 1 ≤ depth) (h : closeOffset? b depth (ks ++ x) = some n) (hn : ks.length ≤ n) :
    ∃ d, 1 ≤ d ∧ (closeOffset? b d x).isSome := by
  induction ks generalizing depth n with
  | nil => exact ⟨depth, hdepth, by rw [List.nil_append] at h; simp [h]⟩
  | cons k ks ih =>
    have hbehind : ∀ {d}, 1 ≤ d → (closeOffset? b d (ks ++ x)).map (· + 1) = some n →
        ∃ d, 1 ≤ d ∧ (closeOffset? b d x).isSome := by
      intro d hd hmap
      obtain ⟨m, hm, rfl⟩ := Option.map_eq_some_iff.1 hmap
      exact ih hd hm (Nat.le_of_succ_le_succ hn)
    rw [List.cons_append, closeOffset?] at h
    split at h
    · exact hbehind (by omega) h
    · split at h
      · split at h
        · obtain rfl := Option.some.inj h
          simp at hn
        · exact hbehind (by omega) h
      · exact hbehind hdepth h

theorem groupEnd?_paren (ks : List Kind) :
    groupEnd? (.opener .paren :: ks) = (closeOffset? .paren 1 ks).map (· + 1) := by
  simp [groupEnd?, Kind.opens, closeOffset?]

/-- The parentheses in a group are closed in it. -/
theorem parensClosed_group {ks : List Kind} {n : Nat}
    (h : groupEnd? (.opener .paren :: ks) = some n) :
    ParensClosed (.opener .paren :: ks.take n) := by
  rw [groupEnd?_paren] at h
  obtain ⟨m, hm, rfl⟩ := Option.map_eq_some_iff.1 h
  have hlength : (ks.take (m + 1)).length = m + 1 := by
    rw [List.length_take]
    have := closeOffset?_lt hm
    omega
  have hgroup : closeOffset? .paren 1 (ks.take (m + 1)) = some m := by
    have hsplit := hm
    rw [← List.take_append_drop (m + 1) ks] at hsplit
    have := closeOffset?_append_of_lt hsplit (by omega) []
    rwa [List.append_nil] at this
  intro before after hsplit
  rw [groupEnd?_paren, Option.isSome_map]
  cases before with
  | nil =>
    obtain rfl : ks.take (m + 1) = after := (List.cons.inj hsplit).2
    rw [hgroup]
    rfl
  | cons k before =>
    -- a parenthesis further in stands where one is open already
    have hinner : ks.take (m + 1) = before ++ .opener .paren :: after := (List.cons.inj hsplit).2
    have hbefore := congrArg List.length hinner
    rw [hlength, List.length_append, List.length_cons] at hbefore
    rw [hinner] at hgroup
    obtain ⟨d, hd, hsome⟩ := exists_closeOffset?_of_append (Nat.le_refl 1) hgroup (by omega)
    rw [closeOffset?, if_pos (by rfl), Option.isSome_map] at hsome
    exact isSome_closeOffset?_one (by omega) hsome

namespace ParensClosed

theorem nil : ParensClosed [] := by
  intro before after h
  simp at h

theorem singleton {k : Kind} (hk : k ≠ .opener .paren) : ParensClosed [k] := by
  intro before after h
  have hmem : Kind.opener .paren ∈ [k] := by
    rw [h]
    simp
  exact absurd (List.mem_singleton.1 hmem).symm hk

theorem append {ks ls : List Kind} (hks : ParensClosed ks) (hls : ParensClosed ls) :
    ParensClosed (ks ++ ls) := by
  intro before after h
  rcases List.append_eq_append_iff.1 h with ⟨mid, rfl, hls'⟩ | ⟨mid, rfl, hmid⟩
  · exact hls mid after hls'
  · cases mid with
    | nil => exact hls [] after hmid.symm
    | cons k mid =>
      obtain ⟨rfl, rfl⟩ := List.cons.inj hmid
      obtain ⟨n, hn⟩ := Option.isSome_iff_exists.1 (hks before mid rfl)
      have hsame := @groupEnd?_append_of_lt n (.opener .paren :: mid) [] (by simpa using hn)
        (groupEnd?_lt hn) ls
      exact Option.isSome_iff_exists.2 ⟨n, hsame⟩

end ParensClosed

/-! ## Headers -/

theorem declarationEnd?_cons (k : Kind) (ks : List Kind) :
    declarationEnd? (k :: ks) =
      if k = .semicolon then some 0
      else if k = .opener .brace then groupEnd? (k :: ks)
      else if k = .opener .paren then
        (groupEnd? (k :: ks)).bind fun n => (declarationEnd? (ks.drop n)).map (· + n + 1)
      else (declarationEnd? ks).map (· + 1) := by
  rw [declarationEnd?, seek]
  split_ifs with hsemicolon hbrace hparen
  · subst hsemicolon
    rfl
  · subst hbrace
    simp only [endWithGroup]
    cases groupEnd? (.opener .brace :: ks) <;> rfl
  · subst hparen
    simp only [passGroup]
    cases groupEnd? (.opener .paren :: ks) with
    | none => rfl
    | some n =>
      simp only [Option.bind_some]
      rw [seek_eq_drop, Option.map_map]
      rfl
  · cases k with
    | semicolon => exact absurd rfl hsemicolon
    | opener b =>
      cases b with
      | brace => exact absurd rfl hbrace
      | paren => exact absurd rfl hparen
      | square => rfl
    | _ => rfl

/-- A function ends at one of the tokens. -/
theorem declarationEnd?_lt {n : Nat} {ks : List Kind} (h : declarationEnd? ks = some n) :
    n < ks.length := by
  refine lt_of_seek ?_ h
  intro k rest m hlook
  split at hlook
  · cases hlook
    exact Nat.succ_pos _
  · exact lt_of_endWithGroup hlook
  · exact absurd hlook (passGroup_ne_ends _ _ _)
  · cases hlook

/-- Up to the semicolon or the brace that ends a header, every parenthesis is closed. -/
theorem exists_header_of_declarationEnd? {ks : List Kind} {n : Nat}
    (h : declarationEnd? ks = some n) :
    ∃ header k rest, ks = header ++ k :: rest ∧ (k = .semicolon ∨ k = .opener .brace) ∧
      header.length ≤ n ∧ ParensClosed header := by
  induction hlength : ks.length using Nat.strong_induction_on generalizing ks n with
  | _ length ih =>
    cases ks with
    | nil => simp [declarationEnd?] at h
    | cons k ks =>
      rw [List.length_cons] at hlength
      rw [declarationEnd?_cons] at h
      split_ifs at h with hsemicolon hbrace hparen
      · exact ⟨[], k, ks, rfl, .inl hsemicolon, Nat.zero_le _, .nil⟩
      · exact ⟨[], k, ks, rfl, .inr hbrace, Nat.zero_le _, .nil⟩
      · -- a group is passed over, and the header goes on behind it
        obtain ⟨m, hm, hrest⟩ := Option.bind_eq_some_iff.1 h
        obtain ⟨i, hi, rfl⟩ := Option.map_eq_some_iff.1 hrest
        obtain ⟨header, l, rest, hsplit, hl, hle, hclosed⟩ :=
          ih (ks.drop m).length (by rw [List.length_drop]; omega) hi rfl
        have hmle : m ≤ ks.length := by
          have := groupEnd?_lt hm
          rw [List.length_cons] at this
          omega
        subst hparen
        refine ⟨.opener .paren :: ks.take m ++ header, l, rest, ?_, hl, ?_,
          (parensClosed_group hm).append hclosed⟩
        · rw [List.append_assoc, ← hsplit, List.cons_append, List.take_append_drop]
        · rw [List.length_append, List.length_cons, List.length_take]
          omega
      · obtain ⟨i, hi, rfl⟩ := Option.map_eq_some_iff.1 h
        obtain ⟨header, l, rest, rfl, hl, hle, hclosed⟩ := ih ks.length (by omega) hi rfl
        refine ⟨k :: header, l, rest, rfl, hl, Nat.succ_le_succ hle, ?_⟩
        exact (ParensClosed.singleton hparen).append hclosed

/-! ## Headers that the discovery finds -/

namespace Event

variable {t : TokenTable}

/-- Among significant entries, what closes a parenthesis of a closed header stands in it. -/
theorem closes_of_parensClosed {header rest : List Entry} {stop : Entry}
    (hes : header ++ stop :: rest <:+ Entry.significant (t.startingAt 0))
    (hclosed : ParensClosed (Entry.kinds header)) {e : Entry} (he : e ∈ header)
    (hkind : e.kind = .opener .paren) :
    ∃ j, t.matchingClose? e.index = some j ∧ j < stop.index := by
  obtain ⟨before, after, rfl⟩ := List.append_of_mem he
  have hsuffix : e :: (after ++ stop :: rest) <:+ Entry.significant (t.startingAt 0) := by
    rw [List.append_assoc, List.cons_append] at hes
    exact (List.suffix_append before _).trans hes
  have hmem : e ∈ t.startingAt 0 := List.mem_of_mem_filter (hsuffix.subset List.mem_cons_self)
  obtain ⟨n, hn⟩ := Option.isSome_iff_exists.1
    (hclosed (Entry.kinds before) (Entry.kinds after) (by simp [Entry.kinds, hkind]))
  have hlt : n < (e :: after).length := by
    have := groupEnd?_lt hn
    simpa [Entry.kinds] using this
  have hclose : Entry.closer? (e :: (after ++ stop :: rest)) = some (e :: after)[n] := by
    have hgroup := @groupEnd?_append_of_lt n (.opener .paren :: Entry.kinds after) []
      (by simpa using hn) (groupEnd?_lt hn) (Entry.kinds (stop :: rest))
    have hkinds : Entry.kinds (e :: (after ++ stop :: rest)) =
        .opener .paren :: Entry.kinds after ++ Entry.kinds (stop :: rest) := by
      simp [Entry.kinds, hkind]
    rw [Entry.closer?, hkinds, hgroup, Option.bind_some, ← List.cons_append,
      List.getElem?_append_left hlt, List.getElem?_eq_getElem hlt]
  have hsignificant : e.kind.isInsignificant = false := by
    rw [hkind]
    rfl
  refine ⟨(e :: after)[n].index, ?_, ?_⟩
  · rw [TokenTable.matchingClose?_eq, TokenTable.startingAt_index hmem,
      ← Entry.closer?_significant hsignificant, TokenTable.significant_startingAt hsuffix, hclose]
    rfl
  · have hsorted : (e :: after ++ stop :: rest).Pairwise fun a b => a.index < b.index :=
      ((Entry.pairwise_number _ _).filter _).sublist hsuffix.sublist
    exact (List.pairwise_append.1 hsorted).2.2 _ (List.getElem_mem hlt) stop List.mem_cons_self

/-- Between two of them, the significant entries of a table are those of a part. -/
theorem mem_of_index_lt {name stop e : Entry} {header rest : List Entry}
    (hes : name :: header ++ stop :: rest <:+ Entry.significant (t.startingAt 0))
    (he : e ∈ Entry.significant (t.startingAt 0)) (hname : name.index ≤ e.index)
    (hstop : e.index < stop.index) : e ∈ name :: header := by
  obtain ⟨front, hfront⟩ := hes
  have hsorted : (front ++ (name :: header ++ stop :: rest)).Pairwise
      fun a b => a.index < b.index := by
    rw [hfront]
    exact (Entry.pairwise_number _ _).filter _
  obtain ⟨-, hbehind, hbefore⟩ := List.pairwise_append.1 hsorted
  have hlast := List.pairwise_cons.1 (List.pairwise_append.1 hbehind).2.1
  rw [← hfront, List.mem_append, List.mem_append] at he
  rcases he with he | he | he
  · have := hbefore e he name List.mem_cons_self
    omega
  · exact he
  · rcases List.mem_cons.1 he with rfl | he
    · omega
    · have := hlast.1 e he
      omega

/-- The parameter list of a function begins with the first parenthesis behind its name. -/
theorem exists_of_mem_parameterList? {name list : Entry} {last : Nat} {l : Span}
    (hname : name.kind = .name) (hlist : list ∈ t.window (name.index + 1) (last + 1))
    (hkind : list.kind = .opener .paren)
    (hl : Callable.parameterList? last (name :: t.window (name.index + 1) (last + 1)) = some l) :
    ∃ e es, e :: es <:+ t.window (name.index + 1) (last + 1) ∧ e.kind = .opener .paren ∧
      e.index ≤ list.index ∧ l = .ofBounds e.index (Callable.groupLast last (e :: es)) := by
  rw [Callable.parameterList?, List.dropWhile_cons_of_pos (by simp [hname])] at hl
  split at hl
  case h_2 => cases hl
  case h_1 e es hdrop =>
    obtain ⟨-, hparen, hfirst⟩ := Callable.first_of_dropWhile (t.pairwise_window _ _) hdrop
    exact ⟨e, es, hdrop ▸ List.dropWhile_suffix _, by simpa using hparen,
      hfirst list hlist (by simp [hkind]), (Option.some.inj hl).symm⟩

/-- A function that reaches to the end of the file is all header. -/
theorem headerEnds_of_lastIndex_le {lo last : Nat} (hlast : t.lastIndex ≤ last)
    (hlo : lo ≤ last + 1) : Callable.HeaderEnds t lo last (last + 1) where
  lo_le := hlo
  le := Nat.le_refl _
  ends := by omega
  closes := by
    intro e _ _ j hj
    rw [TokenTable.matchingClose?_eq] at hj
    obtain ⟨closer, hcloser, rfl⟩ := Option.map_eq_some_iff.1 hj
    obtain ⟨n, -, hn⟩ := Option.bind_eq_some_iff.1 hcloser
    have hmem := List.mem_of_getElem? hn
    rw [TokenTable.startingAt_eq_drop] at hmem
    have := (TokenTable.index_le_lastIndex (List.mem_of_mem_drop hmem)).1
    omega

/-- The header that the discovery passes over, from the parameter list to the entry that ends it. -/
theorem exists_stop_of_declarationEnd? {list : Entry} {rest : List Entry} {n last : Nat}
    (hsorted : (list :: rest).Pairwise fun a b => a.index < b.index)
    (hlist : list.kind = .opener .paren)
    (hend : declarationEnd? (Entry.kinds (list :: rest)) = some n)
    (hlast : ∀ e ∈ (list :: rest)[n]?, e.index ≤ last) :
    ∃ header stop after, rest = header ++ stop :: after ∧
      (stop.kind = .semicolon ∨ stop.kind = .opener .brace) ∧
      ParensClosed (Entry.kinds (list :: header)) ∧ stop.index ≤ last := by
  obtain ⟨kinds, k, behind, hkinds, hk, hlength, hclosed⟩ := exists_header_of_declarationEnd? hend
  obtain ⟨header, tail, hsplit, rfl, htail⟩ := List.map_eq_append_iff.1 hkinds
  obtain ⟨stop, after, rfl, rfl, -⟩ := List.map_eq_cons_iff.1 htail
  have hn : n < (header ++ stop :: after).length := by
    have hlt := declarationEnd?_lt hend
    rwa [Entry.kinds, List.length_map, hsplit] at hlt
  rw [hsplit] at hsorted hlast
  have hstop : stop.index ≤ last := by
    rw [List.length_map] at hlength
    have hget := List.getElem?_eq_getElem hn
    have hle := hlast _ hget
    rw [List.getElem?_append_right hlength] at hget
    rcases List.mem_cons.1 (List.mem_of_getElem? hget) with heq | hafter
    · rwa [heq] at hle
    · have := (List.pairwise_cons.1 (List.pairwise_append.1 hsorted).2.1).1 _ hafter
      omega
  -- the parameter list is no end, so it stands in the header
  cases header with
  | nil =>
    obtain rfl : list = stop := (List.cons.inj hsplit).1
    simp [hlist] at hk
  | cons e header =>
    obtain ⟨rfl, rfl⟩ := List.cons.inj hsplit
    exact ⟨header, stop, after, rfl, hk, hclosed, hstop⟩

/-- Every parenthesis between the name of a function and the end of its header is closed there. -/
theorem closes_of_index_lt {name stop e : Entry} {header rest : List Entry}
    (hes : name :: header ++ stop :: rest <:+ Entry.significant (t.startingAt 0))
    (hname : name.kind = .name) (hclosed : ParensClosed (Entry.kinds header))
    (he : e ∈ t.startingAt 0) (hparen : e.kind = .opener .paren) (hfrom : name.index ≤ e.index)
    (hto : e.index < stop.index) : ∃ j, t.matchingClose? e.index = some j ∧ j < stop.index := by
  have hsignificant : e ∈ Entry.significant (t.startingAt 0) :=
    List.mem_filter.2 ⟨he, by rw [Entry.isSignificant_eq, hparen]; rfl⟩
  have hall : ParensClosed (Entry.kinds (name :: header)) :=
    (ParensClosed.singleton (by simp [hname])).append hclosed
  exact closes_of_parensClosed hes hall (mem_of_index_lt hes hsignificant hfrom hto) hparen

/-- The header that the discovery passes over ends the header of the function. -/
theorem headerEnds_of_declarationEnd? {name list : Entry} {rest : List Entry} {n last : Nat}
    (hes : name :: list :: rest <:+ Entry.significant (t.startingAt 0)) (hname : name.kind = .name)
    (hlist : list.kind = .opener .paren)
    (hend : declarationEnd? (Entry.kinds (list :: rest)) = some n)
    (hlast : ∀ e ∈ (list :: rest)[n]?, e.index ≤ last) {l : Span}
    (hl : Callable.parameterList? last (name :: t.window (name.index + 1) (last + 1)) = some l) :
    ∃ stop, Callable.HeaderEnds t (l.last + 1) last stop := by
  have hsorted : (name :: list :: rest).Pairwise fun a b => a.index < b.index :=
    ((Entry.pairwise_number _ _).filter _).sublist hes.sublist
  obtain ⟨hbehind, hsorted⟩ := List.pairwise_cons.1 hsorted
  obtain ⟨header, stop, after, rfl, hstop, hclosed, hle⟩ :=
    exists_stop_of_declarationEnd? hsorted hlist hend hlast
  have hes : name :: (list :: header) ++ stop :: after <:+ Entry.significant (t.startingAt 0) := hes
  have hlistStop : list.index < stop.index := (List.pairwise_cons.1 hsorted).1 stop (by simp)
  have hnameList : name.index < list.index := hbehind list List.mem_cons_self
  obtain ⟨e, es, hwindow, hparen, hfirst, rfl⟩ :=
    exists_of_mem_parameterList? hname
      (TokenTable.mem_window (List.mem_of_mem_filter (hes.subset (by simp))) hnameList (by omega))
      hlist hl
  have hbounds := TokenTable.bounds_of_mem_window (hwindow.subset List.mem_cons_self)
  have he := TokenTable.mem_startingAt_of_mem_window (hwindow.subset List.mem_cons_self)
  obtain ⟨j, hj, hjlt⟩ := closes_of_index_lt hes hname hclosed he hparen (by omega) (by omega)
  rw [Callable.groupLast_eq hwindow hj (by omega)]
  refine ⟨stop.index, ?_, by omega, ?_, ?_⟩
  · rw [Span.last_ofBounds]
    omega
  · intro _
    rw [TokenTable.kind?_index (List.mem_of_mem_filter (hes.subset (by simp)))]
    exact hstop.imp (congrArg some) (congrArg some)
  · intro a ha hparen i hi
    have hin := TokenTable.bounds_of_mem_window ha
    rw [Span.last_ofBounds] at hin
    obtain ⟨j', hj', hlt⟩ := closes_of_index_lt hes hname hclosed
      (TokenTable.mem_startingAt_of_mem_window ha) hparen (by omega) hin.2
    obtain rfl : j' = i := Option.some.inj (hj'.symm.trans hi)
    exact hlt

/-- The parentheses in the header of a function that the discovery finds are closed in it. -/
theorem exists_headerEnds {site : Site} (h : .declaresFunction site ∈ discover t)
    (context : NameContext) (scope : Option ClassScope) (inInterface : Bool) :
    ∀ l ∈ (Callable.read t context scope inInterface site.span).parameterList,
      ∃ stop, Callable.HeaderEnds t (l.last + 1) site.span.last stop := by
  obtain ⟨st, word, es, hsuffix, h⟩ := exists_step_of_mem_sweep h
  obtain ⟨hkind, name, list, rest, hes, hname, hlist, hsite⟩ := exists_of_declaresFunction_emitted h
  intro l hl
  have hinside := Callable.inside_of_mem_parameterList t context scope inInterface _ l hl
  have hbehind : name :: list :: rest <:+ Entry.significant (t.startingAt 0) := by
    rw [← hes]
    exact ((List.drop_suffix _ es).trans (List.suffix_cons word es)).trans hsuffix
  cases hend : declarationEnd? (Entry.kinds (list :: rest)) with
  | none =>
    refine ⟨_, headerEnds_of_lastIndex_le ?_ (Nat.succ_le_succ hinside.2)⟩
    rw [hsite, hend]
    exact Nat.le_max_right _ _
  | some n =>
    have hlast : ∀ e ∈ (list :: rest)[n]?, e.index ≤ site.span.last := by
      intro e he
      have hplace : lastPlace t.lastIndex (list :: rest) (some n) = e.index := by
        rw [lastPlace, Option.bind_some, Option.mem_def.1 he]
        rfl
      rw [hsite, hend, hplace]
      exact Nat.le_max_right _ _
    have hlt : name.index < site.span.last + 1 := by
      have hn : n < (list :: rest).length := by
        have := declarationEnd?_lt hend
        rwa [Entry.kinds, List.length_map] at this
      have hsorted : (name :: list :: rest).Pairwise fun a b => a.index < b.index :=
        ((Entry.pairwise_number _ _).filter _).sublist hbehind.sublist
      have hle := hlast _ (List.getElem?_eq_getElem hn)
      have := (List.pairwise_cons.1 hsorted).1 _ (List.getElem_mem hn)
      omega
    have hwithin : t.within site.span =
        [] ++ word :: t.window (word.index + 1) (site.span.last + 1) := by
      have hword := List.mem_of_mem_filter (hsuffix.subset List.mem_cons_self)
      have hordered := site.span.ordered
      have hfirst : site.span.first = word.index := by rw [hsite]; rfl
      rw [TokenTable.within, hfirst]
      exact TokenTable.window_index hword (by omega)
    refine headerEnds_of_declarationEnd? hbehind hname hlist hend hlast ?_
    have hlead := @Callable.Skips.rest_leadIn [] (t.window (word.index + 1) (site.span.last + 1))
      word .nil hkind
    rw [← Callable.naming_window hsuffix hes hname hlt, ← hlead, ← hwithin]
    exact hl

end Event

end PhpOutline
