import PhpOutline.Proofs.Discovery.Bodies
import PhpOutline.Proofs.Outline.Findings

/-!
# Bodies are opaque to the outline

What stands in the body of a declaration has no influence on what else is found in a file. The pass
over the file comes to the word of the declaration before it has looked behind it, passes over the
body as a whole, and goes on behind it in the state in which it begins.

## Main statements

* `exists_eq_append_of_suffix`: the brace of a body stands behind the word of its declaration.
* `Event.discover_other_body`: with another body the same is found.
* `Outline.sameFindings_of_other_body`: a body may be replaced by any tokens with balanced braces.
-/

namespace PhpOutline

/-! ## A group in braces, without what is insignificant -/

section Groups

variable {before body after : List Token} {opener closer : Token}

/-- The significant entries of a table with a group in braces. -/
theorem significant_group {t : TokenTable}
    (ht : t.tokens = before ++ opener :: (body ++ closer :: after))
    (ho : opener.kind = .opener .brace) (hc : closer.kind = .closer .brace) :
    Entry.significant (t.startingAt 0) =
      Entry.significant (Entry.number 0 before) ++ ⟨opener, before.length⟩ ::
        (Entry.significant (Entry.number (before.length + 1) body) ++
          ⟨closer, before.length + 1 + body.length⟩ ::
            Entry.significant (Entry.number (before.length + 1 + body.length + 1) after)) := by
  have hopens : opener.kind.isInsignificant = false :=
    Kind.isInsignificant_of_opens (congrArg Kind.opens ho)
  have hcloses : closer.kind.isInsignificant = false :=
    Kind.isInsignificant_of_closes (congrArg Kind.closes hc)
  rw [TokenTable.startingAt, List.drop_zero, ht, Entry.number_append, Entry.significant_append,
    Nat.zero_add, Entry.number_cons, Entry.significant_cons_of_significant hopens,
    Entry.number_append, Entry.significant_append, Entry.number_cons,
    Entry.significant_cons_of_significant hcloses]

/-- The braces around a body are those around its significant entries. -/
theorem groupEnd?_significant {o c : Entry} {i : Nat} (ho : o.kind = .opener .brace)
    {x : List Kind} (h : closeOffset? .brace 1 (body.map Token.kind ++ c.kind :: x) =
      some body.length) (r : List Entry) :
    groupEnd? (Entry.kinds (o :: (Entry.significant (Entry.number i body) ++ c :: r))) =
      some ((Entry.significant (Entry.number i body)).length + 1) := by
  have hkinds : Entry.kinds (Entry.significant (Entry.number i body)) =
      (body.map Token.kind).filter fun k => !k.isInsignificant := by
    rw [Entry.kinds_significant, Entry.kinds_number]
  have hlength : (Entry.significant (Entry.number i body)).length =
      ((body.map Token.kind).filter fun k => !k.isInsignificant).length := by
    rw [← hkinds, Entry.kinds, List.length_map]
  have hbrackets : ∀ k : Kind, (!k.isInsignificant) = false → k.opens = none ∧ k.closes = none := by
    intro k hk
    exact Kind.no_bracket_of_isInsignificant (by simpa using hk)
  have hfilter := closeOffset?_filter hbrackets (by rwa [List.length_map]) (Entry.kinds r)
  have hall : Entry.kinds (o :: (Entry.significant (Entry.number i body) ++ c :: r)) =
      .opener .brace :: ((body.map Token.kind).filter (fun k => !k.isInsignificant) ++
        c.kind :: Entry.kinds r) := by
    rw [← hkinds, ← ho]
    simp [Entry.kinds]
  rw [hall, groupEnd?_brace, hfilter, hlength]
  rfl

/-- The group that begins behind some tokens of a table. -/
theorem closeOffset?_of_matchingClose? {t : TokenTable}
    (ht : t.tokens = before ++ opener :: (body ++ closer :: after))
    (ho : opener.kind = .opener .brace)
    (h : t.matchingClose? before.length = some (before.length + 1 + body.length)) :
    closeOffset? .brace 1 (body.map Token.kind ++ closer.kind :: after.map Token.kind) =
      some body.length := by
  rw [TokenTable.matchingClose?, TokenTable.startingAt_length ht, Entry.kinds_number, List.map_cons,
    ho, groupEnd?_brace, Option.map_map, List.map_append, List.map_cons] at h
  obtain ⟨n, hn, hlength⟩ := Option.map_eq_some_iff.1 h
  have hlength : before.length + (n + 1) = before.length + 1 + body.length := hlength
  obtain rfl : n = body.length := by omega
  exact hn

end Groups

/-- Of the entries behind `w`, one that stands at the place of `o` is `o`, and what follows `o` is
what follows it among all. -/
theorem exists_eq_append_of_suffix {all front x rest : List Entry} {w o o' : Entry}
    (hall : all = front ++ o :: x) (hsorted : all.Pairwise fun a b => a.index < b.index)
    (hsuffix : w :: rest <:+ all) (ho' : o' ∈ rest) (hindex : o'.index = o.index) :
    o' = o ∧ ∃ m, rest = m ++ o :: x := by
  have hrest : rest <:+ all := (List.suffix_cons w rest).trans hsuffix
  have ho : o ∈ all := by
    rw [hall]
    simp
  obtain rfl : o' = o := Entry.eq_of_index_eq hsorted (hrest.subset ho') ho hindex
  refine ⟨rfl, ?_⟩
  have hx : o' :: x <:+ all := ⟨front, hall.symm⟩
  rcases List.suffix_or_suffix_of_suffix hx hrest with ⟨m, hm⟩ | hshort
  · exact ⟨m, hm.symm⟩
  · rcases List.suffix_cons_iff.1 hshort with heq | hbehind
    · exact ⟨[], heq⟩
    -- the entries behind `o` all have later places
    · have hlt := (List.pairwise_cons.1 (hsorted.sublist hx.sublist)).1 o' (hbehind.subset ho')
      exact absurd hlt (Nat.lt_irrefl _)

namespace Event

variable {t u : TokenTable} {before body body' after : List Token} {opener closer : Token}

/-- Where the pass finds a declaration with a body, and where its body begins. -/
theorem exists_reaches_of_bodyBrace? {ev : Event} {front x : List Entry} {o : Entry}
    (hall : Entry.significant (t.startingAt 0) = front ++ o :: x)
    (hev : ev ∈ discover t) (hbrace : ev.bodyBrace? t = some o.index) :
    ∃ st w m, Reaches (step t.lastIndex) {} (front ++ o :: x) st (w :: (m ++ o :: x)) ∧
      ev ∈ (step t.lastIndex st w (m ++ o :: x)).emitted ∧ w.kind.isDeclaring = true ∧
      (m ++ o :: x).Pairwise (fun a b => a.index < b.index) ∧
      ev.brace? (m ++ o :: x) = some o := by
  obtain ⟨st, w, rest, hreaches, hemitted⟩ := exists_reaches_of_mem_sweep hev
  obtain ⟨site, hsite, hbrace⟩ := Option.bind_eq_some_iff.1 hbrace
  obtain ⟨o', ho', hindex⟩ := Option.map_eq_some_iff.1 hbrace
  obtain ⟨hkeyword, hdeclaring⟩ := keyword_of_mem_emitted hemitted hsite
  rw [hkeyword, TokenTable.significant_startingAt hreaches.suffix] at ho'
  have hsorted : (Entry.significant (t.startingAt 0)).Pairwise fun a b => a.index < b.index :=
    (Entry.pairwise_number _ _).filter _
  obtain ⟨rfl, m, rfl⟩ :=
    exists_eq_append_of_suffix hall hsorted hreaches.suffix (mem_of_brace? ho') hindex
  have hbehind := (List.pairwise_cons.1 (hsorted.sublist hreaches.suffix.sublist)).2
  rw [hall] at hreaches
  exact ⟨st, w, m, hreaches, hemitted, hdeclaring, hbehind, ho'⟩

/-- A body begins with a brace. -/
theorem kind?_of_bodyBrace? {ev : Event} {i : Nat} (h : ev.bodyBrace? t = some i) :
    t.kind? i = some (.opener .brace) := by
  obtain ⟨site, -, hbrace⟩ := Option.bind_eq_some_iff.1 h
  obtain ⟨o, ho, rfl⟩ := Option.map_eq_some_iff.1 hbrace
  have hmem : o ∈ t.startingAt 0 := by
    apply List.mem_of_mem_drop
    rw [← TokenTable.startingAt_eq_drop]
    exact List.mem_of_mem_filter (mem_of_brace? ho)
  rw [TokenTable.kind?_index hmem, kind_of_brace? ho]

/-- The pass finds the same with another body: what it finds in front of the word does not depend on
what follows it, its step at the word passes over the body, and behind the body it goes on in the
same state. -/
theorem sweep_other_body {last last' : Nat} {st : State} {w o c c' : Entry}
    {s m b b' r r' : List Entry} {ev : Event} (hdeclaring : w.kind.isDeclaring = true)
    (hreaches : Reaches (step last) {} (s ++ o :: (b ++ c :: r)) st
      (w :: (m ++ o :: (b ++ c :: r))))
    (hev : ev ∈ (step last st w (m ++ o :: (b ++ c :: r))).emitted)
    (hsorted : (m ++ o :: (b ++ c :: r)).Pairwise fun a b => a.index < b.index)
    (hbrace : ev.brace? (m ++ o :: (b ++ c :: r)) = some o)
    (hclose : groupEnd? (Entry.kinds (o :: (b ++ c :: r))) = some (b.length + 1))
    (hclose' : groupEnd? (Entry.kinds (o :: (b' ++ c' :: r'))) = some (b'.length + 1))
    (hr : List.Forall₂ (Entry.Alike fun _ _ => True) r r') :
    List.Forall₂ Same (sweep (step last) {} 0 (s ++ o :: (b ++ c :: r)))
      (sweep (step last') {} 0 (s ++ o :: (b' ++ c' :: r'))) := by
  obtain ⟨events, events', hevents, hleft, hright⟩ :=
    @exists_sweep_of_reaches last last' {} w s (o :: (b ++ c :: r)) st m (List.cons_ne_nil o _)
      hdeclaring hreaches (o :: (b' ++ c' :: r'))
  obtain ⟨found, found', hfound, hbody, hbody'⟩ :=
    @exists_sweep_body last last' st w o c c' m b b' r r' ev hev hsorted hbrace hclose hclose'
  have hstart : State.Alike (fun _ _ => True) {} {} := ⟨rfl, .none⟩
  have hbehind : List.Forall₂ Same (sweep (step last) {} 0 r) (sweep (step last') {} 0 r') := by
    refine sweep_forall₂ ?_ hstart 0 hr
    intro st st' e e' es es' hst he hes
    exact step_alike (places_true _ _) hst he hes
  rw [hleft, hbody, hright, hbody']
  exact List.rel_append hevents (.cons hfound hbehind)

/-- With another body between the braces of a declaration the same is found. -/
theorem discover_other_body {ev : Event}
    (ht : t.tokens = before ++ opener :: (body ++ closer :: after))
    (hu : u.tokens = before ++ opener :: (body' ++ closer :: after))
    (hev : ev ∈ discover t) (hbrace : ev.bodyBrace? t = some before.length)
    (hclose : t.matchingClose? before.length = some (before.length + 1 + body.length))
    (hbody : BracesBalanced (body'.map Token.kind)) :
    List.Forall₂ Same (discover t) (discover u) := by
  have ho : opener.kind = .opener .brace := by
    have hkind := kind?_of_bodyBrace? hbrace
    rw [TokenTable.kind?, TokenTable.get?, ht] at hkind
    simpa using hkind
  have hoffset := closeOffset?_of_matchingClose? ht ho hclose
  have hc : closer.kind = .closer .brace :=
    Kind.closes_eq_some.1 (closes_of_closeOffset? (by rwa [List.length_map]))
  have hoffset' : closeOffset? .brace 1 (body'.map Token.kind ++ closer.kind :: []) =
      some body'.length := by
    rw [hc, hbody.closeOffset?_eq, List.length_map]
  have hall := significant_group ht ho hc
  obtain ⟨st, w, m, hreaches, hemitted, hdeclaring, hsorted, hbrace⟩ :=
    exists_reaches_of_bodyBrace? hall hev hbrace
  rw [discover, discover, hall, significant_group hu ho hc]
  refine sweep_other_body hdeclaring hreaches hemitted hsorted hbrace
    (groupEnd?_significant ho hoffset _) (groupEnd?_significant ho hoffset' _) ?_
  apply Entry.forall₂_alike_of_map_word
  rw [Entry.map_toToken_significant, Entry.map_toToken_significant]

end Event

namespace Outline

/-- What stands between the braces of a declaration may be replaced by any tokens whose braces are
balanced: the same namespaces, imports, types and functions are found, in the same contexts. -/
theorem sameFindings_of_other_body {t u : TokenTable} {before body body' after : List Token}
    {opener closer : Token} {ev : Event}
    (ht : t.tokens = before ++ opener :: (body ++ closer :: after))
    (hu : u.tokens = before ++ opener :: (body' ++ closer :: after))
    (hev : ev ∈ Event.discover t) (hbrace : ev.bodyBrace? t = some before.length)
    (hclose : t.matchingClose? before.length = some (before.length + 1 + body.length))
    (hbody : BracesBalanced (body'.map Token.kind)) :
    (ofTable t).SameFindings (ofTable u) :=
  sameFindings_ofTable (Event.discover_other_body ht hu hev hbrace hclose hbody)

/-- A class behind a stray parenthesis, and a function behind it. -/
def bodySample : TokenTable :=
  (SourceFile.ofSource {}
    "<?php ) namespace N;class A{const X;}function g(){}".toList).table

/-- What would be found outside a body, and a parenthesis that stays open. -/
def strayBody : List Token :=
  (lex {} "<?php namespace M;function h(){}(".toList).tokens.drop 1

/-- The class with the stray tokens in its body. -/
def strayBodySample : TokenTable :=
  { bodySample with
    tokens := bodySample.tokens.take 11 ++ (strayBody ++ bodySample.tokens.drop 15) }

/-- The stray tokens are balanced in their braces, so they change nothing. -/
theorem sameFindings_stray_body :
    BracesBalanced (strayBody.map Token.kind) ∧
      (ofTable bodySample).SameFindings (ofTable strayBodySample) := by
  have hbalanced : BracesBalanced (strayBody.map Token.kind) :=
    ⟨by decide +kernel, by decide +kernel⟩
  exact ⟨hbalanced, @sameFindings_of_other_body bodySample strayBodySample
    (bodySample.tokens.take 10) ((bodySample.tokens.take 15).drop 11) strayBody
    (bodySample.tokens.drop 16) ⟨.opener .brace, ['{'], 1, 27⟩ ⟨.closer .brace, ['}'], 1, 36⟩
    (.declaresType ⟨['A'], 7, ⟨7, 15, by decide⟩⟩) (by decide +kernel) (by decide +kernel)
    (by decide +kernel) (by decide +kernel) (by decide +kernel) hbalanced⟩

end Outline

end PhpOutline
