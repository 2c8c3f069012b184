import PhpOutline.Proofs.Discovery.Alike
import PhpOutline.Proofs.Outline.Replay
import PhpOutline.Proofs.TokenTable.Windows
import PhpOutline.SourceFile

/-!
# What is found in a file, apart from places

White space, comments, tags and the text outside them change the places of declarations in a file,
and nothing else that is found there.

## Main definitions

* `Outline.SameFindings`: outlines that differ in the places of declarations only.
* `Declared.Alike`, `Outline.Alike`: the same at related places.
* `Token.word`: a token without its place.
* `TokenTable.words`: what the significant tokens of a file say.

## Main statements

* `Outline.Alike.apply`, `Outline.alike_replay`: like events lead to outlines that are alike.
* `Outline.sameFindings_of_words_eq`: the significant tokens decide what is found.
-/

namespace PhpOutline

/-- A token without its place. -/
def Token.word (t : Token) : Kind × Text := (t.kind, t.text)

/-- What the significant tokens of a file say, in order. -/
def TokenTable.words (t : TokenTable) : List (Kind × Text) :=
  (t.tokens.filter Token.isSignificant).map Token.word

/-- Declarations of the same name in the same context, at places that `P` relates and with ends that
`L` relates. -/
structure Declared.Alike (P L : Nat → Nat → Prop) (d d' : Declared) : Prop where
  name : d.name = d'.name
  context : d.context = d'.context
  keyword : P d.keyword d'.keyword
  first : P d.span.first d'.span.first
  last : L d.span.last d'.span.last

namespace Outline

/-- Outlines with the same namespaces and imports, and with declarations of the same names in the
same contexts, in the same order. -/
structure SameFindings (o o' : Outline) : Prop where
  /-- The namespace and the imports at the end of the file. -/
  context : o.context = o'.context
  namespaces : o.namespaces = o'.namespaces
  uses : o.uses = o'.uses
  typeNames : o.types.map Declared.name = o'.types.map Declared.name
  typeContexts : o.types.map Declared.context = o'.types.map Declared.context
  functionNames : o.functions.map Declared.name = o'.functions.map Declared.name
  functionContexts : o.functions.map Declared.context = o'.functions.map Declared.context

/-- Outlines with the same contents, at places that `P` relates and with ends that `L` relates. -/
structure Alike (P L : Nat → Nat → Prop) (o o' : Outline) : Prop where
  context : o.context = o'.context
  namespaces : o.namespaces = o'.namespaces
  uses : o.uses = o'.uses
  types : List.Forall₂ (Declared.Alike P L) o.types o'.types
  functions : List.Forall₂ (Declared.Alike P L) o.functions o'.functions

variable {P L : Nat → Nat → Prop}

namespace Alike

theorem declared {o o' : Outline} (h : o.Alike P L o') {s s' : Site} (hs : s.Alike P L s') :
    (o.declared s).Alike P L (o'.declared s') := by
  refine ⟨?_, ?_, hs.keyword, hs.first, hs.last⟩
  · simp only [Outline.declared, h.context, hs.shortName]
  · exact h.context

/-- Like events keep outlines alike. -/
theorem apply {o o' : Outline} (h : o.Alike P L o') {ev ev' : Event} (hev : ev.Alike P L ev') :
    (o.apply ev).Alike P L (o'.apply ev') := by
  cases hev with
  | entersNamespace name =>
    exact ⟨rfl, by simp only [Outline.apply, h.namespaces], h.uses, h.types, h.functions⟩
  | imports i =>
    exact ⟨by simp only [Outline.apply, h.context], h.namespaces,
      by simp only [Outline.apply, h.uses], h.types, h.functions⟩
  | declaresType hsite =>
    exact ⟨h.context, h.namespaces, h.uses,
      List.rel_append h.types (.cons (h.declared hsite) .nil), h.functions⟩
  | declaresFunction hsite =>
    exact ⟨h.context, h.namespaces, h.uses, h.types,
      List.rel_append h.functions (.cons (h.declared hsite) .nil)⟩

theorem sameFindings {o o' : Outline} (h : o.Alike P L o') : o.SameFindings o' := by
  have hnames : ∀ {ds ds' : List Declared}, List.Forall₂ (Declared.Alike P L) ds ds' →
      ds.map Declared.name = ds'.map Declared.name := by
    intro ds ds' hds
    rw [← List.forall₂_eq_eq_eq, List.forall₂_map_left_iff, List.forall₂_map_right_iff]
    exact hds.imp fun _ _ hd => hd.name
  have hcontexts : ∀ {ds ds' : List Declared}, List.Forall₂ (Declared.Alike P L) ds ds' →
      ds.map Declared.context = ds'.map Declared.context := by
    intro ds ds' hds
    rw [← List.forall₂_eq_eq_eq, List.forall₂_map_left_iff, List.forall₂_map_right_iff]
    exact hds.imp fun _ _ hd => hd.context
  exact ⟨h.context, h.namespaces, h.uses, hnames h.types, hcontexts h.types, hnames h.functions,
    hcontexts h.functions⟩

end Alike

/-- After like events, outlines are alike. -/
theorem alike_replay {events events' : List Event}
    (h : List.Forall₂ (Event.Alike P L) events events') {o o' : Outline} (ho : o.Alike P L o') :
    (o.replay events).Alike P L (o'.replay events') := by
  induction h generalizing o o' with
  | nil => exact ho
  | cons hev _ ih => exact ih (ho.apply hev)

theorem alike_ofTable {t u : TokenTable}
    (h : List.Forall₂ (Event.Alike P L) (Event.discover t) (Event.discover u)) :
    (ofTable t).Alike P L (ofTable u) := by
  rw [ofTable_eq_replay, ofTable_eq_replay]
  exact alike_replay h ⟨rfl, rfl, rfl, .nil, .nil⟩

theorem sameFindings_ofTable {t u : TokenTable}
    (h : List.Forall₂ (Event.Alike P L) (Event.discover t) (Event.discover u)) :
    (ofTable t).SameFindings (ofTable u) :=
  (alike_ofTable h).sameFindings

end Outline

/-! ## The significant tokens decide -/

namespace Entry

theorem map_toToken_significant (i : Nat) (ts : List Token) :
    (significant (number i ts)).map Entry.toToken = ts.filter Token.isSignificant := by
  induction ts generalizing i with
  | nil => rfl
  | cons t ts ih =>
    by_cases ht : t.isSignificant = true
    · have he : Token.isSignificant (Entry.mk t i).toToken = true := ht
      rw [List.filter_cons_of_pos ht, ← ih (i + 1), significant, number_cons, List.filter_cons,
        if_pos he]
      rfl
    · have he : ¬ Token.isSignificant (Entry.mk t i).toToken = true := ht
      rw [List.filter_cons_of_neg ht, ← ih (i + 1), significant, number_cons, List.filter_cons,
        if_neg he]
      rfl

/-- Entries of tokens that say the same are alike, wherever they stand. -/
theorem forall₂_alike_of_map_word {es es' : List Entry}
    (h : (es.map Entry.toToken).map Token.word = (es'.map Entry.toToken).map Token.word) :
    List.Forall₂ (Alike fun _ _ => True) es es' := by
  rw [List.map_map, List.map_map, ← List.forall₂_eq_eq_eq, List.forall₂_map_left_iff,
    List.forall₂_map_right_iff] at h
  refine h.imp ?_
  intro e e' he
  exact ⟨congrArg Prod.fst he, congrArg Prod.snd he, trivial⟩

end Entry

theorem Event.places_true (last last' : Nat) :
    Places (fun _ _ => True) (fun _ _ => True) last last' :=
  ⟨fun _ => trivial, fun _ _ => trivial, trivial⟩

namespace Outline

/-- What is found in a file is decided by the kinds and the texts of its significant tokens. -/
theorem sameFindings_of_words_eq {t u : TokenTable} (h : t.words = u.words) :
    (ofTable t).SameFindings (ofTable u) := by
  have hentries : List.Forall₂ (Entry.Alike fun _ _ => True)
      (Entry.significant (t.startingAt 0)) (Entry.significant (u.startingAt 0)) := by
    apply Entry.forall₂_alike_of_map_word
    rw [TokenTable.startingAt, TokenTable.startingAt, Entry.map_toToken_significant,
      Entry.map_toToken_significant]
    exact h
  exact sameFindings_ofTable (Event.discover_alike (Event.places_true _ _) hentries)

/-- A file without anything between its words that need not be there, in two namespaces. -/
def tightSource : Text :=
  ("<?php namespace N;use P\\Q as K;final class A extends K{}namespace M;" ++
    "function f(){}").toList

/-- The same file with comments, line ends and text outside the tags in it. -/
def looseSource : Text :=
  "<b><?php namespace /* ".toList ++ '{' ::
    (" */ N ?> ; <?php ;\nuse P\\Q // ;\n as K;\n\n/** A. */ final\n" ++
      "class A # b\n  extends K { } namespace M ; function f ( ) { } ?></b>").toList

/-- In both files a class and a function are found. -/
theorem sameFindings_loose : (SourceFile.ofSource {} tightSource).table.words =
      (SourceFile.ofSource {} looseSource).table.words ∧
    (SourceFile.ofSource {} tightSource).outline.SameFindings
      (SourceFile.ofSource {} looseSource).outline :=
  ⟨by decide +kernel, sameFindings_of_words_eq (by decide +kernel)⟩

end Outline

end PhpOutline
