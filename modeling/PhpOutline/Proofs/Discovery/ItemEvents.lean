import Mathlib.Data.List.Forall2
import PhpOutline.Proofs.Discovery.ItemSyntax
import PhpOutline.Proofs.Discovery.Steps
import PhpOutline.SourceFile

/-!
# Events of the items of a file

The discovery takes the items of a file one by one: at each of them it finds the event that the item
stands for, passes over parameter lists and bodies whatever they hold, and goes on with the next
item in the state it began with.

## Main definitions

* `Item.FoundAs`: the event that an item stands for.
* `Item.Takes`: the pass takes some entries as an event and goes on behind them.

## Main statements

* `Item.exists_takes`: an item is taken as its event.
* `forall₂_discover`: the events of a file are those of its items, in order.
-/

namespace PhpOutline

/-! ## Significant pieces -/

/-- Whether a piece is a token that a reader of declarations looks at. -/
def Piece.isSignificant : Piece → Bool
  | token kind _ _ => !kind.isInsignificant
  | stray _ => false

/-- An entry as a piece of its source. -/
def Entry.piece (e : Entry) : Piece := e.toToken.piece

theorem Entry.map_piece_significant (i : Nat) (ts : List Token) :
    (significant (number i ts)).map piece = (ts.map Token.piece).filter Piece.isSignificant := by
  induction ts generalizing i with
  | nil => rfl
  | cons t ts ih =>
    rw [number_cons, List.map_cons, List.filter_cons]
    cases ht : t.kind.isInsignificant with
    | true =>
      rw [significant_cons_of_insignificant ht, ih]
      simp [Piece.isSignificant, Token.piece, ht]
    | false =>
      rw [significant_cons_of_significant ht, List.map_cons, ih]
      simp [Piece.isSignificant, Token.piece, Entry.piece, ht]

theorem exists_cons_of_map_entry {es : List Entry} {kind : Kind} {text : Text} {ps : List Piece}
    (h : es.map Entry.piece = .token kind text none :: ps) :
    ∃ e tail, es = e :: tail ∧ e.kind = kind ∧ e.text = text ∧ tail.map Entry.piece = ps := by
  obtain ⟨e, tail, rfl, he, htail⟩ := List.map_eq_cons_iff.1 h
  rw [Entry.piece, Token.piece, Piece.token.injEq] at he
  exact ⟨e, tail, rfl, he.1, he.2.1, htail⟩

theorem kindsOf_filter_significant (ps : List Piece) :
    kindsOf (ps.filter Piece.isSignificant) =
      (kindsOf ps).filter fun k => !k.isInsignificant := by
  induction ps with
  | nil => rfl
  | cons p ps ih =>
    cases p with
    | stray c => exact ih
    | token kind text fault =>
      rw [List.filter_cons, kindsOf_token, List.filter_cons, ← ih]
      cases hk : kind.isInsignificant <;> simp [Piece.isSignificant, hk]

theorem kinds_eq_kindsOf (es : List Entry) : Entry.kinds es = kindsOf (es.map Entry.piece) := by
  induction es with
  | nil => rfl
  | cons e es ih =>
    rw [List.map_cons, Entry.piece, Token.piece, kindsOf_token, ← ih]
    rfl

/-- The significant entries of a text between brackets are properly nested. -/
theorem BlockText.nested_entries (b : BlockText) {es : List Entry}
    (h : es.map Entry.piece = (codePieces b.text).filter Piece.isSignificant) :
    Nested (fun _ => True) (Entry.kinds es) := by
  rw [kinds_eq_kindsOf, h, kindsOf_filter_significant]
  exact b.nested.filter_significant

/-- The piece of a modifier. -/
def ModifierWord.piece (w : ModifierWord) : Piece :=
  .token (.keyword (.modifier w.modifier)) w.text none

theorem filter_modifierPieces (ws : List ModifierWord) :
    (modifierPieces ws).filter Piece.isSignificant = ws.map ModifierWord.piece := by
  induction ws with
  | nil => rfl
  | cons w ws ih =>
    have hsplit : modifierPieces (w :: ws) =
        w.piece :: .token .whitespace " ".toList none :: modifierPieces ws := by
      rfl
    rw [hsplit, List.filter_cons_of_pos (by rfl), List.filter_cons_of_neg (by decide), ih]
    rfl

/-! ## Items and events -/

/-- The event that an item stands for. Where the item declares something, its place is left open. -/
def Item.FoundAs : Item → Event → Prop
  | enters n, ev => ev = .entersNamespace (some n.name.text)
  | imports i, ev => ev = .imports ⟨i.key.text, i.name.text⟩
  | type t, ev => ∃ keyword span, ev = .declaresType ⟨t.name.text, keyword, span⟩
  | function f, ev => ∃ keyword span, ev = .declaresFunction ⟨f.name.text, keyword, span⟩

/-- The pass takes the entries `es` as one event, and goes on behind them in the state it began
with. -/
def Event.Takes (last : Nat) (es : List Entry) (ev : Event) : Prop :=
  ∀ rest, sweep (step last) {} 0 (es ++ rest) = ev :: sweep (step last) {} 0 rest

/-! ## One item -/

section

variable {last : Nat} {es : List Entry}

theorem NamespaceSyntax.exists_takes (n : NamespaceSyntax)
    (hes : es.map Entry.piece = n.pieces.filter Piece.isSignificant) :
    ∃ ev, (Item.enters n).FoundAs ev ∧ ev.Takes last es := by
  obtain ⟨word, es, rfl, hword, -, hes⟩ := exists_cons_of_map_entry hes
  obtain ⟨name, es, rfl, hname, htext, hes⟩ := exists_cons_of_map_entry hes
  obtain ⟨semicolon, es, rfl, hsemicolon, -, hes⟩ := exists_cons_of_map_entry hes
  obtain rfl := List.map_eq_nil_iff.1 hes
  refine ⟨_, rfl, ?_⟩
  intro rest
  rw [← n.name.stripAll_text, ← htext]
  exact Event.sweep_namespace hword hname hsemicolon

theorem ImportSyntax.exists_takes (i : ImportSyntax)
    (hes : es.map Entry.piece = i.pieces.filter Piece.isSignificant) :
    ∃ ev, (Item.imports i).FoundAs ev ∧ ev.Takes last es := by
  obtain ⟨word, es, rfl, hword, -, hes⟩ := exists_cons_of_map_entry hes
  obtain ⟨name, es, rfl, hname, htext, hes⟩ := exists_cons_of_map_entry hes
  obtain ⟨as, es, rfl, has, hasText, hes⟩ := exists_cons_of_map_entry hes
  obtain ⟨key, es, rfl, hkey, hkeyText, hes⟩ := exists_cons_of_map_entry hes
  obtain ⟨semicolon, es, rfl, hsemicolon, -, hes⟩ := exists_cons_of_map_entry hes
  obtain rfl := List.map_eq_nil_iff.1 hes
  refine ⟨_, rfl, ?_⟩
  intro rest
  have hlast : name.text.getLast? ≠ some '\\' := by
    rw [htext]
    exact i.name.getLast?_text_ne
  rw [← i.name.stripAll_text, ← htext, ← hkeyText]
  exact Event.sweep_use hword hname hlast has hasText hkey hsemicolon

/-- The pass goes over modifiers and remembers where they begin. -/
theorem exists_sweep_modifiers {ws : List ModifierWord}
    (hlead : ∀ w ∈ ws, w.modifier = .abstract ∨ w.modifier = .final ∨ w.modifier = .readonly)
    (hes : es.map Entry.piece = ws.map ModifierWord.piece) (start : Option Nat) :
    ∃ start', ∀ rest, sweep (Event.step last) { start } 0 (es ++ rest) =
      sweep (Event.step last) { start := start' } 0 rest := by
  induction ws generalizing es start with
  | nil =>
    obtain rfl := List.map_eq_nil_iff.1 hes
    exact ⟨start, fun _ => rfl⟩
  | cons w ws ih =>
    obtain ⟨e, es, rfl, he, -, hes⟩ := exists_cons_of_map_entry hes
    have hstep : ∀ rest, Event.step last { start } e rest =
        ⟨[], { start := some (start.getD e.index) }, 0⟩ := by
      intro rest
      rcases hlead w (by simp) with hw | hw | hw <;> rw [hw] at he <;> simp only [Event.step, he]
    obtain ⟨start', hsweep⟩ := ih (fun w hw => hlead w (by simp [hw])) hes
      (some (start.getD e.index))
    refine ⟨start', ?_⟩
    intro rest
    rw [List.cons_append, sweep_cons, hstep]
    exact hsweep rest

theorem TypeSyntax.filter_pieces (t : TypeSyntax) :
    t.pieces.filter Piece.isSignificant = t.modifiers.map ModifierWord.piece ++
      .token (.keyword (.declares t.word.kind)) t.word.text none ::
      .token .name t.name.text none :: .token (.opener .brace) ['{'] none ::
      ((codePieces t.body.text).filter Piece.isSignificant ++
        [.token (.closer .brace) ['}'] none]) := by
  rw [TypeSyntax.pieces, List.filter_append, filter_modifierPieces]
  simp [Piece.isSignificant, Kind.isInsignificant, Kind.isTrivia]

theorem TypeSyntax.exists_takes (t : TypeSyntax)
    (hes : es.map Entry.piece = t.pieces.filter Piece.isSignificant) :
    ∃ ev, (Item.type t).FoundAs ev ∧ ev.Takes last es := by
  rw [t.filter_pieces] at hes
  obtain ⟨modifiers, es, rfl, hmodifiers, hes⟩ := List.map_eq_append_iff.1 hes
  obtain ⟨word, es, rfl, hword, -, hes⟩ := exists_cons_of_map_entry hes
  obtain ⟨name, es, rfl, hname, htext, hes⟩ := exists_cons_of_map_entry hes
  obtain ⟨opener, es, rfl, hopener, -, hes⟩ := exists_cons_of_map_entry hes
  obtain ⟨body, es, rfl, hbody, hes⟩ := List.map_eq_append_iff.1 hes
  obtain ⟨closer, es, rfl, hcloser, -, hes⟩ := exists_cons_of_map_entry hes
  obtain rfl := List.map_eq_nil_iff.1 hes
  obtain ⟨start, hstart⟩ :=
    @exists_sweep_modifiers last modifiers t.modifiers t.leading hmodifiers none
  refine ⟨_, ⟨word.index, .ofBounds (start.getD word.index) closer.index, rfl⟩, ?_⟩
  intro rest
  have hstep : Event.step last { start } word ((name :: opener :: (body ++ [closer])) ++ rest) =
      Event.resume [.declaresType ⟨name.text, word.index,
        .ofBounds (start.getD word.index) closer.index⟩]
        (name :: opener :: (body ++ [closer])).length := by
    have h := @Event.step_type last { start } word name opener closer body rest _ t.word.kind rfl
      hword hname hopener (t.body.nested_entries hbody) hcloser
    have hlength : (name :: opener :: (body ++ [closer])).length = body.length + 3 := by
      simp
    rw [hlength, ← h]
    simp
  rw [List.append_assoc, hstart, ← htext]
  exact Event.sweep_of_step hstep

theorem FunctionSyntax.filter_pieces (f : FunctionSyntax) :
    f.method.pieces.filter Piece.isSignificant =
      .token (.keyword .function) "function".toList none :: .token .name f.name.text none ::
      .token (.opener .paren) "(".toList none ::
      ((codePieces f.parameters.text).filter Piece.isSignificant ++
        .token (.closer .paren) ")".toList none :: .token (.opener .brace) ['{'] none ::
        ((codePieces f.body.text).filter Piece.isSignificant ++
          [.token (.closer .brace) ['}'] none])) := by
  have hpieces : f.method.pieces = .token (.keyword .function) "function".toList none ::
      .token .whitespace " ".toList none :: .token .name f.name.text none ::
      .token (.opener .paren) "(".toList none :: (codePieces f.parameters.text ++
        .token (.closer .paren) ")".toList none :: .token .whitespace " ".toList none ::
        .token (.opener .brace) ['{'] none :: (codePieces f.body.text ++
          [.token (.closer .brace) ['}'] none])) := by
    rw [← f.name.kind_eq]
    rfl
  rw [hpieces]
  simp [Piece.isSignificant, Kind.isInsignificant, Kind.isTrivia]

theorem FunctionSyntax.exists_takes (f : FunctionSyntax)
    (hes : es.map Entry.piece = f.method.pieces.filter Piece.isSignificant) :
    ∃ ev, (Item.function f).FoundAs ev ∧ ev.Takes last es := by
  rw [f.filter_pieces] at hes
  obtain ⟨word, es, rfl, hword, -, hes⟩ := exists_cons_of_map_entry hes
  obtain ⟨name, es, rfl, hname, htext, hes⟩ := exists_cons_of_map_entry hes
  obtain ⟨list, es, rfl, hlist, -, hes⟩ := exists_cons_of_map_entry hes
  obtain ⟨parameters, es, rfl, hparameters, hes⟩ := List.map_eq_append_iff.1 hes
  obtain ⟨close, es, rfl, hclose, -, hes⟩ := exists_cons_of_map_entry hes
  obtain ⟨opener, es, rfl, hopener, -, hes⟩ := exists_cons_of_map_entry hes
  obtain ⟨body, es, rfl, hbody, hes⟩ := List.map_eq_append_iff.1 hes
  obtain ⟨closer, es, rfl, hcloser, -, hes⟩ := exists_cons_of_map_entry hes
  obtain rfl := List.map_eq_nil_iff.1 hes
  refine ⟨_, ⟨word.index, .ofBounds word.index closer.index, rfl⟩, ?_⟩
  intro rest
  have hstep : Event.step last {} word ((name :: list :: (parameters ++ close :: opener ::
      (body ++ [closer]))) ++ rest) =
      Event.resume [.declaresFunction ⟨name.text, word.index, .ofBounds word.index closer.index⟩]
        (name :: list :: (parameters ++ close :: opener :: (body ++ [closer]))).length := by
    have h := @Event.step_function last {} word name opener closer body rest _ _ list close
      parameters hword hname hlist (f.parameters.nested_entries hparameters) hclose hopener
      (f.body.nested_entries hbody) hcloser
    have hlength : (name :: list :: (parameters ++ close :: opener :: (body ++ [closer]))).length =
        parameters.length + body.length + 5 := by
      simp only [List.length_cons, List.length_append, List.length_nil]
      omega
    rw [hlength, ← h]
    simp
  rw [← htext]
  exact Event.sweep_of_step hstep

/-- An item is taken as the event that it stands for. -/
theorem Item.exists_takes (i : Item)
    (hes : es.map Entry.piece = i.pieces.filter Piece.isSignificant) :
    ∃ ev, i.FoundAs ev ∧ ev.Takes last es := by
  cases i with
  | enters n => exact n.exists_takes hes
  | imports i => exact i.exists_takes hes
  | type t => exact t.exists_takes hes
  | function f => exact f.exists_takes hes

end

/-! ## All items -/

/-- The pass over the lines of a file finds the items, in order. -/
theorem forall₂_sweep_items {last : Nat} {items : List Item} {ts : List Token}
    (h : ts.map Token.piece = itemLines.linePieces items) (i : Nat) :
    List.Forall₂ Item.FoundAs items
      (sweep (Event.step last) {} 0 (Entry.significant (Entry.number i ts))) := by
  induction items generalizing ts i with
  | nil =>
    obtain rfl := List.map_eq_nil_iff.1 h
    exact .nil
  | cons item items ih =>
    rw [LineSyntax.linePieces_cons] at h
    obtain ⟨part, tail, rfl, hpart, htail⟩ := List.map_eq_append_iff.1 h
    obtain ⟨newline, rest, rfl, hnewline, -, hrest⟩ := exists_cons_of_map_piece htail
    have hentries : (Entry.significant (Entry.number i part)).map Entry.piece =
        item.pieces.filter Piece.isSignificant := by
      rw [Entry.map_piece_significant, hpart]
      rfl
    obtain ⟨ev, hev, htakes⟩ := @Item.exists_takes last _ item hentries
    rw [Entry.number_append, Entry.significant_append, Entry.number_cons,
      Entry.significant_cons_of_insignificant (by simp only [hnewline]; rfl), htakes]
    exact .cons hev (ih hrest _)

/-! ## Files -/

/-- The table of a file with one item on each line. -/
def fileTable (items : List Item) : TokenTable := (SourceFile.ofSource {} (fileSource items)).table

theorem map_piece_fileTable (items : List Item) :
    (fileTable items).tokens.map Token.piece =
      .token .openTag "<?php\n".toList none :: itemLines.linePieces items := by
  have hmark : unmarked (fileSource items) = fileSource items := by rfl
  have htokens : (fileTable items).tokens =
      placed 1 0 (pieces false .html (fileSource items)) := by
    simp only [fileTable, SourceFile.ofSource, lex, hmark]
    rfl
  rw [htokens, pieces_fileSource]
  exact map_piece_placed (.cons rfl (itemLines.faultless_linePieces items))

/-- The events of a file are those of its items, in order. -/
theorem forall₂_discover (items : List Item) :
    List.Forall₂ Item.FoundAs items (Event.discover (fileTable items)) := by
  obtain ⟨tag, rest, htokens, htag, -, hrest⟩ :=
    exists_cons_of_map_piece (map_piece_fileTable items)
  have hentries : Entry.significant ((fileTable items).startingAt 0) =
      Entry.significant (Entry.number 1 rest) := by
    rw [TokenTable.startingAt, htokens, List.drop_zero, Entry.number_cons,
      Entry.significant_cons_of_insignificant (by simp only [htag]; rfl)]
  rw [Event.discover, hentries]
  exact forall₂_sweep_items hrest 1

end PhpOutline
