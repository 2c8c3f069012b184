import PhpOutline.Proofs.Lexing.Newline
import PhpOutline.Proofs.Outline.Shifts

/-!
# A line end at the end of a file

A line end behind a file without faults that ends in code is insignificant, and leaves every token
before it where it was. So the same is found in the file, and a declaration that is closed reads
the same. One that is not closed runs to the last token of the file, which is taken for its closing
bracket and left out of its contents. The line end then makes a difference, since without it the
last token is one of the declaration.

## Main definitions

* `Text.IsBoundary`: places between the characters of a text.
* `SourceFile.SameUnlessOpen`: two files in which the closed declarations are the same.

## Main statements

* `TokenTable.shift_of_common_pieces`: two texts with pieces in common, as tables.
* `SourceFile.sameUnlessOpen_newline`: a line end changes nothing that is closed.
* `SourceFile.newline_shows_last_property`: it does change what is not.
-/

namespace PhpOutline

/-! ## Texts with a part in common -/

namespace Text

/-- A place between two characters of a text, counted in bytes. -/
def IsBoundary (s : Text) (i : Nat) : Prop := ∃ a b, s = a ++ b ∧ i = byteSize a

theorem IsBoundary.le {s : Text} {i : Nat} (h : s.IsBoundary i) : i ≤ byteSize s := by
  obtain ⟨a, b, rfl, rfl⟩ := h
  rw [byteSize_append]
  exact Nat.le_add_right _ _

theorem takeBytes_append_of_le {s : Text} {n : Nat} (h : n ≤ byteSize s) (t : Text) :
    takeBytes n (s ++ t) = takeBytes n s := by
  induction s generalizing n with
  | nil =>
    obtain rfl : n = 0 := Nat.le_zero.1 h
    rw [takeBytes_zero, takeBytes_zero]
  | cons c s ih =>
    cases n with
    | zero => rw [takeBytes_zero, takeBytes_zero]
    | succ n =>
      rw [byteSize_cons] at h
      rw [List.cons_append, takeBytes, takeBytes, ih (by omega)]

/-- What follows a text does not show in its slices. -/
theorem slice_append_of_isBoundary {s : Text} {i j : Nat} (hi : s.IsBoundary i)
    (hj : s.IsBoundary j) (t : Text) : (s ++ t).slice i j = s.slice i j := by
  have hle := hj.le
  obtain ⟨a, b, rfl, rfl⟩ := hi
  rw [byteSize_append] at hle
  rw [slice, slice, List.append_assoc, dropBytes_byteSize, dropBytes_byteSize]
  exact takeBytes_append_of_le (by omega) t

end Text

/-- Tokens begin and end between the characters of their text. -/
theorem isBoundary_of_mem_placed {line : Nat} {ps : List Piece} {x : Token}
    (h : x ∈ placed line 0 ps) :
    (textOf ps).IsBoundary x.offset ∧ (textOf ps).IsBoundary x.stop := by
  obtain ⟨before, fault, after, rfl, hoffset⟩ := mem_placed h
  rw [Nat.zero_add] at hoffset
  constructor
  · exact ⟨textOf before, x.text ++ textOf after, by simp [Piece.text], hoffset⟩
  · refine ⟨textOf before ++ x.text, textOf after, by simp [Piece.text], ?_⟩
    rw [Token.stop, hoffset, Text.byteSize_append]

namespace TokenTable

/-- The table of the text that some pieces make up. -/
def ofPieces (ps : List Piece) : TokenTable := ⟨textOf ps, placed 1 0 ps⟩

/-- Two texts with pieces in common, and nothing significant behind them. -/
theorem shift_of_common_pieces {ps qs qs' : List Piece} (hqs : ∀ q ∈ qs, q.IsInsignificant)
    (hqs' : ∀ q ∈ qs', q.IsInsignificant) :
    Shift [] (placed 1 0 ps) 0 (ofPieces (ps ++ qs)) (ofPieces (ps ++ qs')) := by
  have hslice : ∀ {i j : Nat} (qs : List Piece), (textOf ps).IsBoundary i →
      (textOf ps).IsBoundary j → (textOf (ps ++ qs)).slice i j = (textOf ps).slice i j := by
    intro i j qs hi hj
    rw [textOf_append, Text.slice_append_of_isBoundary hi hj]
  constructor
  case tokens => exact ⟨_, placed_append 1 0 ps qs, fun _ => isInsignificant_of_mem_placed hqs⟩
  case shifted =>
    rw [Token.shifted_zero, List.map_id]
    exact ⟨_, placed_append 1 0 ps qs', fun _ => isInsignificant_of_mem_placed hqs'⟩
  case front => simp
  case through =>
    intro x hx y hy
    have hi := (isBoundary_of_mem_placed hx).1
    have hj := (isBoundary_of_mem_placed hy).2
    exact (hslice qs' hi hj).trans (hslice qs hi hj).symm
  case between =>
    intro x hx y hy
    have hi := (isBoundary_of_mem_placed hx).2
    have hj := (isBoundary_of_mem_placed hy).1
    exact (hslice qs' hi hj).trans (hslice qs hi hj).symm

end TokenTable

/-! ## Declarations that are closed -/

/-- The same place, or the end of either file. -/
def SameEnd (last last' i j : Nat) : Prop := j = i ∨ last ≤ i ∧ last' ≤ j

theorem Event.places_sameEnd (last last' : Nat) :
    Places (fun i j => j = i) (SameEnd last last') last last' := by
  constructor
  case ends => exact Or.inl
  case last => exact .inr ⟨Nat.le_refl _, Nat.le_refl _⟩
  case bounds =>
    rintro i i' j j' rfl (rfl | ⟨hj, hj'⟩)
    · exact .inl rfl
    · exact .inr ⟨Nat.le_trans hj (Nat.le_max_right _ _), Nat.le_trans hj' (Nat.le_max_right _ _)⟩

/-- Declarations that are alike are the same, if the second one ends before its file does. -/
theorem Declared.Alike.eq_of_lt {last last' : Nat} {d e : Declared}
    (h : d.Alike (fun i j => j = i) (SameEnd last last') e) (hlt : e.span.last < last') :
    d = e := by
  have hlast : d.span.last = e.span.last := by
    rcases h.last with hsame | ⟨-, hend⟩
    · exact hsame.symm
    · exact absurd hlt (Nat.not_lt.2 hend)
  obtain ⟨name, keyword, ⟨first, stop, hordered⟩, context⟩ := d
  obtain ⟨name', keyword', ⟨first', stop', hordered'⟩, context'⟩ := e
  simp only [Declared.mk.injEq, Span.mk.injEq]
  exact ⟨h.name, h.keyword.symm, ⟨h.first.symm, hlast⟩, h.context⟩

namespace SourceFile

/-- Two files in which the same is found, and in which every type and every function that ends
before the last token of `g` stands at the same place and reads the same. -/
structure SameUnlessOpen (f g : SourceFile) : Prop where
  findings : f.outline.SameFindings g.outline
  types : List.Forall₂ (fun d e => e.span.last < g.table.lastIndex →
    d = e ∧ f.readType d = g.readType e) f.outline.types g.outline.types
  functions : List.Forall₂ (fun d e => e.span.last < g.table.lastIndex →
    d = e ∧ f.readFunction d = g.readFunction e) f.outline.functions g.outline.functions

/-- Where the second of two files has one token more than they have in common, the closed
declarations are the same. -/
theorem sameUnlessOpen_of_shift {f g : SourceFile} (hf : f.outline = .ofTable f.table)
    (hg : g.outline = .ofTable g.table) {ts : List Token}
    (h : TokenTable.Shift [] ts 0 f.table g.table)
    (hlast : g.table.lastIndex = ts.length) : f.SameUnlessOpen g := by
  have halike : f.outline.Alike (fun i j => j = i)
      (SameEnd f.table.lastIndex g.table.lastIndex) g.outline := by
    rw [hf, hg]
    exact Outline.alike_ofTable (Event.discover_alike (Event.places_sameEnd _ _) h.forall₂_alike)
  constructor
  case findings => exact halike.sameFindings
  case types =>
    have hbounds : ∀ d ∈ f.outline.types, d.keyword ≤ d.span.last := by
      intro d hd
      rw [hf] at hd
      exact (bounds_of_mem_types hd).1
    refine ((List.forall₂_and_left _ _).2 ⟨hbounds, halike.types⟩).imp ?_
    rintro d e ⟨hkeyword, hde⟩ hlt
    obtain rfl := hde.eq_of_lt hlt
    rw [hlast] at hlt
    have hread := ClassLike.read_shifted h d.context hlt (Nat.lt_of_le_of_lt hkeyword hlt)
    exact ⟨rfl, by simpa [readType] using hread.symm⟩
  case functions =>
    refine halike.functions.imp ?_
    intro d e hde hlt
    obtain rfl := hde.eq_of_lt hlt
    rw [hlast] at hlt
    have hread := Callable.read_shifted h d.context none false hlt
    exact ⟨rfl, by simpa [readFunction] using hread.symm⟩

end SourceFile

/-! ## Files with a line end -/

theorem unmarked_newline (s : Text) : unmarked (s ++ ['\n']) = unmarked s ++ ['\n'] := by
  cases s with
  | nil => rfl
  | cons c s =>
    by_cases hc : c = '\uFEFF'
    · simp [unmarked, Text.stripOne, hc]
    · simp [unmarked, Text.stripOne, hc]

namespace SourceFile

theorem table_ofSource (o : Options) (s : Text) :
    (ofSource o s).table =
      .ofPieces (pieces o.shortOpenTags (.initial o) (unmarked s)) := by
  rw [TokenTable.ofPieces, textOf_pieces]
  rfl

/-- A line end behind a file without faults that ends in code changes nothing that is closed. -/
theorem sameUnlessOpen_newline {o : Options} {s : Text} {afterMember : Bool}
    (hmode : modeAfter (.initial o) (pieces o.shortOpenTags (.initial o) (unmarked s)) =
      .code afterMember)
    (h : (ofSource o s).diagnostics = [])
    (h' : (ofSource o (s ++ ['\n'])).diagnostics = []) :
    (ofSource o s).SameUnlessOpen (ofSource o (s ++ ['\n'])) := by
  have hfaults := faultless_of_faults_eq_nil h
  have hfaults' := faultless_of_faults_eq_nil h'
  have htable' := table_ofSource o (s ++ ['\n'])
  rw [unmarked_newline] at hfaults' htable'
  obtain ⟨ps, old, p, hps, hps', hold, hp⟩ := pieces_newline hmode hfaults hfaults'
  have hnew : ∀ q ∈ [p], q.IsInsignificant := by
    intro q hq
    rwa [List.mem_singleton.1 hq]
  have hshift := @TokenTable.shift_of_common_pieces ps old [p] hold hnew
  rw [← hps, ← hps', ← table_ofSource, ← htable'] at hshift
  refine sameUnlessOpen_of_shift rfl rfl hshift ?_
  rw [hps'] at htable' hfaults'
  have hcommon : Faultless ps := fun q hq => hfaults' q (List.mem_append_left _ hq)
  rw [TokenTable.lastIndex, htable', TokenTable.size, TokenTable.ofPieces, length_placed hfaults',
    length_placed hcommon, List.length_append]
  rfl

/-- A class that is closed, and a function that is not. -/
def halfOpenSource : Text := "<?php class A { public $x = 1; } function f($a, $b".toList

theorem sameUnlessOpen_halfOpen :
    (modeAfter .html (pieces false .html halfOpenSource) = .code false ∧
      (ofSource {} halfOpenSource).diagnostics = [] ∧
      (ofSource {} (halfOpenSource ++ ['\n'])).diagnostics = []) ∧
    (∃ e ∈ (ofSource {} (halfOpenSource ++ ['\n'])).outline.types,
      e.span.last < (ofSource {} (halfOpenSource ++ ['\n'])).table.lastIndex) ∧
    (ofSource {} halfOpenSource).SameUnlessOpen (ofSource {} (halfOpenSource ++ ['\n'])) := by
  have hmode : modeAfter .html (pieces false .html halfOpenSource) = .code false := by
    decide +kernel
  have h : (ofSource {} halfOpenSource).diagnostics = [] := by decide +kernel
  have h' : (ofSource {} (halfOpenSource ++ ['\n'])).diagnostics = [] := by decide +kernel
  exact ⟨⟨hmode, h, h'⟩, by decide +kernel, sameUnlessOpen_newline hmode h h'⟩

/-! ## Declarations that are not closed -/

/-- The names of the properties of each type in a file. -/
def propertyNames (f : SourceFile) : List (List Text) :=
  f.outline.types.map fun d => (f.readType d).properties.map fun p => p.name

/-- The names of the parameters of each function in a file. -/
def parameterNames (f : SourceFile) : List (List Text) :=
  f.outline.functions.map fun d => (f.readFunction d).parameters.map fun p => p.name

/-- A class without its end. -/
def openTypeSource : Text := "<?php class A ".toList ++ '{' :: " public $x;".toList

/-- A list of parameters without its end. -/
def openListSource : Text := "<?php function f($a, $b".toList

/-- In a declaration that is not closed, a line end brings out what the last token ends: both files
are without faults and the first of them ends in code, but one of them lists the property and the
parameter and the other does not. -/
theorem newline_shows_last_property :
    (∀ s ∈ [openTypeSource, openListSource],
      modeAfter .html (pieces false .html s) = .code false ∧
      (ofSource {} s).diagnostics = [] ∧ (ofSource {} (s ++ ['\n'])).diagnostics = []) ∧
    propertyNames (ofSource {} openTypeSource) = [[]] ∧
    propertyNames (ofSource {} (openTypeSource ++ ['\n'])) = [["x".toList]] ∧
    parameterNames (ofSource {} openListSource) = [["a".toList]] ∧
    parameterNames (ofSource {} (openListSource ++ ['\n'])) = [["a".toList, "b".toList]] := by
  decide +kernel

end SourceFile

end PhpOutline
