import PhpOutline.Proofs.Declaration.TypeShifts
import PhpOutline.Proofs.Outline.Findings
import PhpOutline.Proofs.Outline.Listed
import PhpOutline.Proofs.Outline.Spans

/-!
# Files at later places

Two files whose tables have tokens in common declare the same in the common part, at later places.

## Main definitions

* `Declared.shifted`, `Outline.shifted`: declarations at later places.
* `SourceFile.ShiftedBy`: two files that differ in places only.

## Main statements

* `TokenTable.Shift.forall₂_alike`: the significant entries of two tables with tokens in common.
* `Outline.Alike.eq_shifted`, `Outline.ofTable_shifted`: what is declared at later places.
* `SourceFile.shiftedBy_of_shift`: two files with all tokens of the first in common.
-/

namespace PhpOutline

open TokenTable (Shift)

/-! ## Significant tokens in common -/

/-- The significant entries of two tables with tokens in common are the same, at later places. -/
theorem TokenTable.Shift.forall₂_alike {front ts : List Token} {d : Nat} {t u : TokenTable}
    (h : Shift front ts d t u) :
    List.Forall₂ (Entry.Alike fun i j => j = i + front.length)
      (Entry.significant (t.startingAt 0)) (Entry.significant (u.startingAt 0)) := by
  obtain ⟨es, rest, rest', hes, hes', -, hrest, hrest'⟩ := h.exists_startingAt 0
  have hnil : ∀ {x : List Entry}, (∀ e ∈ x, e.kind.isInsignificant = true) →
      Entry.significant x = [] := by
    intro x hx
    rw [Entry.significant, List.filter_eq_nil_iff]
    intro e he
    simp [Entry.isSignificant_eq, hx e he]
  have hfront : u.startingAt 0 = Entry.number 0 front ++ u.startingAt (0 + front.length) := by
    obtain ⟨x, hx, -⟩ := h.shifted
    rw [TokenTable.startingAt, TokenTable.startingAt, hx, List.drop_zero, Nat.zero_add,
      List.drop_left, Entry.number_append, Nat.zero_add]
  have htags : ∀ e ∈ Entry.number 0 front, e.kind.isInsignificant = true := by
    intro e he
    have hkind : e.kind = .openTag := h.front _ (Entry.toToken_mem_of_mem_number he)
    rw [hkind]
    rfl
  rw [hfront, hes, hes', Entry.significant_append, Entry.significant_append,
    Entry.significant_append, hnil hrest, hnil hrest', hnil htags, List.nil_append, List.append_nil,
    List.append_nil, Entry.significant_shifted, List.forall₂_map_right_iff, List.forall₂_same]
  intro e _
  exact ⟨rfl, rfl, rfl⟩

/-! ## Declarations at later places -/

/-- The declaration `k` places later. -/
def Declared.shifted (k : Nat) (d : Declared) : Declared :=
  { d with keyword := d.keyword + k, span := d.span.shifted k }

theorem Declared.Alike.eq_shifted {k : Nat} {d d' : Declared}
    (h : d.Alike (fun i j => j = i + k) (fun i j => j = i + k) d') : d' = d.shifted k := by
  obtain ⟨name, keyword, ⟨first, last, hordered⟩, context⟩ := d
  obtain ⟨name', keyword', ⟨first', last', hordered'⟩, context'⟩ := d'
  obtain ⟨rfl, rfl, rfl, rfl, rfl⟩ := h
  rfl

namespace Outline

/-- The outline with its declarations `k` places later. -/
def shifted (k : Nat) (o : Outline) : Outline :=
  { o with
    types := o.types.map (Declared.shifted k)
    functions := o.functions.map (Declared.shifted k) }

variable {k : Nat}

/-- The same outline at later places. -/
theorem Alike.eq_shifted {o o' : Outline}
    (h : o.Alike (fun i j => j = i + k) (fun i j => j = i + k) o') : o' = o.shifted k := by
  have hmap : ∀ {ds ds' : List Declared},
      List.Forall₂ (Declared.Alike (fun i j => j = i + k) fun i j => j = i + k) ds ds' →
      ds' = ds.map (Declared.shifted k) := by
    intro ds ds' hds
    rw [eq_comm, ← List.forall₂_eq_eq_eq, List.forall₂_map_left_iff]
    exact hds.imp fun _ _ hd => hd.eq_shifted.symm
  obtain ⟨context, namespaces, uses, types, functions⟩ := o
  obtain ⟨context', namespaces', uses', types', functions'⟩ := o'
  obtain ⟨rfl, rfl, rfl, htypes, hfunctions⟩ := h
  obtain rfl := hmap htypes
  obtain rfl := hmap hfunctions
  rfl

/-- A table that has all tokens of another one, and no more behind them. -/
theorem ofTable_shifted {front : List Token} {d : Nat} {t u : TokenTable}
    (h : Shift front t.tokens d t u) (hsize : u.size = t.size + front.length) :
    ofTable u = (ofTable t).shifted front.length := by
  have halike := h.forall₂_alike
  have hevents : List.Forall₂ (Event.Alike (fun i j => j = i + front.length)
      fun i j => j = i + front.length) (Event.discover t) (Event.discover u) := by
    by_cases hempty : t.tokens = []
    -- without tokens there is no last place to compare, and nothing to find
    · have hnil : Entry.significant (t.startingAt 0) = [] := by
        rw [TokenTable.startingAt, hempty]
        rfl
      rw [hnil, List.forall₂_nil_left_iff] at halike
      rw [Event.discover, Event.discover, hnil, halike, sweep_nil, sweep_nil]
      exact .nil
    · have hpos : 0 < t.size := List.length_pos_iff.2 hempty
      refine Event.discover_alike ⟨fun hi => hi, ?_, ?_⟩ halike
      · intro i i' j j' hi hj
        rw [hi, hj, Nat.add_max_add_right]
      · rw [TokenTable.lastIndex, TokenTable.lastIndex, hsize]
        omega
  exact (alike_ofTable hevents).eq_shifted

theorem find?_map_shifted (k : Nat) (p : Text → Bool) (items : List Declared) :
    (items.map (Declared.shifted k)).find? (fun d => p d.name) =
      (items.find? fun d => p d.name).map (Declared.shifted k) := by
  rw [List.find?_map]
  rfl

theorem firstNamedAnyCase?_shifted (k : Nat) (name : Text) (items : List Declared) :
    firstNamedAnyCase? Declared.name name (items.map (Declared.shifted k)) =
      (firstNamedAnyCase? Declared.name name items).map (Declared.shifted k) := by
  rw [firstNamedAnyCase?, firstNamedAnyCase?, firstNamed?, firstNamed?,
    find?_map_shifted k (· == name), find?_map_shifted k (·.sameWord name), Option.map_or]

/-- A declaration is found by its name at whatever place. -/
theorem find?_shifted (k : Nat) (o : Outline) (items : List Declared) (name : Text) :
    (o.shifted k).find? (items.map (Declared.shifted k)) name =
      (o.find? items name).map (Declared.shifted k) := by
  have hcontext : (o.shifted k).namespaceName = o.namespaceName := rfl
  have hnamespaces : (o.shifted k).namespaces = o.namespaces := rfl
  simp only [find?, hcontext, hnamespaces, firstNamedAnyCase?_shifted, Option.map_or]
  split
  · rfl
  · rw [List.map_findSome?]
    rfl

theorem mem_of_find? {o : Outline} {items : List Declared} {name : Text} {d : Declared}
    (h : o.find? items name = some d) : d ∈ items := by
  rw [find?, Option.or_eq_some_iff] at h
  rcases h with h | ⟨-, h⟩
  · split at h
    · cases h
    · obtain ⟨ns, -, h⟩ := List.exists_of_findSome?_eq_some h
      exact (sameWord_of_firstNamedAnyCase? h).1
  · exact (sameWord_of_firstNamedAnyCase? h).1

end Outline

/-! ## Whole files -/

theorem orNotFound_map {α β : Type} (subject : Subject) (name : Text) (f : α → β) (a : Option α) :
    orNotFound subject name (a.map f) = (orNotFound subject name a).map f := by
  cases a <;> rfl

namespace SourceFile

/-- Two files with the same faults that declare the same: in `g`, every declaration and whatever is
read of it stands `k` places later than in `f`. -/
structure ShiftedBy (k : Nat) (f g : SourceFile) : Prop where
  diagnostics : g.diagnostics = f.diagnostics
  outline : g.outline = f.outline.shifted k
  readType : ∀ d ∈ f.outline.types, g.readType (d.shifted k) = (f.readType d).shifted k
  readFunction : ∀ d ∈ f.outline.functions,
    g.readFunction (d.shifted k) = (f.readFunction d).shifted k
  type : ∀ name, g.type name = (f.type name).map (ClassLike.shifted k)
  function : ∀ name, g.function name = (f.function name).map (Callable.shifted k)

/-- A declared type lies in the file, and its word in the type. -/
theorem bounds_of_mem_types {t : TokenTable} {d : Declared} (h : d ∈ (Outline.ofTable t).types) :
    d.keyword ≤ d.span.last ∧ d.span.last < t.size := by
  obtain ⟨site, hsite, hkeyword, hspan⟩ := exists_of_mem_types h
  obtain ⟨brace, -, -, hlt, hle⟩ := Event.exists_brace_of_declaresType_mem hsite
  have hlast := (Event.bounds_of_mem_discover hsite rfl).2
  rw [hkeyword] at hlt
  rw [hspan] at hle hlast
  omega

/-- So does a declared function. -/
theorem bounds_of_mem_functions {t : TokenTable} {d : Declared}
    (h : d ∈ (Outline.ofTable t).functions) : d.span.last < t.size := by
  obtain ⟨site, hsite, -, hspan⟩ := exists_of_mem_functions h
  rw [← hspan]
  exact (Event.bounds_of_mem_discover hsite rfl).2

/-- Where all tokens of one file are the last tokens of another one behind some tags, the files
declare the same. -/
theorem shiftedBy_of_shift {front : List Token} {d : Nat} {f g : SourceFile}
    (hf : f.outline = .ofTable f.table) (hg : g.outline = .ofTable g.table)
    (hdiagnostics : g.diagnostics = f.diagnostics)
    (h : Shift front f.table.tokens d f.table g.table)
    (hsize : g.table.size = f.table.size + front.length) : f.ShiftedBy front.length g := by
  have houtline : g.outline = f.outline.shifted front.length := by
    rw [hf, hg, Outline.ofTable_shifted h hsize]
  have htype : ∀ d ∈ f.outline.types,
      g.readType (d.shifted front.length) = (f.readType d).shifted front.length := by
    intro d hd
    rw [hf] at hd
    obtain ⟨hkeyword, hspan⟩ := bounds_of_mem_types hd
    exact ClassLike.read_shifted h d.context hspan (Nat.lt_of_le_of_lt hkeyword hspan)
  have hfunction : ∀ d ∈ f.outline.functions,
      g.readFunction (d.shifted front.length) = (f.readFunction d).shifted front.length := by
    intro d hd
    rw [hf] at hd
    exact Callable.read_shifted h d.context none false (bounds_of_mem_functions hd)
  refine ⟨hdiagnostics, houtline, htype, hfunction, ?_, ?_⟩
  · intro name
    have htypes : g.outline.types = f.outline.types.map (Declared.shifted front.length) := by
      rw [houtline]
      rfl
    rw [SourceFile.type, SourceFile.type, htypes, houtline, Outline.find?_shifted, Option.map_map,
      ← orNotFound_map, Option.map_map]
    congr 1
    refine Option.map_congr ?_
    intro d hd
    exact htype d (Outline.mem_of_find? hd)
  · intro name
    have hfunctions : g.outline.functions =
        f.outline.functions.map (Declared.shifted front.length) := by
      rw [houtline]
      rfl
    rw [SourceFile.function, SourceFile.function, hfunctions, houtline, Outline.find?_shifted,
      Option.map_map, ← orNotFound_map, Option.map_map]
    congr 1
    refine Option.map_congr ?_
    intro d hd
    exact hfunction d (Outline.mem_of_find? hd)

end SourceFile

end PhpOutline
