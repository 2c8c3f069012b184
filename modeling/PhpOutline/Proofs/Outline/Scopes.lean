import PhpOutline.Proofs.Discovery.ItemEvents
import PhpOutline.Proofs.Outline.Snapshots

/-!
# Scopes of the items of a file

A file is written with any items, each on a line of its own. Its outline lists the types and the
functions among them, in order. Each has the namespace that was last entered before it in front of
its name, and stands in the context of that namespace and the imports that were written since.

## Main definitions

* `Item.latestNamespace`, `Item.importsSince`, `Item.scopeAfter`: the scope behind some items.
* `Item.declarations`: the names that items declare, each with its scope.
* `SourceFile.ListsItems`: what it means that a file lists items.

## Main statements

* `scopeAfter_eq_foldl`: the scope, item by item.
* `SourceFile.items_listed`: a file lists the items that it is written with.
-/

namespace PhpOutline

namespace Item

/-- The namespace that an item enters. -/
def namespace? : Item → Option Text
  | enters n => some n.name.text
  | _ => none

/-- What an item imports. -/
def import? : Item → Option Import
  | imports i => some ⟨i.key.text, i.name.text⟩
  | _ => none

/-- The name of a type as it is written. -/
def typeName? : Item → Option Text
  | type t => some t.name.text
  | _ => none

/-- The name of a function as it is written. -/
def functionName? : Item → Option Text
  | function f => some f.name.text
  | _ => none

/-- The namespace that was last entered. -/
def latestNamespace (items : List Item) : Option Text := (items.filterMap namespace?).getLast?

/-- The imports since then. -/
def importsSince (items : List Item) : List Import :=
  (items.rtakeWhile fun i => i.namespace?.isNone).filterMap import?

/-- The namespace and the imports in effect behind some items. -/
def scopeAfter (items : List Item) : NameContext :=
  ⟨latestNamespace items, .ofImports (importsSince items)⟩

/-- A name with the namespace in front, where there is one. -/
def nameIn (ns : Option Text) (name : Text) : Text :=
  match ns with
  | some ns => ns ++ '\\' :: name
  | none => name

/-- The names that some items declare, each in the namespace before it and with the scope there. -/
def declarations (name? : Item → Option Text) (items : List Item) : List (Text × NameContext) :=
  (items.inits.zip items).filterMap fun p =>
    (name? p.2).map fun name => (nameIn (latestNamespace p.1) name, scopeAfter p.1)

theorem importsSince_concat (items : List Item) {i : Item} (h : i.namespace? = none) :
    importsSince (items ++ [i]) = importsSince items ++ i.import?.toList := by
  rw [importsSince, List.rtakeWhile_concat, if_pos (by rw [h]; rfl), List.filterMap_append,
    List.filterMap_cons]
  cases i.import? <;> rfl

theorem importsSince_concat_enters (items : List Item) (n : NamespaceSyntax) :
    importsSince (items ++ [enters n]) = [] := by
  rw [importsSince, List.rtakeWhile_concat, if_neg (by simp [namespace?])]
  rfl

theorem latestNamespace_concat (items : List Item) (i : Item) :
    latestNamespace (items ++ [i]) = i.namespace?.or (latestNamespace items) := by
  rw [latestNamespace, List.filterMap_append, List.filterMap_cons]
  cases i.namespace? <;> simp [latestNamespace]

end Item

/-! ## Scopes, item by item -/

/-- The context after one more item. -/
def NameContext.afterItem (c : NameContext) : Item → NameContext
  | .enters n => ⟨some n.name.text, []⟩
  | .imports i => { c with imports := c.imports.bind i.key.text i.name.text }
  | .type _ => c
  | .function _ => c

/-- The scope behind some items is what they leave, one after the other. -/
theorem scopeAfter_eq_foldl (items : List Item) :
    Item.scopeAfter items = items.foldl NameContext.afterItem {} := by
  induction items using List.reverseRecOn with
  | nil => rfl
  | append_singleton items i ih =>
    rw [List.foldl_append, ← ih, Item.scopeAfter, Item.latestNamespace_concat]
    cases i with
    | enters n =>
      rw [Item.importsSince_concat_enters]
      rfl
    | imports i =>
      rw [Item.importsSince_concat items rfl]
      exact congrArg (NameContext.mk _) (Bindings.ofImports_concat _ _)
    | type t =>
      rw [Item.importsSince_concat items rfl]
      exact congrArg (NameContext.mk _) (congrArg _ (List.append_nil _))
    | function f =>
      rw [Item.importsSince_concat items rfl]
      exact congrArg (NameContext.mk _) (congrArg _ (List.append_nil _))

/-- An item changes the context as its event does, and declares the same names. -/
theorem Item.FoundAs.agrees {i : Item} {ev : Event} (h : i.FoundAs ev) :
    (∀ c : NameContext, c.after ev = c.afterItem i) ∧
      ev.type?.map Site.shortName = i.typeName? ∧
      ev.function?.map Site.shortName = i.functionName? := by
  cases i with
  | enters n =>
    obtain rfl := h
    exact ⟨fun _ => rfl, rfl, rfl⟩
  | imports i =>
    obtain rfl := h
    exact ⟨fun _ => rfl, rfl, rfl⟩
  | type t =>
    obtain ⟨keyword, span, rfl⟩ := h
    exact ⟨fun _ => rfl, rfl, rfl⟩
  | function f =>
    obtain ⟨keyword, span, rfl⟩ := h
    exact ⟨fun _ => rfl, rfl, rfl⟩

theorem qualify_scopeAfter (items : List Item) (name : Text) :
    (Item.scopeAfter items).qualify name = Item.nameIn (Item.latestNamespace items) name := by
  cases h : Item.latestNamespace items with
  | none => simp [NameContext.qualify, Item.scopeAfter, Item.nameIn, h]
  | some ns => simp [NameContext.qualify, Item.scopeAfter, Item.nameIn, joinNames, h]

/-- The declarations among the events of some items, behind a context `c`. -/
theorem map_declarationsFrom {items : List Item} {events : List Event}
    (h : List.Forall₂ Item.FoundAs items events) {site? : Event → Option Site}
    {name? : Item → Option Text}
    (hname : ∀ i ev, i.FoundAs ev → (site? ev).map Site.shortName = name? i) (c : NameContext) :
    (Outline.declarationsFrom c site? events).map (fun d => (d.name, d.context)) =
      (items.inits.zip items).filterMap fun p =>
        (name? p.2).map fun name =>
          ((p.1.foldl NameContext.afterItem c).qualify name,
            p.1.foldl NameContext.afterItem c) := by
  induction h generalizing c with
  | nil => rfl
  | @cons i ev items events hev _ ih =>
    rw [Outline.declarationsFrom_cons, List.map_append, ih, hev.agrees.1, List.inits_cons,
      List.zip_cons_cons, List.filterMap_cons, List.zip_map_left, List.filterMap_map,
      ← hname i ev hev]
    cases site? ev with
    | none => rfl
    | some site => rfl

/-! ## Files -/

/-- A file lists the types and functions among some items, in order, each in its scope. -/
structure SourceFile.ListsItems (items : List Item) (f : SourceFile) : Prop where
  typeNames : f.typeNames = (Item.declarations Item.typeName? items).map Prod.fst
  types : (f.outline.types.map fun d => (d.name, d.context)) =
    Item.declarations Item.typeName? items
  functionNames : f.functionNames = (Item.declarations Item.functionName? items).map Prod.fst
  functions : (f.outline.functions.map fun d => (d.name, d.context)) =
    Item.declarations Item.functionName? items
  /-- In the scope behind some items, an alias has the name that its last import since the last
  namespace gives. -/
  latest : ∀ before, before <+: items → ∀ key,
    (Item.scopeAfter before).imports.get? key = lastBound key (Item.importsSince before)

/-- One list of the outline. -/
theorem map_field_fileSource (items : List Item) {field : Outline → List Declared}
    {site? : Event → Option Site} (hfield : Outline.IsField field site?) (hnil : field {} = [])
    {name? : Item → Option Text}
    (hname : ∀ i ev, i.FoundAs ev → (site? ev).map Site.shortName = name? i) :
    ((field (SourceFile.ofSource {} (fileSource items)).outline).map fun d =>
      (d.name, d.context)) = Item.declarations name? items := by
  change (field (Outline.ofTable (fileTable items))).map _ = _
  rw [Outline.ofTable_eq_replay, Outline.field_replay hfield, hnil, List.nil_append,
    map_declarationsFrom (forall₂_discover items) hname]
  refine List.filterMap_congr ?_
  intro p _
  rw [← scopeAfter_eq_foldl]
  simp only [qualify_scopeAfter]

/-- A file that is written with some items lists them: all types and functions, in order, each with
the namespace before it in front of its name, and in the scope of that namespace. -/
theorem SourceFile.items_listed (items : List Item) :
    (ofSource {} (fileSource items)).ListsItems items := by
  have htypes := map_field_fileSource items Outline.isField_types rfl
    fun i ev (h : i.FoundAs ev) => h.agrees.2.1
  have hfunctions := map_field_fileSource items Outline.isField_functions rfl
    fun i ev (h : i.FoundAs ev) => h.agrees.2.2
  constructor
  case types => exact htypes
  case functions => exact hfunctions
  case typeNames =>
    rw [← htypes, List.map_map]
    rfl
  case functionNames =>
    rw [← hfunctions, List.map_map]
    rfl
  case latest =>
    intro before _ key
    exact Bindings.get?_ofImports _ key

/-- Two namespaces with a class, a function and an enumeration, whose bodies hold the words of all
items. -/
def sampleItems : List Item :=
  [.enters ⟨⟨⟨"A".toList, by decide⟩, [⟨"trait".toList, by decide⟩], by decide⟩⟩,
    .imports ⟨⟨⟨"P".toList, by decide⟩, [⟨"Q".toList, by decide⟩], by decide⟩,
      ⟨⟨"K".toList, by decide⟩, by decide⟩⟩,
    .type
      { modifiers :=
          [⟨"Final".toList, .final, by decide⟩, ⟨"ABSTRACT".toList, .abstract, by decide⟩]
        leading := by decide
        word := ⟨"class".toList, .plainClass, by decide⟩
        name := ⟨⟨"X".toList, by decide⟩, by decide⟩
        body := ⟨"use T; new class {};".toList,
          by decide +kernel, ⟨_, rfl⟩, by decide +kernel, by decide +kernel, by decide +kernel⟩ },
    .imports ⟨⟨⟨"R".toList, by decide⟩, [], by decide⟩, ⟨⟨"K".toList, by decide⟩, by decide⟩⟩,
    .function
      { name := ⟨⟨"g".toList, by decide⟩, by decide⟩
        parameters := ⟨"$a = [1, 2]".toList, by decide +kernel, ⟨_, rfl⟩, by decide +kernel,
          by decide +kernel, by decide +kernel⟩
        body := ⟨"namespace\\h(); // ".toList ++ ['}', '\n'], by decide +kernel, ⟨_, rfl⟩,
          by decide +kernel, by decide +kernel, by decide +kernel⟩ },
    .enters ⟨⟨⟨"B".toList, by decide⟩, [], by decide⟩⟩,
    .type
      { modifiers := []
        leading := by decide
        word := ⟨"enum".toList, .enumeration, by decide⟩
        name := ⟨⟨"Y".toList, by decide⟩, by decide⟩
        body := ⟨"case Z = 1;".toList, by decide +kernel, ⟨_, rfl⟩, by decide +kernel,
          by decide +kernel, by decide +kernel⟩ }]

/-- The items of the sample are listed. The function stands behind the second import of its alias,
and the enumeration behind none. -/
theorem items_listed_sample :
    let f := SourceFile.ofSource {} (fileSource sampleItems)
    (f.outline.types.map fun d => (d.name, d.context)) =
        [("A\\trait\\X".toList, ⟨some "A\\trait".toList, [("K".toList, "P\\Q".toList)]⟩),
          ("B\\Y".toList, ⟨some "B".toList, []⟩)] ∧
      (f.outline.functions.map fun d => (d.name, d.context)) =
        [("A\\trait\\g".toList, ⟨some "A\\trait".toList, [("K".toList, "R".toList)]⟩)] := by
  have h := SourceFile.items_listed sampleItems
  refine ⟨h.types.trans ?_, h.functions.trans ?_⟩
  · decide +kernel
  · decide +kernel

/-- A body that ends with a bare opening tag runs on: with a brace behind it, it is not a tag, and
the items behind it are not listed. -/
theorem bare_tag_hides_items :
    ¬ ∀ body : Text, faults 1 (codePieces body) = [] →
      (∃ a, modeAfter (.code false) (codePieces body) = .code a) →
      (∀ p ∈ (codePieces body).getLast?, p.isLineComment = false) →
      Nested (fun _ => True) (kindsOf (codePieces body)) →
      (SourceFile.ofSource {} ("<?php\nclass X ".toList ++ '{' ::
        (body ++ '}' :: "\nclass Y {}\n".toList))).typeNames = ["X".toList, "Y".toList] := by
  intro h
  have hboth := h "?><?php".toList (by decide +kernel) ⟨_, rfl⟩ (by decide +kernel)
    (by decide +kernel)
  have hone : (SourceFile.ofSource {} ("<?php\nclass X ".toList ++ '{' ::
      ("?><?php".toList ++ '}' :: "\nclass Y {}\n".toList))).typeNames = ["X".toList] := by
    decide +kernel
  rw [hone] at hboth
  cases hboth

end PhpOutline
