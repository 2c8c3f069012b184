import Mathlib.Data.List.DropRight
import Mathlib.Data.List.Infix
import PhpOutline.Proofs.Outline.Replay
import PhpOutline.SourceFile

/-!
# Contexts of declarations

A declaration is given the namespace and the imports that the events before it leave, and keeps them
whatever follows. A namespace begins without imports; of several imports of an alias the last one
counts. The imports of a file as a whole are counted in the same way, but over all namespaces.

## Main definitions

* `NameContext.after`, `contextAfter`: the namespace and the imports behind some events.
* `lastBound`: the name that the last of some imports gives to an alias.
* `Event.importsSince`: the imports behind the last namespace.
* `Outline.Follows`: what it means that an outline follows the events of a file.

## Main statements

* `Bindings.get?_ofImports`: the last import of an alias counts.
* `Outline.field_replay`: every declaration stands in the context that the events before it leave.
* `SourceFile.outline_follows`: the outline of every file follows its events.
-/

namespace PhpOutline

namespace Event

/-- The site of a declared type. -/
def type? : Event → Option Site
  | declaresType site => some site
  | _ => none

/-- The site of a declared function. -/
def function? : Event → Option Site
  | declaresFunction site => some site
  | _ => none

/-- The namespace that begins; the global one has no name. -/
def namespace? : Event → Option (Option Text)
  | entersNamespace name => some name
  | _ => none

/-- The import of a name. -/
def import? : Event → Option Import
  | imports i => some i
  | _ => none

/-- The imports behind the last of the namespaces that begin among some events. -/
def importsSince (events : List Event) : List Import :=
  (events.rtakeWhile fun e => e.namespace?.isNone).filterMap import?

theorem filterMap_concat {α : Type} (f : Event → Option α) (events : List Event) (e : Event) :
    (events ++ [e]).filterMap f = events.filterMap f ++ (f e).toList := by
  rw [List.filterMap_append, List.filterMap_cons]
  cases f e <;> rfl

theorem importsSince_concat (events : List Event) {e : Event} (h : e.namespace? = none) :
    importsSince (events ++ [e]) = importsSince events ++ e.import?.toList := by
  rw [importsSince, List.rtakeWhile_concat, if_pos (by rw [h]; rfl), filterMap_concat]
  rfl

/-- A namespace begins without imports. -/
theorem importsSince_concat_namespace (events : List Event) (name : Option Text) :
    importsSince (events ++ [entersNamespace name]) = [] := by
  rw [importsSince, List.rtakeWhile_concat, if_neg (by simp [namespace?])]
  rfl

end Event

/-! ## The last import of an alias -/

/-- The name that the last of some imports gives to an alias. -/
def lastBound (key : Text) (is : List Import) : Option Text :=
  (is.reverse.find? fun i => i.key == key).map Import.name

@[simp] theorem lastBound_nil (key : Text) : lastBound key [] = none := rfl

theorem lastBound_concat (key : Text) (is : List Import) (i : Import) :
    lastBound key (is ++ [i]) = if i.key = key then some i.name else lastBound key is := by
  by_cases h : i.key = key
  · simp [lastBound, h]
  · simp [lastBound, h]

namespace Bindings

/-- The bindings that some imports make, one after the other. -/
def ofImports (is : List Import) : Bindings := ofList (is.map fun i => (i.key, i.name))

@[simp] theorem ofImports_nil : ofImports [] = [] := rfl

theorem ofImports_concat (is : List Import) (i : Import) :
    ofImports (is ++ [i]) = (ofImports is).bind i.key i.name := by
  simp [ofImports, ofList]

/-- Of several imports of an alias the last one counts. -/
theorem get?_ofImports (is : List Import) (key : Text) :
    get? key (ofImports is) = lastBound key is := by
  induction is using List.reverseRecOn with
  | nil => rfl
  | append_singleton is i ih => rw [ofImports_concat, get?_bind, lastBound_concat, ih]

end Bindings

/-! ## The context behind some events -/

/-- The context after one more event. -/
def NameContext.after (c : NameContext) : Event → NameContext
  | .entersNamespace name => ⟨name, []⟩
  | .imports i => { c with imports := c.imports.bind i.key i.name }
  | .declaresType _ => c
  | .declaresFunction _ => c

/-- The context behind some events at the head of a file. -/
def contextAfter (events : List Event) : NameContext := events.foldl NameContext.after {}

theorem contextAfter_concat (events : List Event) (e : Event) :
    contextAfter (events ++ [e]) = (contextAfter events).after e := by
  simp [contextAfter]

/-- The imports in effect are those behind the last namespace. -/
theorem imports_contextAfter (events : List Event) :
    (contextAfter events).imports = .ofImports (Event.importsSince events) := by
  induction events using List.reverseRecOn with
  | nil => rfl
  | append_singleton events e ih =>
    rw [contextAfter_concat]
    cases e with
    | entersNamespace name =>
      rw [Event.importsSince_concat_namespace]
      rfl
    | imports i =>
      change (contextAfter events).imports.bind i.key i.name = _
      rw [Event.importsSince_concat events rfl, ih]
      exact (Bindings.ofImports_concat _ i).symm
    | declaresType site =>
      rw [Event.importsSince_concat events rfl]
      simpa [Event.import?, NameContext.after] using ih
    | declaresFunction site =>
      rw [Event.importsSince_concat events rfl]
      simpa [Event.import?, NameContext.after] using ih

/-- The namespace in effect is the last one that began. -/
theorem namespaceName_contextAfter (events : List Event) :
    (contextAfter events).namespaceName = (events.filterMap Event.namespace?).getLast?.join := by
  induction events using List.reverseRecOn with
  | nil => rfl
  | append_singleton events e ih =>
    rw [contextAfter_concat, Event.filterMap_concat]
    cases e with
    | entersNamespace name => simp [Event.namespace?, NameContext.after]
    | imports i => simpa [Event.namespace?, NameContext.after] using ih
    | declaresType site => simpa [Event.namespace?, NameContext.after] using ih
    | declaresFunction site => simpa [Event.namespace?, NameContext.after] using ih

namespace Outline

theorem context_apply (o : Outline) (e : Event) : (o.apply e).context = o.context.after e := by
  cases e <;> rfl

theorem context_replay (events : List Event) (o : Outline) :
    (o.replay events).context = events.foldl NameContext.after o.context := by
  induction events generalizing o with
  | nil => rfl
  | cons e events ih => rw [replay_cons, ih, context_apply, List.foldl_cons]

/-! ## Declarations in their contexts -/

/-- A list of an outline that is filled with the declarations at some sites. -/
def IsField (field : Outline → List Declared) (site? : Event → Option Site) : Prop :=
  ∀ o e, field (o.apply e) = field o ++ ((site? e).map fun s => s.declaredIn o.context).toList

theorem isField_types : IsField Outline.types Event.type? := by
  intro o e
  cases e with
  | declaresType site => rfl
  | entersNamespace name => exact (List.append_nil _).symm
  | imports i => exact (List.append_nil _).symm
  | declaresFunction site => exact (List.append_nil _).symm

theorem isField_functions : IsField Outline.functions Event.function? := by
  intro o e
  cases e with
  | declaresFunction site => rfl
  | entersNamespace name => exact (List.append_nil _).symm
  | imports i => exact (List.append_nil _).symm
  | declaresType site => exact (List.append_nil _).symm

/-- The declarations at some sites, each in the context that the events before it leave behind the
context `c`. -/
def declarationsFrom (c : NameContext) (site? : Event → Option Site) (events : List Event) :
    List Declared :=
  (events.inits.zip events).filterMap fun p =>
    (site? p.2).map fun site => site.declaredIn (p.1.foldl NameContext.after c)

theorem declarationsFrom_cons (c : NameContext) (site? : Event → Option Site) (e : Event)
    (events : List Event) :
    declarationsFrom c site? (e :: events) =
      ((site? e).map fun site => site.declaredIn c).toList ++
        declarationsFrom (c.after e) site? events := by
  have hrest : ((events.inits.map fun before => e :: before).zip events).filterMap
      (fun p => (site? p.2).map fun site => site.declaredIn (p.1.foldl NameContext.after c)) =
        declarationsFrom (c.after e) site? events := by
    rw [List.zip_map_left, List.filterMap_map]
    rfl
  rw [declarationsFrom, List.inits_cons, List.zip_cons_cons, List.filterMap_cons, hrest]
  cases site? e with
  | none => rfl
  | some site => rfl

/-- A replay adds the declarations, each in the context that the events before it leave. -/
theorem field_replay {field : Outline → List Declared} {site? : Event → Option Site}
    (h : IsField field site?) (events : List Event) (o : Outline) :
    field (o.replay events) = field o ++ declarationsFrom o.context site? events := by
  induction events generalizing o with
  | nil => exact (List.append_nil _).symm
  | cons e events ih =>
    rw [replay_cons, ih, h o e, context_apply, declarationsFrom_cons, List.append_assoc]

/-! ## Imports of a file -/

/-- The imports in effect are imports of the file. -/
def ImportsInUses (o : Outline) : Prop :=
  ∀ key name, o.context.imports.get? key = some name → o.uses.get? key = some name

theorem ImportsInUses.apply {o : Outline} (h : o.ImportsInUses) (e : Event) :
    (o.apply e).ImportsInUses := by
  cases e with
  | entersNamespace ns =>
    intro key name hkey
    simp [Outline.apply] at hkey
  | imports i =>
    intro key name hkey
    simp only [Outline.apply, Bindings.get?_bind] at hkey ⊢
    by_cases hi : i.key = key
    · simpa [hi] using hkey
    · rw [if_neg hi] at hkey ⊢
      exact h key name hkey
  | declaresType site => exact h
  | declaresFunction site => exact h

theorem ImportsInUses.replay (events : List Event) {o : Outline} (h : o.ImportsInUses) :
    (o.replay events).ImportsInUses := by
  induction events generalizing o with
  | nil => exact h
  | cons e events ih => exact ih (h.apply e)

/-- The imports of a file are bound one after the other, whatever stands between them. -/
theorem uses_replay (events : List Event) :
    (replay {} events).uses = .ofImports (events.filterMap Event.import?) := by
  induction events using List.reverseRecOn with
  | nil => rfl
  | append_singleton events e ih =>
    rw [replay_append, replay_cons, replay_nil, Event.filterMap_concat]
    cases e with
    | imports i =>
      change (replay {} events).uses.bind i.key i.name = _
      rw [ih]
      exact (Bindings.ofImports_concat _ i).symm
    | entersNamespace name => simpa [Event.import?, Outline.apply] using ih
    | declaresType site => simpa [Event.import?, Outline.apply] using ih
    | declaresFunction site => simpa [Event.import?, Outline.apply] using ih

/-! ## Outlines that follow the events of a file -/

/-- An outline follows the events of a file, and so does the survey at every place of it. -/
structure Follows (events : List Event) (o : Outline) : Prop where
  /-- A type stands in the context that the events before it leave. -/
  types : o.types = (events.inits.zip events).filterMap fun p =>
    p.2.type?.map fun site => site.declaredIn (contextAfter p.1)
  /-- So does a function. -/
  functions : o.functions = (events.inits.zip events).filterMap fun p =>
    p.2.function?.map fun site => site.declaredIn (contextAfter p.1)
  /-- What is declared up to a place is not changed by what follows. -/
  settled : ∀ before, before <+: events →
    (Survey.ofEvents before).types <+: o.types ∧ (Survey.ofEvents before).functions <+: o.functions
  /-- At every place a snapshot is the context that the events before it leave. -/
  current : ∀ before, before <+: events →
    ∀ context ∈ (Survey.ofEvents before).snapshot, context = contextAfter before
  /-- In that context an alias has the name that its last import since the last namespace gives. -/
  latest : ∀ before, before <+: events →
    (contextAfter before).namespaceName = (before.filterMap Event.namespace?).getLast?.join ∧
      ∀ key, (contextAfter before).imports.get? key = lastBound key (Event.importsSince before)
  /-- At every place the imports in effect are imports of the file under the same names. -/
  bound : ∀ before, before <+: events → ∀ key name,
    (Survey.ofEvents before).imports.get? key = some name →
      (Survey.ofEvents before).uses.get? key = some name
  /-- The imports of the file are all of them, bound one after the other. -/
  uses : o.uses = .ofImports (events.filterMap Event.import?)
  /-- Of several imports of an alias the last one in the file counts. -/
  uses_latest : ∀ key, o.uses.get? key = lastBound key (events.filterMap Event.import?)

theorem prefix_field_replay {field : Outline → List Declared} {site? : Event → Option Site}
    (h : IsField field site?) {before events : List Event} (hb : before <+: events) :
    field (replay {} before) <+: field (replay {} events) := by
  obtain ⟨rest, rfl⟩ := hb
  rw [replay_append, field_replay h rest]
  exact List.prefix_append _ _

end Outline

/-- Every declaration of a file is given the namespace and the imports that stand before it, at no
place is a stale snapshot used, and the imports of the file are the last ones of each alias. -/
theorem SourceFile.outline_follows (o : Options) (source : Text) :
    (ofSource o source).outline.Follows (Event.discover (ofSource o source).table) := by
  change (Survey.ofEvents (Event.discover (ofSource o source).table)).outline.Follows _
  generalize Event.discover (ofSource o source).table = events
  have hplain : ∀ before, (Survey.ofEvents before).outline = .replay {} before :=
    Survey.outline_ofEvents
  have hcontext : ∀ before, (Survey.ofEvents before).outline.context = contextAfter before := by
    intro before
    rw [hplain, Outline.context_replay]
    rfl
  constructor
  case types =>
    rw [hplain, Outline.field_replay Outline.isField_types]
    rfl
  case functions =>
    rw [hplain, Outline.field_replay Outline.isField_functions]
    rfl
  case settled =>
    intro before hb
    have htypes := Outline.prefix_field_replay Outline.isField_types hb
    have hfunctions := Outline.prefix_field_replay Outline.isField_functions hb
    rw [← hplain, ← hplain] at htypes hfunctions
    exact ⟨htypes, hfunctions⟩
  case current =>
    intro before _ context hsnapshot
    rw [← hcontext]
    exact (Survey.isCurrent_ofEvents before).2 context hsnapshot
  case latest =>
    intro before _
    refine ⟨namespaceName_contextAfter before, ?_⟩
    intro key
    rw [imports_contextAfter, Bindings.get?_ofImports]
  case bound =>
    intro before _ key name hkey
    have hin : (Outline.replay {} before).ImportsInUses :=
      Outline.ImportsInUses.replay before (by intro key name h; simp at h)
    rw [← hplain] at hin
    exact hin key name hkey
  case uses => rw [hplain, Outline.uses_replay]
  case uses_latest =>
    intro key
    rw [hplain, Outline.uses_replay, Bindings.get?_ofImports]

end PhpOutline
